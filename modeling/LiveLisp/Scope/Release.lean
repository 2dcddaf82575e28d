/-
  Keeping scopes alive and letting them go. Dropping the last count of a record removes it at once
  and drops a count of everything it kept alive.

  Each count dropped lowers the total of the store (`total_free`, `total_setRecord`), so the cascade
  ends.
-/
import LiveLisp.Scope.Store

namespace LiveLisp.Store

theorem total_free {s : Store} {t : Ticket} {r : Record} (h : s.record? t = some r) :
    (s.free t).total + r.refcount = s.total := by
  have hslots : (s.free t).slots = s.slots.setIfInBounds t.index ⟨t.generation + 1, none⟩ := rfl
  simpa using total_setSlot h hslots

theorem total_setRecord {s : Store} {t : Ticket} {r : Record} (h : s.record? t = some r)
    (r' : Record) : (s.setRecord t r').total + r.refcount = s.total + r'.refcount := by
  have hslots : (s.setRecord t r').slots = s.slots.setIfInBounds t.index ⟨t.generation, some r'⟩ :=
    rfl
  simpa using total_setSlot h hslots

/-- Drops one count for each ticket, the first one first. A record without counts left is removed,
and what it kept alive goes before the tickets that are left, its last reference in front. -/
def dropAll (s : Store) (pending : List Ticket) : EStateM.Result Error Store Unit :=
  match pending with
  | [] => .ok () s
  | t :: rest =>
    match _h : s.record? t with
    | none => .error (.internal (.unknownTicket t)) s
    | some r =>
      if _h0 : r.refcount = 0 then .error (.internal (.belowZero t)) s
      else if _h1 : r.refcount = 1 then dropAll (s.free t) (r.references.reverse ++ rest)
      else dropAll (s.setRecord t { r with refcount := r.refcount - 1 }) rest
termination_by s.total
decreasing_by
  · have := total_free _h
    omega
  · have := total_setRecord _h { r with refcount := r.refcount - 1 }
    simp only at this
    omega

/-- One count less. -/
def decref (t : Ticket) : StoreM Unit := fun s =>
  s.dropAll [t]

/-- One count more. -/
def incref (t : Ticket) : StoreM Unit := fun s =>
  match s.record? t with
  | none => .error (.internal (.unknownTicket t)) s
  | some r => .ok () (s.setRecord t { r with refcount := r.refcount + 1 })

/-- One count more for each scope that a value holds. -/
def retain (v : Value) : StoreM Unit :=
  v.scopes.forM incref

/-- One count less for each scope that a value holds. -/
def release (v : Value) : StoreM Unit :=
  v.scopes.forM decref

/-- An empty scope with one count. -/
def newScope : StoreM Ticket := fun s =>
  let (t, s) := s.alloc ⟨1, [], none⟩
  .ok t s

/-- Binds a name in this scope alone and lets go of what it was bound to. The new value is retained
first, since it may hold this very scope. -/
def define (t : Ticket) (name : String) (v : Value) : StoreM Unit := do
  retain v
  let s ← get
  match s.record? t with
  | none => throw (.internal (.unknownTicket t))
  | some r =>
    let displaced := r.bindings.get? name
    set (s.setRecord t { r with bindings := r.bindings.put name v })
    match displaced with
    | some old => release old
    | none => pure ()

/-- A scope inside `parent` with one count and these bindings; the parent gains a count. -/
def newScopeIn (parent : Ticket) (bindings : List (String × Value)) : StoreM Ticket := do
  incref parent
  let s ← get
  let (t, s) := s.alloc ⟨1, [], some parent⟩
  set s
  bindings.forM fun (name, v) => define t name v
  return t

/-- The value of a name in this scope or the nearest one around it. The caller owns a count of what
the value holds. -/
def lookup (t : Ticket) (name : String) : StoreM (Option Value) := do
  let s ← get
  match s.ownerOf t name with
  | .error e => throw e
  | .ok none => return none
  | .ok (some owner) =>
    match (s.record? owner).bind (·.bindings.get? name) with
    | some v =>
      retain v
      return some v
    | none => return none

/-- Assigns where a name is bound, in this scope or the nearest one around it; false if it is not.
-/
def assign (t : Ticket) (name : String) (v : Value) : StoreM Bool := do
  let s ← get
  match s.ownerOf t name with
  | .error e => throw e
  | .ok none => return false
  | .ok (some owner) =>
    retain v
    let s ← get
    match s.record? owner with
    | none => throw (.internal (.unknownTicket owner))
    | some r =>
      let displaced := r.bindings.get? name
      set (s.setRecord owner { r with bindings := r.bindings.put name v })
      match displaced with
      | some old => release old
      | none => pure ()
      return true

/-- The scope around a scope. -/
def parent (s : Store) (t : Ticket) : Except Error (Option Ticket) :=
  match s.record? t with
  | none => .error (.internal (.unknownTicket t))
  | some r => .ok r.parent

end LiveLisp.Store
