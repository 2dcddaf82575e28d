/-
  The scope store: records of bindings in numbered slots, each with a count of those who keep it
  alive.

  A ticket is good while its generation is that of its slot; removing a record moves the generation
  on, so a ticket to it never comes to mean a later record in the same slot. Freed slots are reused,
  the last freed first.
-/
import LiveLisp.Code.Value
import LiveLisp.Error
import LiveLisp.NameMap

namespace LiveLisp

/-- One scope: how many hold it, what it binds, and the scope around it. -/
structure Record where
  refcount : Nat
  bindings : NameMap Value
  parent : Option Ticket
deriving Inhabited

/-- What a record keeps alive: its parent, and each scope that a bound value holds. -/
def Record.references (r : Record) : List Ticket :=
  r.parent.toList ++ r.bindings.values.flatMap Value.scopes

structure Slot where
  generation : Nat
  record : Option Record
deriving Inhabited

structure Store where
  slots : Array Slot
  /-- The empty slots, the last freed first. -/
  freeList : List Nat
  live : Nat
deriving Inhabited

/-- Store operations fail with the store as far as they got. -/
abbrev StoreM := EStateM Error Store

namespace Store

def empty : Store := ⟨#[], [], 0⟩

/-- The record of a good ticket. -/
def record? (s : Store) (t : Ticket) : Option Record :=
  match s.slots[t.index]? with
  | some slot => if slot.generation = t.generation then slot.record else none
  | none => none

def contains (s : Store) (t : Ticket) : Bool :=
  (s.record? t).isSome

def refcount? (s : Store) (t : Ticket) : Option Nat :=
  (s.record? t).map (·.refcount)

/-- Puts a record where a good ticket points. -/
def setRecord (s : Store) (t : Ticket) (r : Record) : Store :=
  { s with slots := s.slots.setIfInBounds t.index ⟨t.generation, some r⟩ }

/-- Empties the slot of a good ticket. -/
def free (s : Store) (t : Ticket) : Store where
  slots := s.slots.setIfInBounds t.index ⟨t.generation + 1, none⟩
  freeList := t.index :: s.freeList
  live := s.live - 1

/-- Puts a record into the last freed slot, or into a new one. -/
def alloc (s : Store) (r : Record) : Ticket × Store :=
  match s.freeList with
  | index :: rest =>
    let generation := (s.slots[index]?.map (·.generation)).getD 0
    (⟨index, generation⟩,
     { slots := s.slots.setIfInBounds index ⟨generation, some r⟩, freeList := rest,
       live := s.live + 1 })
  | [] =>
    (⟨s.slots.size, 0⟩, { s with slots := s.slots.push ⟨0, some r⟩, live := s.live + 1 })

/-- The good tickets, in slot order. -/
def tickets (s : Store) : List Ticket :=
  s.slots.toList.zipIdx.filterMap fun (slot, index) =>
    slot.record.map fun _ => ⟨index, slot.generation⟩

/-- The nearest scope from `t` outwards that binds a name, looking at no more than `fuel` scopes. -/
def ownerWithin (s : Store) (name : String) : Nat → Ticket → Except Error (Option Ticket)
  | 0, t => .error (.internal (.endlessChain t))
  | fuel + 1, t =>
    match s.record? t with
    | none => .error (.internal (.unknownTicket t))
    | some r =>
      if r.bindings.contains name then .ok (some t)
      else
        match r.parent with
        | some parent => ownerWithin s name fuel parent
        | none => .ok none

/-- The nearest scope that binds a name. A chain of scopes is no longer than there are slots, and a
bad ticket takes one look to refuse. -/
def ownerOf (s : Store) (t : Ticket) (name : String) : Except Error (Option Ticket) :=
  s.ownerWithin name (s.slots.size + 1) t

/-- The sum of a weight over a list. -/
def sumBy {α : Type} (f : α → Nat) : List α → Nat
  | [] => 0
  | a :: l => f a + sumBy f l

/-- The sum of all counts. -/
def total (s : Store) : Nat :=
  sumBy (fun slot => (slot.record.map (·.refcount)).getD 0) s.slots.toList

theorem sumBy_set {α : Type} (f : α → Nat) (l : List α) (i : Nat) (h : i < l.length) (a : α) :
    sumBy f (l.set i a) + f l[i] = sumBy f l + f a := by
  induction l generalizing i with
  | nil => simp at h
  | cons b l ih =>
    cases i with
    | zero => simp only [List.set_cons_zero, sumBy, List.getElem_cons_zero]; omega
    | succ i =>
      have := ih i (by simpa using h)
      simp only [List.set_cons_succ, sumBy, List.getElem_cons_succ]
      omega

theorem record?_eq_some {s : Store} {t : Ticket} {r : Record} (h : s.record? t = some r) :
    ∃ hi : t.index < s.slots.size, s.slots[t.index] = ⟨t.generation, some r⟩ := by
  unfold record? at h
  split at h
  · next slot hs =>
    obtain ⟨hi, hslot⟩ := Array.getElem?_eq_some_iff.mp hs
    split at h
    · next hg =>
      refine ⟨hi, ?_⟩
      rw [hslot]
      cases slot
      simp_all
    · simp at h
  · simp at h

/-- Changing the slot of a good ticket changes the total by what the counts differ. -/
theorem total_setSlot {s s' : Store} {t : Ticket} {r : Record} {slot : Slot}
    (h : s.record? t = some r) (hs : s'.slots = s.slots.setIfInBounds t.index slot) :
    s'.total + r.refcount = s.total + (slot.record.map (·.refcount)).getD 0 := by
  obtain ⟨hi, hget⟩ := record?_eq_some h
  have hl : t.index < s.slots.toList.length := by simpa using hi
  have := sumBy_set (fun slot : Slot => (slot.record.map (·.refcount)).getD 0) s.slots.toList
    t.index hl slot
  have hget' : s.slots.toList[t.index] = ⟨t.generation, some r⟩ := by simpa using hget
  rw [hget'] at this
  unfold total
  rw [hs, Array.toList_setIfInBounds]
  simpa using this

end Store

end LiveLisp
