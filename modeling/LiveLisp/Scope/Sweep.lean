/-
  Reachability and collection. Counts alone never free a closure that is bound in its own scope; a
  sweep from the roots finds such records.
-/
import LiveLisp.Scope.Release

namespace LiveLisp

namespace Store

/-- How many slots are not marked. -/
def unmarked (marks : Array Bool) : Nat :=
  marks.toList.count false

theorem count_false_set (l : List Bool) (i : Nat) (h : l[i]? = some false) :
    (l.set i true).count false + 1 = l.count false := by
  induction l generalizing i with
  | nil => simp at h
  | cons b l ih =>
    cases i with
    | zero =>
      simp only [List.getElem?_cons_zero, Option.some.injEq] at h
      subst h
      simp
    | succ i =>
      have := ih i (by simpa using h)
      simp only [List.set_cons_succ, List.count_cons]
      omega

theorem unmarked_set {marks : Array Bool} {i : Nat} (h : marks[i]? = some false) :
    unmarked (marks.setIfInBounds i true) + 1 = unmarked marks := by
  unfold unmarked
  rw [Array.toList_setIfInBounds]
  exact count_false_set _ _ (by simpa using h)

/-- Marks the slots of every record that can be reached from the pending tickets. -/
def mark (s : Store) (marks : Array Bool) (pending : List Ticket) : Except Error (Array Bool) :=
  match pending with
  | [] => .ok marks
  | t :: rest =>
    match s.record? t with
    | none => .error (.internal (.unknownTicket t))
    | some r =>
      match _h : marks[t.index]? with
      | some false => mark s (marks.setIfInBounds t.index true) (r.references.reverse ++ rest)
      | _ => mark s marks rest
termination_by (unmarked marks, pending.length)
decreasing_by
  · have := unmarked_set _h
    exact Prod.Lex.left _ _ (by omega)
  · exact Prod.Lex.right _ (by simp)

/-- The marks of everything that the roots reach; the last root is looked at first. -/
def marksFrom (s : Store) (roots : List Ticket) : Except Error (Array Bool) :=
  s.mark (Array.replicate s.slots.size false) roots.reverse

def isMarked (marks : Array Bool) (t : Ticket) : Bool :=
  marks[t.index]?.getD false

/-- Every ticket that the roots reach, through parents and bound values, in slot order. -/
def reachable (s : Store) (roots : List Ticket) : Except Error (List Ticket) := do
  let marks ← s.marksFrom roots
  return s.tickets.filter (isMarked marks)

/-- Removes records without touching any count; answers them in order. -/
def removeAll (s : Store) : List Ticket → List Record × Store
  | [] => ([], s)
  | t :: rest =>
    match s.record? t with
    | some r =>
      let (records, s) := removeAll (s.free t) rest
      (r :: records, s)
    | none => removeAll s rest

/-- Drops a count of a record that still exists. -/
def dropSurvivor (t : Ticket) : StoreM Unit := do
  if (← get).contains t then decref t

/-- Removes every record that the roots do not reach, and answers how many. What a removed record
kept alive among the others loses a count. -/
def collect (roots : List Ticket) : StoreM Nat := do
  let s ← get
  match s.marksFrom roots with
  | .error e => throw e
  | .ok marks =>
    let (records, s) := s.removeAll (s.tickets.filter fun t => !isMarked marks t)
    set s
    (records.flatMap Record.references).forM dropSurvivor
    return records.length

end Store

/-- A record in a dump: its count, its parent and the names it binds, sorted. -/
def Record.describe (r : Record) : String :=
  let parent := match r.parent with
    | some t => "Some(" ++ t.render ++ ")"
    | none => "None"
  let names := r.bindings.keys.mergeSort fun a b => decide (a ≤ b)
  s!"({r.refcount}, {parent}, {Text.quoteAll names})"

/-- All records, in slot order. -/
def Store.describe (s : Store) : String :=
  let row (t : Ticket) : Option String :=
    (s.record? t).map fun r => t.render ++ ": " ++ r.describe
  "\x7b" ++ String.intercalate ", " (s.tickets.filterMap row) ++ "\x7d"

end LiveLisp
