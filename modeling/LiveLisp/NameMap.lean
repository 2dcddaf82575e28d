/-
  Finite maps from names, as lists of pairs in the order in which the names were first put in.
-/
namespace LiveLisp

abbrev NameMap (α : Type) := List (String × α)

namespace NameMap

variable {α : Type}

def get? (name : String) : NameMap α → Option α
  | [] => none
  | (other, a) :: rest => if other = name then some a else get? name rest

/-- Replaces what a name maps to, or adds the name at the end. -/
def put (name : String) (a : α) : NameMap α → NameMap α
  | [] => [(name, a)]
  | (other, b) :: rest => if other = name then (name, a) :: rest else (other, b) :: put name a rest

def keys (m : NameMap α) : List String :=
  m.map (·.1)

def values (m : NameMap α) : List α :=
  m.map (·.2)

def contains (m : NameMap α) (name : String) : Bool :=
  (get? name m).isSome

/-- Puts pairs in one after the other, so that of two with one name the later counts. -/
def putAll (m : NameMap α) (pairs : List (String × α)) : NameMap α :=
  pairs.foldl (fun m pair => put pair.1 pair.2 m) m

theorem get?_put (name other : String) (a : α) (m : NameMap α) :
    get? other (put name a m) = if name = other then some a else get? other m := by
  induction m with
  | nil => simp [put, get?]
  | cons pair rest ih =>
    obtain ⟨key, b⟩ := pair
    by_cases h : key = name
    · subst h
      by_cases ho : key = other <;> simp [put, get?, ho]
    · by_cases hk : key = other
      · subst hk
        simp [put, get?, h, Ne.symm h]
      · simp [put, get?, h, hk, ih]

end NameMap

end LiveLisp
