/-
  Sets of characters given by their boundaries: a character is a member iff an odd number of the
  boundaries is at or below it. The tables of the Unicode properties are such sets.
-/
namespace LiveLisp.Text

/-- The members are the half-open ranges between the first and second, third and fourth, ...
boundary. -/
structure CharSet where
  bounds : List Nat

def CharSet.contains (set : CharSet) (c : Char) : Bool :=
  (set.bounds.takeWhile (· ≤ c.toNat)).length % 2 == 1

end LiveLisp.Text
