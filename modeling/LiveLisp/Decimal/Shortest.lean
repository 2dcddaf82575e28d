/-
  Decimal text of floating-point numbers: the fewest digits that read back as the same number, of
  two such the nearer, of two equally near the larger; written positionally, never with an exponent.

  `Shortest.ofBinary` looks for the coarsest power of ten that has a multiple among the reals which
  round to the number. It works in quarters of the last binary place, so that every bound is a
  natural.
-/
import LiveLisp.Decimal.Binary

namespace LiveLisp.Decimal

/-- The decimal `digits · 10 ^ exponent`. -/
structure Shortest where
  digits : Nat
  exponent : Int
deriving DecidableEq, Repr

namespace Shortest

/-- The reals that round to a number, in quarters of its last binary place. -/
structure Rounding where
  low : Nat
  high : Nat
  closed : Bool

/-- Just above a power of two the spacing below is half of the spacing above. -/
def Rounding.ofBinary (b : Binary) : Rounding where
  low := if b.mantissa == 1 <<< 52 && b.exponent != -1074 then 4 * b.mantissa - 1
    else 4 * b.mantissa - 2
  high := 4 * b.mantissa + 2
  closed := b.mantissa % 2 == 0

/-- The multiple of `10 ^ k` that rounds to `b`, if there is one; of two the nearer one. -/
def onGrid? (b : Binary) (k : Int) : Option Shortest :=
  let r := Rounding.ofBinary b
  let up := Nat.pow 10 (-k).toNat <<< b.exponent.toNat
  let unit := 4 * (Nat.pow 10 k.toNat <<< (-b.exponent).toNat)
  let value := 4 * b.mantissa * up
  let below := value / unit
  let above := below + 1
  let fits (n : Nat) : Bool :=
    if r.closed then r.low * up ≤ n * unit && n * unit ≤ r.high * up
    else r.low * up < n * unit && n * unit < r.high * up
  match fits below, fits above with
  | true, true => some ⟨if value - below * unit < above * unit - value then below else above, k⟩
  | true, false => some ⟨below, k⟩
  | false, true => some ⟨above, k⟩
  | false, false => none

/-- The first hit among the grids `10 ^ k`, `10 ^ (k - 1)`, ... -/
def search (b : Binary) : Nat → Int → Option Shortest
  | 0, _ => none
  | grids + 1, k => (onGrid? b k).or (search b grids (k - 1))

/-- A power of ten above the number, from its length in bits. -/
def startGrid (b : Binary) : Int :=
  ((b.mantissa.log2 : Int) + 1 + b.exponent) * 30103 / 100000 + 1

/-- Seventeen digits always suffice, and the start is at most two grids too coarse. -/
def ofBinary (b : Binary) : Shortest :=
  (search b 22 (startGrid b)).getD ⟨0, 0⟩

/-- The digits with the point in its place and no exponent. -/
def positional (d : Shortest) : String :=
  let digits := toString d.digits
  if 0 ≤ d.exponent then digits ++ String.ofList (List.replicate d.exponent.toNat '0')
  else
    let places := (-d.exponent).toNat
    let padded := List.replicate (places + 1 - digits.length) '0' ++ digits.toList
    let whole := padded.length - places
    String.ofList (padded.take whole) ++ "." ++ String.ofList (padded.drop whole)

end Shortest

/-- The decimal text of a number; the sign of zero shows. -/
def render (x : Float) : String :=
  match Binary.ofFloat? x with
  | none => if x.isNaN then "NaN" else if isNegative x then "-inf" else "inf"
  | some b =>
    let magnitude := if b.mantissa == 0 then "0" else (Shortest.ofBinary b).positional
    if b.negative then "-" ++ magnitude else magnitude

end LiveLisp.Decimal
