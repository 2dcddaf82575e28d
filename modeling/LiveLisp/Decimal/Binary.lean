/-
  Finite binary numbers, read off the bits of a floating-point number: a sign, a natural mantissa
  and a power of two. Printing, reading and remainders are exact arithmetic on these.
-/
namespace LiveLisp.Decimal

/-- The number `± mantissa · 2 ^ exponent`. -/
structure Binary where
  negative : Bool
  mantissa : Nat
  exponent : Int
deriving DecidableEq

def isNegative (x : Float) : Bool :=
  x.toBits.toNat >>> 63 == 1

/-- The number that the bits of `x` stand for, unless `x` is infinite or not a number. -/
def Binary.ofFloat? (x : Float) : Option Binary :=
  let bits := x.toBits.toNat
  let power : Nat := (bits >>> 52) % (1 <<< 11)
  let fraction := bits % (1 <<< 52)
  if power == (1 <<< 11) - 1 then none
  else if power == 0 then some ⟨isNegative x, fraction, -1074⟩
  else some ⟨isNegative x, (1 <<< 52) + fraction, (power : Int) - 1075⟩

/-- The floating-point number with this value, for a mantissa below `2 ^ 53` and a value in range.
-/
def Binary.toFloat (b : Binary) : Float :=
  let magnitude := (Float.ofNat b.mantissa).scaleB b.exponent
  if b.negative then -magnitude else magnitude

end LiveLisp.Decimal
