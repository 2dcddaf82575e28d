/-
  Remainder of a truncated division, without rounding: the result has the sign of the dividend and
  is smaller in magnitude than the divisor.
-/
import LiveLisp.Decimal.Binary

namespace LiveLisp.Decimal

/-- Both mantissas are brought to the smaller of the two exponents; the divisor is not zero. -/
def Binary.rem (a b : Binary) : Binary :=
  let e := min a.exponent b.exponent
  let dividend := a.mantissa <<< (a.exponent - e).toNat
  let divisor := b.mantissa <<< (b.exponent - e).toNat
  ⟨a.negative, dividend % divisor, e⟩

def rem (x y : Float) : Float :=
  match Binary.ofFloat? x, Binary.ofFloat? y with
  | some a, some b => if b.mantissa == 0 then 0.0 / 0.0 else (a.rem b).toFloat
  | some _, none => if y.isNaN then y else x
  | none, _ => 0.0 / 0.0

end LiveLisp.Decimal
