/-
  Decimal text to floating-point number, rounded to nearest. `read?` takes the whole written form
  (sign, point, exponent, `inf`, `nan`); `Literal` is the narrower form that programs may write.
-/
namespace LiveLisp.Decimal

def isDigit (c : Char) : Bool :=
  '0' ≤ c && c ≤ '9'

def natOfDigits (cs : List Char) : Nat :=
  cs.foldl (fun n c => n * 10 + (c.toNat - '0'.toNat)) 0

/-- The number `whole.fraction · 10 ^ exponent`. -/
def ofParts (negative : Bool) (whole fraction : List Char) (exponent : Int) : Float :=
  let digits := natOfDigits (whole ++ fraction)
  let power := exponent - fraction.length
  -- beyond these powers every non-zero number is infinite or zero
  let power := max (-(whole.length + fraction.length + 400 : Int)) (min power 400)
  let magnitude :=
    if digits == 0 then 0.0
    else if 0 ≤ power then Float.ofScientific digits false power.toNat
    else Float.ofScientific digits true (-power).toNat
  if negative then -magnitude else magnitude

/-- Splits at the first point: what stands before it, and what stands after it if there is one. -/
def splitPoint (cs : List Char) : List Char × Option (List Char) :=
  match cs.dropWhile (· != '.') with
  | [] => (cs, none)
  | _ :: rest => (cs.takeWhile (· != '.'), some rest)

/-- An optional `-`, then digits with at most one point among, before or after them. -/
def literal? (cs : List Char) : Option Float :=
  let (negative, unsigned) := match cs with
    | '-' :: rest => (true, rest)
    | _ => (false, cs)
  let (whole, fraction?) := splitPoint unsigned
  let fraction := fraction?.getD []
  if (whole ++ fraction).all isDigit && !(whole ++ fraction).isEmpty then
    some (ofParts negative whole fraction 0)
  else none

def lower (cs : List Char) : List Char :=
  cs.map Char.toLower

/-- An exponent: a mark, an optional sign and at least one digit. -/
def exponent? : List Char → Option Int
  | [] => some 0
  | mark :: rest =>
    if mark != 'e' && mark != 'E' then none
    else
      let (negative, digits) := match rest with
        | '-' :: ds => (true, ds)
        | '+' :: ds => (false, ds)
        | ds => (false, ds)
      if digits.isEmpty || !digits.all isDigit then none
      else some (if negative then -(natOfDigits digits : Int) else natOfDigits digits)

/-- Any written number: sign, digits and point, exponent; or a name of infinity or of no number. -/
def read? (text : String) : Option Float :=
  let (negative, cs) := match text.toList with
    | '-' :: rest => (true, rest)
    | '+' :: rest => (false, rest)
    | cs => (false, cs)
  let name := String.ofList (lower cs)
  if name == "inf" || name == "infinity" then
    some (if negative then -(1.0 / 0.0) else 1.0 / 0.0)
  else if name == "nan" then some (0.0 / 0.0)
  else
    let whole := cs.takeWhile isDigit
    let (fraction, rest) := match cs.dropWhile isDigit with
      | '.' :: after => (after.takeWhile isDigit, after.dropWhile isDigit)
      | rest => ([], rest)
    if (whole ++ fraction).isEmpty then none
    else (exponent? rest).map (ofParts negative whole fraction)

end LiveLisp.Decimal
