/-! Reading decimals as the nearest doubles. -/
namespace StoreAudit.Decimal

/-- The double nearest to `digits * 10 ^ exponent`. Far outside the range of doubles the result
is infinite or zero whatever the digits are. -/
def toFloat (digits : Nat) (exponent : Int) : Float :=
  if digits = 0 then 0
  else
    let leading := exponent + ((Nat.toDigits 10 digits).length : Int)
    if 400 < leading then 1.0 / 0.0
    else if leading < -400 then 0
    else Float.ofScientific digits (decide (exponent < 0)) exponent.natAbs

/-- The number that decimal digits denote. -/
def natOf (digits : List Char) : Nat := Nat.ofDigitChars 10 digits 0

/-- A sign, of which `+` may be left out, and what follows it. -/
def splitSign : List Char → Bool × List Char
  | '-' :: rest => (true, rest)
  | '+' :: rest => (false, rest)
  | cs => (false, cs)

/-- The exponent at the end of a decimal: nothing, or `e` and a signed number. -/
def exponent? : List Char → Option Int
  | [] => some 0
  | c :: rest =>
    let (negative, digits) := splitSign rest
    if (c = 'e' ∨ c = 'E') ∧ digits ≠ [] ∧ digits.all Char.isDigit then
      some (if negative then -natOf digits else natOf digits)
    else none

/-- Digits with at most one point among or beside them, and an exponent. -/
def magnitude? (cs : List Char) : Option Float := do
  let whole := cs.takeWhile Char.isDigit
  let rest := cs.dropWhile Char.isDigit
  let (fraction, rest) := match rest with
    | '.' :: r => (r.takeWhile Char.isDigit, r.dropWhile Char.isDigit)
    | r => ([], r)
  let exponent ← exponent? rest
  if whole.isEmpty ∧ fraction.isEmpty then none
  else some (toFloat (natOf (whole ++ fraction)) (exponent - fraction.length))

/-- A signed decimal, or the name of an infinity or of NaN in letters of any case. -/
def read? (text : String) : Option Float := do
  let (negative, rest) := splitSign text.toList
  let x ← match String.ofList (rest.map Char.toLower) with
    | "inf" | "infinity" => some (1.0 / 0.0)
    | "nan" => some (0.0 / 0.0)
    | _ => magnitude? rest
  return if negative then -x else x

end StoreAudit.Decimal
