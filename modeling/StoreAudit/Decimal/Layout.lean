import StoreAudit.Decimal.Shortest

/-! How a shortest decimal is written. -/
namespace StoreAudit.Decimal

/-- Decimals whose leading digit stands at a power of ten from `lowest` up to, and without,
`beyond` are written positionally, all others with an exponent of at least `exponentDigits`
digits. -/
structure Layout where
  lowest : Int
  beyond : Int
  exponentDigits : Nat
  tie : Tie
  deriving DecidableEq, Repr

/-- Digits with a point, at least one digit on either side of it. -/
def positional (digits : List Char) (exponent : Int) : List Char :=
  if 0 ≤ exponent then digits ++ List.replicate exponent.toNat '0' ++ ['.', '0']
  else
    let places := (-exponent).toNat
    let padded := List.replicate (places + 1 - digits.length) '0' ++ digits
    padded.take (padded.length - places) ++ '.' :: padded.drop (padded.length - places)

/-- One digit, a point if more follow, and the signed exponent of the first. -/
def scientific (width : Nat) (digits : List Char) (exponent : Int) : List Char :=
  let leading := exponent + digits.length - 1
  let power := Nat.toDigits 10 leading.natAbs
  (match digits with
    | d :: e :: rest => d :: '.' :: e :: rest
    | short => short) ++
    'e' :: (if leading < 0 then '-' else '+') :: List.replicate (width - power.length) '0' ++ power

/-- The text of a finite magnitude. -/
def Layout.magnitude (l : Layout) (significand : Nat) (exponent : Int) : String :=
  if significand = 0 then "0.0"
  else
    let d := shortest l.tie significand exponent
    let digits := Nat.toDigits 10 d.coefficient
    let leading := d.exponent + digits.length - 1
    String.ofList <|
      if l.lowest ≤ leading ∧ leading < l.beyond then positional digits d.exponent
      else scientific l.exponentDigits digits d.exponent

/-- The text of a double. A zero keeps its sign, NaN has none. -/
def Layout.render (l : Layout) (x : Float) : String :=
  match Binary.ofFloat x with
  | .nan => "nan"
  | .infinite negative => if negative then "-inf" else "inf"
  | .finite negative significand exponent =>
    (if negative then "-" else "") ++ l.magnitude significand exponent

/-- Printed figures: positional from 0.0001 up to 10^16, exponents of two digits, and of two
equally near decimals the larger. -/
def figure : Layout where
  lowest := -4
  beyond := 16
  exponentDigits := 2
  tie := .up

end StoreAudit.Decimal
