import StoreAudit.Decimal.Binary

/-! Decimals with a fixed number of places. -/
namespace StoreAudit.Decimal

/-- `a / b` rounded to the nearest number, a half to the even one. -/
def roundHalfEven (a b : Nat) : Nat :=
  let c := a / b
  let twice := 2 * (a % b)
  if twice < b then c else if b < twice then c + 1 else c + c % 2

/-- The exact value of the double, rounded to `places` places. -/
def fixed (places : Nat) (x : Float) : String :=
  match Binary.ofFloat x with
  | .nan => "NaN"
  | .infinite negative => if negative then "-inf" else "inf"
  | .finite negative significand exponent =>
    let scaled := roundHalfEven (significand * Nat.pow 2 exponent.toNat * Nat.pow 10 places)
      (Nat.pow 2 (-exponent).toNat)
    let digits := Nat.toDigits 10 scaled
    let padded := List.replicate (places + 1 - digits.length) '0' ++ digits
    let whole := padded.length - places
    (if negative then "-" else "") ++ String.ofList (padded.take whole) ++
      (if places = 0 then "" else "." ++ String.ofList (padded.drop whole))

end StoreAudit.Decimal
