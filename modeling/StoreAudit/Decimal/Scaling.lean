import StoreAudit.Decimal.Reader
import StoreAudit.Words

/-! Reading decimals by scaling. As many digits as fit a word become a double, which is then
scaled by a power of ten. Both steps round, so the result can miss the nearest double, and close to
the greatest double it can be out of range where the decimal is not. -/
namespace StoreAudit.Decimal

/-- The number `significand * 10 ^ exponent`. -/
structure Truncated where
  significand : Nat := 0
  exponent : Int := 0
  deriving DecidableEq, Repr

namespace Truncated

/-- The significand with one more digit, if that fits a word. -/
def append? (t : Truncated) (digit : Char) : Option Nat :=
  let n := 10 * t.significand + (digit.toNat - '0'.toNat)
  if n < wordLimit then some n else none

/-- Takes in digits before the point. From the first one on that does not fit, they only count. -/
def addWhole (t : Truncated) : List Char → Truncated
  | [] => t
  | c :: rest =>
    match t.append? c with
    | some n => addWhole { t with significand := n } rest
    | none => { t with exponent := t.exponent + (rest.length + 1 : Nat) }

/-- Takes in digits after the point, up to the first one that does not fit. -/
def addFraction (t : Truncated) : List Char → Truncated
  | [] => t
  | c :: rest =>
    match t.append? c with
    | some n => addFraction ⟨n, t.exponent - 1⟩ rest
    | none => t

end Truncated

/-- The greatest power of ten that is a double. -/
def greatestPower : Nat := 308

def power (k : Nat) : Float := toFloat 1 k

/-- `x * 10 ^ k` for a double of a word, or `none` if that is out of range. A power of ten that is
no double is divided out in two steps, and what is left after these is zero. -/
def scale? (x : Float) (k : Int) : Option Float :=
  if x == 0 then some x
  else if greatestPower < k then none
  else if 0 ≤ k then
    let y := x * power k.toNat
    if y.isFinite then some y else none
  else if -greatestPower ≤ k then some (x / power (-k).toNat)
  else if -(2 * greatestPower) ≤ k then
    some (x / power greatestPower / power (-k - greatestPower).toNat)
  else some 0

/-- The double that the digits before and after the point, and the exponent, amount to. -/
def scaled? (whole fraction : List Char) (exponent : Int) : Option Float :=
  let t := (Truncated.addWhole {} whole).addFraction fraction
  scale? t.significand.toFloat (t.exponent + exponent)

end StoreAudit.Decimal
