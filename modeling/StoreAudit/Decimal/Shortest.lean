import StoreAudit.Decimal.Binary

/-! The shortest decimal that reads back as a given double, and of the shortest the nearest. -/
namespace StoreAudit.Decimal

/-- The positive number `coefficient * 10 ^ exponent`. -/
structure Scaled where
  coefficient : Nat
  exponent : Int
  deriving DecidableEq, Repr

/-- Which of two equally near neighbours is taken. -/
inductive Tie where
  | up
  | even
  deriving DecidableEq, Repr

/-- How many decimal digits `n` has. -/
def digitCount (n : Nat) : Nat := (Nat.toDigits 10 n).length

/-- The exponent of the highest power of ten that is at most `a / b`. -/
def magnitude (a b : Nat) : Int :=
  if b ≤ a then (digitCount (a / b) : Int) - 1
  else -(digitCount ((b + a - 1) / a - 1) : Int)

/-- The interval of the numbers that round to `significand * 2 ^ exponent`, in quarters of its
last place. It is narrower below a power of two, and has its ends just when the significand is
even. -/
structure Interval where
  low : Nat
  value : Nat
  high : Nat
  closed : Bool
  deriving DecidableEq, Repr

def Interval.around (significand : Nat) (exponent : Int) : Interval where
  low := 4 * significand - if significand = leadingBit ∧ exponent ≠ -1074 then 1 else 2
  value := 4 * significand
  high := 4 * significand + 2
  closed := significand % 2 == 0

/-- Whether `c * b / a` lies in the interval. -/
def Interval.has (i : Interval) (a b c : Nat) : Bool :=
  if i.closed then i.low * a ≤ c * b && c * b ≤ i.high * a
  else i.low * a < c * b && c * b < i.high * a

/-- The nearer of `c` and `c + 1` to `v / b`, where `c ≤ v / b < c + 1`. -/
def nearer (tie : Tie) (v b c : Nat) : Nat :=
  let twice := 2 * (v - c * b)
  if twice < b then c
  else if b < twice then c + 1
  else match tie with
    | .up => c + 1
    | .even => c + c % 2

/-- The multiple of `10 ^ k` that lies in the interval, the nearer one if two neighbours of the
value do. The unit of the interval is `2 ^ exponent`. -/
def onGrid? (tie : Tie) (i : Interval) (exponent k : Int) : Option Nat :=
  let a := Nat.pow 2 exponent.toNat * Nat.pow 10 (-k).toNat
  let b := Nat.pow 2 (-exponent).toNat * Nat.pow 10 k.toNat
  let c := i.value * a / b
  match i.has a b c, i.has a b (c + 1) with
  | true, true => some (nearer tie (i.value * a) b c)
  | true, false => some c
  | false, true => some (c + 1)
  | false, false => none

/-- `coefficient * 10 ^ exponent` without zeros at the end of the coefficient. -/
def strip (coefficient : Nat) (exponent : Int) : Scaled :=
  if h : 0 < coefficient ∧ coefficient % 10 = 0 then strip (coefficient / 10) (exponent + 1)
  else ⟨coefficient, exponent⟩
termination_by coefficient
decreasing_by omega

/-- The first hit on the grids of `n + 1`, `n + 2`, … 17 digits. -/
def search (tie : Tie) (i : Interval) (exponent top : Int) : Nat → Scaled
  | 0 => ⟨0, 0⟩
  | left + 1 =>
    let k := top - (16 - left : Int)
    match onGrid? tie i exponent k with
    | some c => strip c k
    | none => search tie i exponent top left

/-- The shortest decimal for `significand * 2 ^ exponent`, which must be positive. Seventeen digits
always suffice. -/
def shortest (tie : Tie) (significand : Nat) (exponent : Int) : Scaled :=
  let i := Interval.around significand exponent
  let unit := exponent - 2
  let top := magnitude (i.value * Nat.pow 2 unit.toNat) (Nat.pow 2 (-unit).toNat)
  search tie i unit top 17

end StoreAudit.Decimal
