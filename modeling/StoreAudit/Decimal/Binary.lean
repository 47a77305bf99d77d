/-! Doubles taken apart into sign, significand and binary exponent. -/
namespace StoreAudit.Decimal

/-- What a double is. A finite one has the magnitude `significand * 2 ^ exponent`. -/
inductive Binary where
  | nan
  | infinite (negative : Bool)
  | finite (negative : Bool) (significand : Nat) (exponent : Int)
  deriving DecidableEq, Repr

/-- The weight of the unwritten 1 before the written part of a significand: 2^52. -/
def leadingBit : Nat := 4503599627370496

/-- The double with the bit pattern `bits`: a sign bit, eleven bits of exponent, and 52 bits of
significand, before which an unwritten 1 stands unless the exponent field is zero. -/
def Binary.ofBits (bits : UInt64) : Binary :=
  let n := bits.toNat
  let negative := n.testBit 63
  let biased : Nat := n / leadingBit % 2048
  let fraction := n % leadingBit
  if biased = 2047 then if fraction = 0 then .infinite negative else .nan
  else if biased = 0 then .finite negative fraction (-1074)
  else .finite negative (leadingBit + fraction) ((biased : Int) - 1075)

def Binary.ofFloat (x : Float) : Binary := .ofBits x.toBits

end StoreAudit.Decimal
