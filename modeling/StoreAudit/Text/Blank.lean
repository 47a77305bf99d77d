/-! Characters with the Unicode property White_Space, and text trimmed of them. -/
namespace StoreAudit.Text

/-- The 25 characters of the property White_Space. -/
def isBlank (c : Char) : Bool :=
  (0x09 ≤ c.toNat && c.toNat ≤ 0x0D) || (0x2000 ≤ c.toNat && c.toNat ≤ 0x200A) ||
    [0x20, 0x85, 0xA0, 0x1680, 0x2028, 0x2029, 0x202F, 0x205F, 0x3000].contains c.toNat

/-- Only blanks, or nothing at all. -/
def allBlank (cs : List Char) : Bool := cs.all isBlank

/-- `cs` without its last members that satisfy `p`. -/
def dropWhileEnd (p : Char → Bool) (cs : List Char) : List Char :=
  (cs.reverse.dropWhile p).reverse

def trimEnd (cs : List Char) : List Char := dropWhileEnd isBlank cs

end StoreAudit.Text
