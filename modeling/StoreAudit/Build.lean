import StoreAudit.Words

/-! Arithmetic on words, whose exact results may be too large for a word. -/
namespace StoreAudit

/-- What a build of the program does with a result that no word holds: it goes on with the low word
of it, or it stops. -/
inductive Build where
  | wrapping
  | checked
  deriving DecidableEq, Repr, Inhabited

/-- What a word holds of a result. -/
def lowWord (n : Nat) : Nat := n % wordLimit

/-- The sum of words, each partial sum a word again. -/
def lowSum (ns : List Nat) : Nat := ns.foldl (fun m n => lowWord (m + n)) 0

namespace Build

def Stops (b : Build) (n : Nat) : Prop := b = .checked ∧ wordLimit ≤ n

instance (b : Build) (n : Nat) : Decidable (b.Stops n) := inferInstanceAs (Decidable (_ ∧ _))

/-- The word that stands for a result, unless the build stops at it. -/
def word? (b : Build) (n : Nat) : Option Nat := if b.Stops n then none else some (lowWord n)

def sum? (b : Build) (ns : List Nat) : Option Nat := ns.foldlM (fun m n => b.word? (m + n)) 0

end Build
end StoreAudit
