import StoreAudit.Random.ChaCha
import StoreAudit.Words

/-! Random choices, from any source and from a stream of random words. -/
namespace StoreAudit.Random

/-- How likely a choice is: certain, or so many times out of 2^64. -/
inductive Chance where
  | certain
  | outOf64 (times : Nat)
  deriving DecidableEq, Repr, Inhabited

/-- The chance that a ratio means. What is no finite number means never, and what lies outside of
0 to 1 means the nearer end. -/
def Chance.ofRatio (ratio : Float) : Chance :=
  if !ratio.isFinite || ratio ≤ 0 then .outOf64 0
  else if 1 ≤ ratio then .certain
  else .outOf64 (ratio * 18446744073709551616).toUInt64.toNat

/-- A source of random choices with the state `σ`: a number below a bound, an index below a
length, and whether something of a given chance happens. -/
structure Draws (σ : Type) where
  below : Nat → σ → Nat × σ
  index : Nat → σ → Nat × σ
  happens : Chance → σ → Bool × σ

/-- What is drawn lies in the range that was asked for. -/
structure Draws.InRange {σ : Type} (d : Draws σ) : Prop where
  below_lt : ∀ n s, 0 < n → (d.below n s).1 < n
  index_lt : ∀ n s, 0 < n → (d.index n s).1 < n

/-- A number below `n` from words below `bound`: the upper part of the product with a first word,
increased if the lower part and the upper part of the product with a second word carry over. The
second word is drawn only if the lower part makes that possible. -/
def scaled {σ : Type} (word : σ → Nat × σ) (bound n : Nat) (s : σ) : Nat × σ :=
  let (w, s) := word s
  let product := w * n
  let low := product % bound
  if bound - n < low then
    let (w, s) := word s
    (product / bound + (low + w * n / bound) / bound, s)
  else (product / bound, s)

/-- The choices that a stream of random words makes. -/
def Stream.draws : Draws Stream where
  below n s := scaled (fun s => let (w, s) := Stream.next64 s; (w.toNat, s)) wordLimit n s
  index n s := scaled (fun s => let (w, s) := Stream.next32 s; (w.toNat, s)) 4294967296 n s
  happens
    | .certain, s => (true, s)
    | .outOf64 times, s => let (w, s) := s.next64; (decide (w.toNat < times), s)

end StoreAudit.Random
