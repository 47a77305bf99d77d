import StoreAudit.Random.Draws

/-! A stream of random words draws numbers in range, and what has no chance never happens. -/
namespace StoreAudit.Random

/-- A ratio that is no finite number or not positive means never. -/
theorem Chance.ofRatio_eq_never {ratio : Float} (h : ratio.isFinite = false ∨ ratio ≤ 0) :
    Chance.ofRatio ratio = .outOf64 0 := by
  have hcond : (!ratio.isFinite || decide (ratio ≤ 0)) = true := by
    rcases h with h | h <;> simp [h]
  rw [ofRatio, if_pos hcond]

/-- Both products are at most `n` short of `bound * n`, so that the carry never completes `n`. -/
theorem scaled_lt {σ : Type} {word : σ → Nat × σ} {bound : Nat} (hword : ∀ s, (word s).1 < bound)
    {n : Nat} (hn : 0 < n) (s : σ) : (scaled word bound n s).1 < n := by
  have hproduct (s : σ) : (word s).1 * n + n ≤ bound * n := by
    rw [← Nat.succ_mul]
    exact Nat.mul_le_mul_right n (hword s)
  have hupper (s : σ) : (word s).1 * n / bound < n := by
    have hp := hproduct s
    exact Nat.div_lt_of_lt_mul (by omega)
  simp only [scaled]
  split
  case isTrue =>
    have hbound : 0 < bound := Nat.zero_lt_of_lt (hword s)
    have hp := hproduct s
    have hu := hupper (word s).2
    have hsplit := Nat.mod_add_div ((word s).1 * n) bound
    rw [Nat.add_comm, ← Nat.add_mul_div_left _ _ hbound]
    exact Nat.div_lt_of_lt_mul (by omega)
  case isFalse => exact hupper s

theorem Stream.draws_inRange : Stream.draws.InRange where
  below_lt _ s hn := scaled_lt (fun _ => UInt64.toNat_lt _) hn s
  index_lt _ s hn := scaled_lt (fun _ => UInt32.toNat_lt _) hn s

theorem Stream.draws_never (s : Stream) : (Stream.draws.happens (.outOf64 0) s).1 = false := by
  simp [Stream.draws]

end StoreAudit.Random
