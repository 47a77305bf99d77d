import Mathlib.Algebra.Ring.Nat
import Mathlib.Data.List.Induction
import StoreAudit.Build

/-! A build stops somewhere in a sum exactly if it stops at the whole of it. Else it has the low
word of the whole. -/
namespace StoreAudit
variable {b : Build} {m n : Nat} {ns : List Nat}

theorem lowWord_of_lt (h : n < wordLimit) : lowWord n = n := Nat.mod_eq_of_lt h

@[simp] theorem lowWord_zero : lowWord 0 = 0 := rfl

@[simp] theorem lowWord_lowWord_add (m n : Nat) : lowWord (lowWord m + n) = lowWord (m + n) :=
  Nat.mod_add_mod ..

theorem lowSum_concat (ns : List Nat) (n : Nat) : lowSum (ns ++ [n]) = lowWord (lowSum ns + n) :=
  List.foldl_append

theorem lowSum_eq (ns : List Nat) : lowSum ns = lowWord ns.sum := by
  induction ns using List.reverseRecOn with
  | nil => rfl
  | append_singleton ns n ih =>
    rw [lowSum_concat, ih, lowWord_lowWord_add, List.sum_append, List.sum_singleton]

namespace Build

theorem not_stops_iff : ¬ b.Stops n ↔ b = .wrapping ∨ n < wordLimit := by
  cases b <;> simp [Stops]

theorem not_stops_of_lt (h : n < wordLimit) : ¬ b.Stops n := not_stops_iff.mpr (.inr h)

theorem Stops.mono (h : b.Stops m) (hle : m ≤ n) : b.Stops n := ⟨h.1, Nat.le_trans h.2 hle⟩

/-- A build that has not stopped at `m` goes on as if it had `m` itself. -/
theorem word?_lowWord_add (h : ¬ b.Stops m) (n : Nat) :
    b.word? (lowWord m + n) = b.word? (m + n) := by
  rcases not_stops_iff.mp h with rfl | hlt
  · simp [word?, Stops]
  · rw [lowWord_of_lt hlt]

theorem sum?_eq (b : Build) (ns : List Nat) :
    b.sum? ns = if b.Stops ns.sum then none else some (lowSum ns) := by
  induction ns using List.reverseRecOn with
  | nil => rw [if_neg (not_stops_of_lt (by decide))]; rfl
  | append_singleton ns n ih =>
    have hsum : (ns ++ [n]).sum = ns.sum + n := by rw [List.sum_append, List.sum_singleton]
    have hstep : b.sum? (ns ++ [n]) = (b.sum? ns).bind fun m => b.word? (m + n) := by
      rw [sum?, List.foldlM_append]
      simp [sum?]
    rw [hstep, ih, hsum]
    by_cases hstops : b.Stops ns.sum
    · have hwhole : b.Stops (ns.sum + n) := hstops.mono (Nat.le_add_right ..)
      rw [if_pos hstops, if_pos hwhole, Option.bind_none]
    · rw [if_neg hstops, Option.bind_some, lowSum_eq, word?_lowWord_add hstops, word?, lowSum_eq,
        hsum]

end Build
end StoreAudit
