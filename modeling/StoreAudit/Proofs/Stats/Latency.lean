import Mathlib.Data.List.Pairwise
import StoreAudit.Proofs.Build
import StoreAudit.Proofs.Sorting
import StoreAudit.Stats.Latency

/-! Percentiles by counting: how many response times may lie below one, and how many have to lie up
to it. A summary says the same of every order of the response times. -/
namespace StoreAudit

/-- Where the members that satisfy `p` come first, they stand at the places below their number. -/
theorem lt_countP_iff {α : Type} {p : α → Bool} {l : List α}
    (hl : l.Pairwise fun a b => p b → p a) (i : Fin l.length) : i < l.countP p ↔ p (l.get i) := by
  induction l with
  | nil => exact i.elim0
  | cons a l ih =>
    obtain ⟨ha, hl⟩ := List.pairwise_cons.mp hl
    by_cases hpa : p a
    · cases i using Fin.cases with
      | zero => simp [hpa]
      | succ i => simpa [hpa] using ih hl i
    · have hnone : ∀ b ∈ a :: l, ¬ p b :=
        List.forall_mem_cons.mpr ⟨hpa, fun b hb hpb => hpa (ha b hb hpb)⟩
      have hi : ¬ p ((a :: l).get i) := hnone _ (List.get_mem ..)
      simp only [List.countP_eq_zero.mpr hnone, hi, Nat.not_lt_zero, Bool.false_eq_true]

section Ascending
variable {l : List Nat} (hl : l.Pairwise (· ≤ ·)) (i : Fin l.length)
include hl

theorem countP_lt_get_le : l.countP (· < l.get i) ≤ i := by
  have hfirst : l.Pairwise fun a b => decide (b < l.get i) → decide (a < l.get i) :=
    hl.imp fun hab hb => decide_eq_true (lt_of_le_of_lt hab (of_decide_eq_true hb))
  have hself := (lt_countP_iff hfirst i).not.mpr (by simp)
  exact not_lt.mp hself

theorem lt_countP_le_get : i < l.countP (· ≤ l.get i) := by
  have hfirst : l.Pairwise fun a b => decide (b ≤ l.get i) → decide (a ≤ l.get i) :=
    hl.imp fun hab hb => decide_eq_true (le_trans hab (of_decide_eq_true hb))
  exact (lt_countP_iff hfirst i).mpr (by simp)

end Ascending

/-- No more than `p` percent of the response times lie below `x`, which is one of them. Those and
one more lie up to it, as far as there are so many. -/
structure IsPercentile (latencies : List Nat) (p x : Nat) : Prop where
  mem : x ∈ latencies
  below : latencies.countP (· < x) ≤ latencies.length * p / 100
  upTo : min latencies.length (latencies.length * p / 100 + 1) ≤ latencies.countP (· ≤ x)

theorem IsPercentile.perm {l l' : List Nat} {p x : Nat} (h : IsPercentile l p x)
    (hperm : l.Perm l') : IsPercentile l' p x := by
  obtain ⟨hmem, hbelow, hupTo⟩ := h
  rw [hperm.mem_iff] at hmem
  rw [hperm.countP_eq, hperm.length_eq] at hbelow hupTo
  exact ⟨hmem, hbelow, hupTo⟩

section Sorted
variable {sorted : List Nat} {p q x y : Nat}

theorem percentile_index_lt (hne : sorted ≠ []) (p : Nat) :
    min (sorted.length * p / 100) (sorted.length - 1) < sorted.length := by
  have hpos := List.length_pos_iff.mpr hne
  omega

theorem percentile?_eq (hne : sorted ≠ []) (p : Nat) :
    percentile? sorted p = some (sorted.get ⟨_, percentile_index_lt hne p⟩) :=
  List.getElem?_eq_getElem _

theorem isPercentile_of_percentile? (hs : sorted.Pairwise (· ≤ ·))
    (h : percentile? sorted p = some x) : IsPercentile sorted p x := by
  obtain ⟨hi, rfl⟩ := List.getElem?_eq_some_iff.mp h
  have hbelow := countP_lt_get_le hs ⟨_, hi⟩
  have hupTo := lt_countP_le_get hs ⟨_, hi⟩
  simp only [List.get_eq_getElem] at hbelow hupTo
  refine ⟨List.getElem_mem hi, ?_, ?_⟩ <;> omega

theorem percentile?_mono (hs : sorted.Pairwise (· ≤ ·)) (hpq : p ≤ q)
    (hx : percentile? sorted p = some x) (hy : percentile? sorted q = some y) : x ≤ y := by
  obtain ⟨hi, rfl⟩ := List.getElem?_eq_some_iff.mp hx
  obtain ⟨hj, rfl⟩ := List.getElem?_eq_some_iff.mp hy
  have hscaled : sorted.length * p / 100 ≤ sorted.length * q / 100 :=
    Nat.div_le_div_right (Nat.mul_le_mul_left _ hpq)
  exact hs.rel_get_of_le (a := ⟨_, hi⟩) (b := ⟨_, hj⟩) (Nat.le_min.mpr
    ⟨(Nat.min_le_left ..).trans hscaled, Nat.min_le_right ..⟩)

end Sorted

namespace LatencySummary

/-- What the summary says of the response times, in whichever order they are. Its total is their sum
if a word holds that. -/
structure Describes (s : LatencySummary) (latencies : List Nat) : Prop where
  count : s.count = latencies.length
  total : s.total = lowWord latencies.sum
  least_mem : s.least ∈ latencies
  least_le : ∀ x ∈ latencies, s.least ≤ x
  greatest_mem : s.greatest ∈ latencies
  le_greatest : ∀ x ∈ latencies, x ≤ s.greatest
  reported : s.percentiles.map (·.1) = reportedPercentiles
  percentile : ∀ r ∈ s.percentiles, IsPercentile latencies r.1 r.2
  ascending : ∀ r ∈ s.percentiles, ∀ r' ∈ s.percentiles, r.1 ≤ r'.1 → r.2 ≤ r'.2
  between : ∀ r ∈ s.percentiles, s.least ≤ r.2 ∧ r.2 ≤ s.greatest

theorem Describes.perm {s : LatencySummary} {l l' : List Nat} (h : s.Describes l)
    (hperm : l.Perm l') : s.Describes l' where
  count := h.count.trans hperm.length_eq
  total := h.total.trans (congrArg lowWord hperm.sum_nat)
  least_mem := hperm.mem_iff.mp h.least_mem
  least_le x hx := h.least_le x (hperm.mem_iff.mpr hx)
  greatest_mem := hperm.mem_iff.mp h.greatest_mem
  le_greatest x hx := h.le_greatest x (hperm.mem_iff.mpr hx)
  reported := h.reported
  percentile r hr := (h.percentile r hr).perm hperm
  ascending := h.ascending
  between := h.between

section Sorted
variable {sorted : List Nat} (hne : sorted ≠ [])

theorem ofSorted?_eq (total : Nat) : ofSorted? sorted total = some {
    count := sorted.length
    total
    least := sorted.head hne
    greatest := sorted.getLast hne
    percentiles := reportedPercentiles.map fun p =>
      (p, sorted.get ⟨_, percentile_index_lt hne p⟩) } := by
  simp only [ofSorted?, List.head?_eq_some_head hne, List.getLast?_eq_some_getLast hne,
    percentile?_eq hne, Option.map_some, List.filterMap_eq_map']
  rfl

include hne in
theorem ofSorted?_describes (hs : sorted.Pairwise (· ≤ ·)) :
    ∃ s, ofSorted? sorted (lowSum sorted) = some s ∧ s.Describes sorted := by
  refine ⟨_, ofSorted?_eq hne _, ?_⟩
  have hvalue : ∀ r ∈ reportedPercentiles.map fun p =>
      (p, sorted.get ⟨_, percentile_index_lt hne p⟩), percentile? sorted r.1 = some r.2 := by
    simp only [List.forall_mem_map, percentile?_eq hne, implies_true]
  exact {
    count := rfl
    total := lowSum_eq sorted
    least_mem := List.head_mem hne
    least_le := fun x hx => hs.rel_head hx
    greatest_mem := List.getLast_mem hne
    le_greatest := fun x hx => hs.rel_getLast hx
    reported := rfl
    percentile := fun r hr => isPercentile_of_percentile? hs (hvalue r hr)
    ascending := fun r hr r' hr' hle => percentile?_mono hs hle (hvalue r hr) (hvalue r' hr')
    between := fun r hr =>
      have hmem : r.2 ∈ sorted := List.mem_of_getElem? (hvalue r hr)
      ⟨hs.rel_head hmem, hs.rel_getLast hmem⟩ }

end Sorted

variable {l l' : List Nat}

theorem ascending_perm (l : List Nat) : (ascending l).Perm l := List.mergeSort_perm ..

theorem pairwise_ascending (l : List Nat) : (ascending l).Pairwise (· ≤ ·) :=
  pairwise_le_mergeSort l

theorem ascending_eq_of_perm (h : l.Perm l') : ascending l = ascending l' :=
  ((ascending_perm l).trans (h.trans (ascending_perm l').symm)).eq_of_pairwise
    (fun _ _ _ _ => Nat.le_antisymm) (pairwise_ascending l) (pairwise_ascending l')

/-- The order of the response times goes unnoticed. -/
theorem ofLatencies?_perm (h : l.Perm l') : ofLatencies? l = ofLatencies? l' := by
  rw [ofLatencies?, ascending_eq_of_perm h, ofLatencies?]

theorem ofLatenciesIn?_eq (b : Build) (l : List Nat) :
    ofLatenciesIn? b l = if b.Stops l.sum then none else some (ofLatencies? l) := by
  rw [ofLatenciesIn?, Build.sum?_eq, (ascending_perm l).sum_nat]
  split_ifs <;> rfl

theorem ofLatencies?_describes (hne : l ≠ []) :
    ∃ s, ofLatencies? l = some s ∧ s.Describes l := by
  have hsorted : ascending l ≠ [] := fun hnil => hne (hnil ▸ ascending_perm l).nil_eq.symm
  obtain ⟨s, hs, hdescribes⟩ := ofSorted?_describes hsorted (pairwise_ascending l)
  exact ⟨s, hs, hdescribes.perm (ascending_perm l)⟩

/-- Response times in any order have one summary, and it describes them. Of an empty list there is
no percentile, and of every other there is each, at a place that the list has. -/
theorem exists_describes :
    (∀ latencies : List Nat, latencies ≠ [] → ∃ s : LatencySummary, s.Describes latencies ∧
      ∀ l : List Nat, l.Perm latencies → ofLatencies? l = some s) ∧
    ∀ (sorted : List Nat) (p : Nat), sorted = [] ∧ percentile? sorted p = none ∨
      ∃ i : Fin sorted.length, i.1 = min (sorted.length * p / 100) (sorted.length - 1) ∧
        percentile? sorted p = some (sorted.get i) := by
  constructor
  · intro latencies hne
    obtain ⟨s, hs, hdescribes⟩ := ofLatencies?_describes hne
    exact ⟨s, hdescribes, fun l hl => (ofLatencies?_perm hl).trans hs⟩
  · intro sorted p
    rcases eq_or_ne sorted [] with rfl | hne
    · exact .inl ⟨rfl, rfl⟩
    · exact .inr ⟨⟨_, percentile_index_lt hne p⟩, rfl, percentile?_eq hne p⟩

theorem exists_describes_four : ∃ s : LatencySummary, s.Describes [30, 10, 20, 10] ∧
    ofLatencies? [10, 10, 20, 30] = some s ∧
    s.percentiles = [(10, 10), (50, 20), (90, 30), (95, 30), (99, 30)] := by
  obtain ⟨s, hdescribes, hperm⟩ := exists_describes.1 [30, 10, 20, 10] (by decide)
  have hs := hperm [10, 10, 20, 30] (by decide)
  have hsorted : ascending [10, 10, 20, 30] = [10, 10, 20, 30] :=
    List.mergeSort_of_pairwise (by decide)
  have hrun : (ofLatencies? [10, 10, 20, 30]).map (·.percentiles) =
      some [(10, 10), (50, 20), (90, 30), (95, 30), (99, 30)] := by
    rw [ofLatencies?, hsorted]
    rfl
  rw [hs] at hrun
  exact ⟨s, hdescribes, hs, Option.some.inj hrun⟩

end LatencySummary
end StoreAudit
