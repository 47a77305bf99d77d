import Mathlib.Data.List.FinRange
import Mathlib.Order.Lattice
import StoreAudit.Consistency.Audit
import StoreAudit.Proofs.Pairs

/-! The orders of keys and of operations, and what sorting and erasing repetitions leave. -/
namespace StoreAudit

section Repetitions
variable {α : Type} [BEq α]

private theorem eraseReps_loop (a : α) (l acc : List α) :
    List.eraseRepsBy.loop (· == ·) a l acc = acc.reverse ++ (a :: l).eraseReps := by
  induction l generalizing a acc with
  | nil => simp [List.eraseReps, List.eraseRepsBy, List.eraseRepsBy.loop]
  | cons b l ih =>
    simp only [List.eraseReps, List.eraseRepsBy, List.eraseRepsBy.loop]
    cases a == b with
    | true => exact ih a acc
    | false => rw [ih b (a :: acc), ih b [a]]; simp

variable [LawfulBEq α]

theorem eraseReps_cons_self (a : α) (l : List α) :
    (a :: a :: l).eraseReps = (a :: l).eraseReps := by
  simp [List.eraseReps, List.eraseRepsBy, List.eraseRepsBy.loop]

theorem eraseReps_cons_of_ne {a b : α} (h : a ≠ b) (l : List α) :
    (a :: b :: l).eraseReps = a :: (b :: l).eraseReps := by
  have hab : (a == b) = false := beq_eq_false_iff_ne.mpr h
  have hl := eraseReps_loop b l [a]
  simpa [List.eraseReps, List.eraseRepsBy, List.eraseRepsBy.loop, hab] using hl

@[simp] theorem mem_eraseReps {a : α} {l : List α} : a ∈ l.eraseReps ↔ a ∈ l := by
  induction l with
  | nil => rfl
  | cons b l ih =>
    cases l with
    | nil => rfl
    | cons c l =>
      by_cases hbc : b = c
      · subst hbc
        rw [eraseReps_cons_self, ih]
        simp
      · rw [eraseReps_cons_of_ne hbc, List.mem_cons, ih, List.mem_cons (l := c :: l)]

/-- In a sorted list equals are neighbours, so that no two of them are left. -/
theorem pairwise_eraseReps {r : α → α → Prop} (hanti : ∀ a b, r a b → r b a → a = b)
    {l : List α} (hl : l.Pairwise r) : l.eraseReps.Pairwise fun a b => r a b ∧ a ≠ b := by
  induction l with
  | nil => exact .nil
  | cons a l ih =>
    cases l with
    | nil => exact List.pairwise_singleton _ a
    | cons b l =>
      obtain ⟨ha, hl⟩ := List.pairwise_cons.mp hl
      by_cases hab : a = b
      · subst hab
        rw [eraseReps_cons_self]
        exact ih hl
      rw [eraseReps_cons_of_ne hab]
      refine List.pairwise_cons.mpr ⟨fun c hc => ?_, ih hl⟩
      rw [mem_eraseReps] at hc
      refine ⟨ha c hc, ?_⟩
      rintro rfl
      rcases List.mem_cons.mp hc with rfl | hc
      · exact hab rfl
      · exact hab (hanti _ _ (ha b (by simp)) ((List.pairwise_cons.mp hl).1 _ hc))

end Repetitions

/-- An order that compares keys sorts by them. -/
theorem pairwise_key_mergeSort {α κ : Type} [LinearOrder κ] {le : α → α → Bool} {key : α → κ}
    (hle : ∀ a b, le a b ↔ key a ≤ key b) (l : List α) :
    (l.mergeSort le).Pairwise fun a b => key a ≤ key b := by
  have hsorted : (l.mergeSort le).Pairwise fun a b => le a b := by
    apply List.pairwise_mergeSort
    · intro a b c hab hbc
      exact (hle a c).mpr (((hle a b).mp hab).trans ((hle b c).mp hbc))
    · intro a b
      rw [Bool.or_eq_true, hle, hle]
      exact le_total ..
  exact hsorted.imp fun {a b} hab => (hle a b).mp hab

/-- A list in which nothing belongs before what precedes it is what its rearrangements are sorted
to. -/
theorem mergeSort_eq_of_perm {α κ : Type} [LinearOrder κ] {le : α → α → Bool} {key : α → κ}
    (hle : ∀ a b, le a b ↔ key a ≤ key b) {l l' : List α} (hperm : l.Perm l')
    (hl' : l'.Pairwise fun a b => ¬ le b a) : l.mergeSort le = l' := by
  have hlt : l'.Pairwise fun a b => key a < key b :=
    hl'.imp fun {a b} hba => lt_of_not_ge ((hle b a).not.mp hba)
  have hsame : (l.mergeSort le).Perm l' := (List.mergeSort_perm l le).trans hperm
  have hnodup : (l'.map key).Nodup := List.pairwise_map.mpr (hlt.imp fun h => ne_of_lt h)
  refine hsame.eq_of_pairwise (fun a b ha hb hab hba => ?_) (pairwise_key_mergeSort hle l)
    (hlt.imp fun h => le_of_lt h)
  exact List.inj_on_of_nodup_map hnodup (hsame.subset ha) hb (le_antisymm hab hba)

theorem pairwise_le_mergeSort (l : List Nat) :
    (l.mergeSort fun a b => decide (a ≤ b)).Pairwise (· ≤ ·) :=
  pairwise_key_mergeSort (fun _ _ => decide_eq_true_iff) l

/-- Sorting is stable: of two that could stand in either order, the one that was first still is. -/
theorem pairwise_mergeSort_stable {ι : Type} [LinearOrder ι] (le : ι → ι → Bool)
    (htrans : ∀ i j k, le i j → le j k → le i k) (htotal : ∀ i j, le i j || le j i)
    {l : List ι} (hl : l.Pairwise (· < ·)) :
    (l.mergeSort le).Pairwise fun i j => le i j ∧ (le j i → i < j) := by
  have hnodup : (l.mergeSort le).Nodup :=
    (List.mergeSort_perm l le).nodup_iff.mpr (hl.imp fun h => ne_of_lt h)
  refine List.pairwise_iff_forall_sublist.mpr fun {i j} hij => ⟨?_, fun hji => ?_⟩
  · exact List.pairwise_iff_forall_sublist.mp (List.pairwise_mergeSort htrans htotal l) hij
  by_contra hlt
  have hi : i ∈ l := List.mem_mergeSort.mp (hij.subset (by simp))
  have hj : j ∈ l := List.mem_mergeSort.mp (hij.subset (by simp))
  have hne : i ≠ j := List.pairwise_pair.mp (hnodup.sublist hij)
  have hswap := (pair_sublist_iff (fun _ _ => lt_asymm) hl).mpr
    ⟨hj, hi, lt_of_le_of_ne (not_lt.mp hlt) hne.symm⟩
  exact not_pair_sublist_swap hnodup hij (List.pair_sublist_mergeSort htrans htotal hji hswap)

/-- In lists that are sorted by a strict order, the members alone say which is a part of which. -/
theorem sublist_of_subset {α : Type} {r : α → α → Prop} (hasymm : ∀ a b, r a b → ¬ r b a)
    {l l' : List α} (hl : l.Pairwise r) (hl' : l'.Pairwise r) (hsub : l ⊆ l') : l.Sublist l' := by
  have hnodup : l.Nodup := hl.imp fun {a b} hab => by
    rintro rfl
    exact hasymm a a hab hab
  obtain ⟨part, hperm, hpart⟩ := List.subperm_of_subset hnodup hsub
  have heq : part = l := hperm.eq_of_pairwise (fun a b _ _ hab hba => absurd hba (hasymm a b hab))
    (hl'.sublist hpart) hl
  exact heq ▸ hpart

/-- What is left of a list is sorted as in the whole. -/
theorem mergeSort_sublist {α : Type} (le : α → α → Bool)
    (htrans : ∀ a b c, le a b → le b c → le a c) (htotal : ∀ a b, le a b || le b a)
    {l l' : List α} (h : l.Sublist l') : (l.mergeSort le).Sublist (l'.mergeSort le) := by
  -- The places of the members are sorted the same, and no two of them are equal.
  let leAt (i j : Fin l'.length) : Bool := le (l'.get i) (l'.get j)
  have hstable {is : List (Fin l'.length)} (his : is.Pairwise (· < ·)) :=
    pairwise_mergeSort_stable leAt (fun _ _ _ => htrans _ _ _) (fun _ _ => htotal _ _) his
  have hsort (is : List (Fin l'.length)) :
      (is.mergeSort leAt).map l'.get = (is.map l'.get).mergeSort le :=
    List.map_mergeSort fun _ _ _ _ => rfl
  obtain ⟨kept, rfl, hkept⟩ := List.sublist_eq_map_getElem h
  have hplaces : (kept.mergeSort leAt).Sublist ((List.finRange l'.length).mergeSort leAt) := by
    refine sublist_of_subset (fun i j hij hji => lt_asymm (hij.2 hji.1) (hji.2 hij.1))
      (hstable hkept) (hstable (List.pairwise_lt_finRange l'.length)) fun i _ => ?_
    exact List.mem_mergeSort.mpr (List.mem_finRange i)
  have hmap := hplaces.map l'.get
  rwa [hsort, hsort, List.map_get_finRange] at hmap

section Filter
variable {α : Type} (l : List α) (p : α → Bool)

theorem filter_eq_map_get :
    l.filter p = ((List.finRange l.length).filter fun i => p (l.get i)).map l.get := by
  conv_lhs => rw [← List.map_get_finRange l, List.filter_map]
  rfl

theorem filter_mergeSort {le : α → α → Bool} (htrans : ∀ a b c, le a b → le b c → le a c)
    (htotal : ∀ a b, le a b || le b a) :
    (l.mergeSort le).filter p = (l.filter p).mergeSort le := by
  -- The places of the members are sorted the same, and no two of them are equal.
  let leAt (i j : Fin l.length) : Bool := le (l.get i) (l.get j)
  let places := List.finRange l.length
  have hstable {is : List (Fin l.length)} (h : is.Pairwise (· < ·)) :=
    pairwise_mergeSort_stable leAt (fun _ _ _ => htrans _ _ _) (fun _ _ => htotal _ _) h
  have hplaces : places.Pairwise (· < ·) := List.pairwise_lt_finRange l.length
  have hperm : ((places.mergeSort leAt).filter fun i => p (l.get i)).Perm
      ((places.filter fun i => p (l.get i)).mergeSort leAt) :=
    ((List.mergeSort_perm ..).filter _).trans (List.mergeSort_perm ..).symm
  have heq := hperm.eq_of_pairwise (fun i j _ _ hij hji => absurd (hij.2 hji.1) (hji.2 hij.1).asymm)
    ((hstable hplaces).filter _) (hstable (hplaces.filter _))
  have hsort (is : List (Fin l.length)) :
      (is.mergeSort leAt).map l.get = (is.map l.get).mergeSort le :=
    List.map_mergeSort fun _ _ _ _ => rfl
  have hleft := hsort places
  rw [List.map_get_finRange] at hleft
  rw [filter_eq_map_get l p, ← hsort, ← heq, ← hleft, List.filter_map]
  rfl

end Filter

namespace Words

theorem le_total (v w : Words) : v.le w || w.le v := by
  induction v generalizing w with
  | nil => simp [le]
  | cons a v ih =>
    cases w with
    | nil => simp [le]
    | cons b w =>
      have h := ih w
      simp only [le, Bool.or_eq_true, Bool.and_eq_true, decide_eq_true_eq, beq_iff_eq] at h ⊢
      rcases Nat.lt_trichotomy a b with hab | rfl | hab
      · exact .inl (.inl hab)
      · exact h.imp (.inr ⟨rfl, ·⟩) (.inr ⟨rfl, ·⟩)
      · exact .inr (.inl hab)

theorem le_trans {u v w : Words} (huv : u.le v) (hvw : v.le w) : u.le w := by
  induction u generalizing v w with
  | nil => rfl
  | cons a u ih =>
    cases v with
    | nil => simp [le] at huv
    | cons b v =>
      cases w with
      | nil => simp [le] at hvw
      | cons c w =>
        simp only [le, Bool.or_eq_true, Bool.and_eq_true, decide_eq_true_eq, beq_iff_eq]
          at huv hvw ⊢
        rcases huv with hab | ⟨rfl, huv⟩
        · rcases hvw with hbc | ⟨rfl, -⟩
          · exact .inl (Nat.lt_trans hab hbc)
          · exact .inl hab
        · rcases hvw with hbc | ⟨rfl, hvw⟩
          · exact .inl hbc
          · exact .inr ⟨rfl, ih huv hvw⟩

theorem le_antisymm {v w : Words} (hvw : v.le w) (hwv : w.le v) : v = w := by
  induction v generalizing w with
  | nil =>
    cases w with
    | nil => rfl
    | cons b w => simp [le] at hwv
  | cons a v ih =>
    cases w with
    | nil => simp [le] at hvw
    | cons b w =>
      simp only [le, Bool.or_eq_true, Bool.and_eq_true, decide_eq_true_eq, beq_iff_eq] at hvw hwv
      rcases hvw with hab | ⟨rfl, hvw⟩
      · rcases hwv with hba | ⟨rfl, -⟩ <;> omega
      · rcases hwv with hba | ⟨-, hwv⟩
        · omega
        · rw [ih hvw hwv]

@[simp] theorem mem_distinct {w : Words} {ws : List Words} : w ∈ distinct ws ↔ w ∈ ws := by
  rw [distinct, mem_eraseReps, List.mem_mergeSort]

theorem pairwise_distinct (ws : List Words) :
    (distinct ws).Pairwise fun v w => v.le w ∧ v ≠ w := by
  have htrans (u v w : Words) : u.le v → v.le w → u.le w := le_trans
  have hs := List.pairwise_mergeSort htrans le_total ws
  exact pairwise_eraseReps (fun _ _ => le_antisymm) hs

theorem nodup_distinct (ws : List Words) : (distinct ws).Nodup :=
  (pairwise_distinct ws).imp fun h => h.2

/-- Words that ascend are the distinct members of any list with the same members. -/
theorem distinct_eq_of_mem_iff {keys ws : List Words}
    (hkeys : keys.Pairwise fun v w => v.le w ∧ v ≠ w) (hmem : ∀ w, w ∈ keys ↔ w ∈ ws) :
    distinct ws = keys := by
  have hsame : (distinct ws).Perm keys := by
    rw [List.perm_ext_iff_of_nodup (nodup_distinct ws) (hkeys.imp fun h => h.2)]
    intro w
    rw [mem_distinct, hmem]
  refine hsame.eq_of_pairwise ?_ (pairwise_distinct ws) hkeys
  intro v w _ _ hvw hwv
  exact le_antisymm hvw.1 hwv.1

theorem distinct_sublist {ws ws' : List Words} (h : ws ⊆ ws') :
    (distinct ws).Sublist (distinct ws') := by
  refine sublist_of_subset (fun v w hvw hwv => hvw.2 (le_antisymm hvw.1 hwv.1))
    (pairwise_distinct ws) (pairwise_distinct ws') fun w hw => ?_
  exact mem_distinct.mpr (h (mem_distinct.mp hw))

end Words

namespace Consistency

@[simp] theorem mem_versions {v : Nat} {ops : List Operation} :
    v ∈ versions ops ↔ ∃ op ∈ ops, op.version = some v := by
  simp [versions]

theorem decide_le_trans (a b c : Nat) : decide (a ≤ b) → decide (b ≤ c) → decide (a ≤ c) := by
  simpa using Nat.le_trans

theorem decide_le_total (a b : Nat) : decide (a ≤ b) || decide (b ≤ a) := by
  simpa using Nat.le_total a b

theorem pairwise_versions (ops : List Operation) :
    (versions ops).Pairwise fun v w => v ≤ w ∧ v ≠ w := by
  have hs := pairwise_le_mergeSort (ops.filterMap (·.version))
  exact pairwise_eraseReps (fun _ _ => Nat.le_antisymm) hs

theorem nodup_versions (ops : List Operation) : (versions ops).Nodup :=
  (pairwise_versions ops).imp fun h => h.2

theorem versions_sublist {ops ops' : List Operation} (h : ops ⊆ ops') :
    (versions ops).Sublist (versions ops') := by
  refine sublist_of_subset (fun v w hvw hwv => hvw.2 (Nat.le_antisymm hvw.1 hwv.1))
    (pairwise_versions ops) (pairwise_versions ops') fun v hv => ?_
  obtain ⟨op, hop, hversion⟩ := mem_versions.mp hv
  exact mem_versions.mpr ⟨op, h hop, hversion⟩

theorem inOrder_iff {op next : Operation} :
    inOrder op next ↔ op.start < next.start ∨ op.start = next.start ∧
      (op.finish < next.finish ∨ op.finish = next.finish ∧ op.id ≤ next.id) := by
  simp [inOrder]

theorem inOrder_total (op next : Operation) : inOrder op next || inOrder next op := by
  rw [Bool.or_eq_true, inOrder_iff, inOrder_iff]
  omega

theorem inOrder_trans {op next last : Operation} (h : inOrder op next) (h' : inOrder next last) :
    inOrder op last := by
  rw [inOrder_iff] at h h' ⊢
  omega

end Consistency
end StoreAudit
