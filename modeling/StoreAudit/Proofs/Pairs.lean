import Mathlib.Data.List.Nodup
import Mathlib.Data.List.Perm.Basic
import Mathlib.Data.Prod.Basic
import StoreAudit.Consistency.Pairs

/-! The pairs of a list are its sublists of two members. Lists that are cut by a label. -/
namespace StoreAudit

section Pairs
variable {α β : Type}

theorem mem_pairs {a b : α} {l : List α} : (a, b) ∈ pairs l ↔ [a, b].Sublist l := by
  induction l with
  | nil => simp [pairs]
  | cons c l ih =>
    rw [pairs, List.mem_append, ih, List.sublist_cons_iff]
    simp only [List.mem_map, Prod.mk.injEq, List.cons.injEq]
    constructor
    · rintro (⟨d, hd, rfl, rfl⟩ | h)
      · exact .inr ⟨[d], ⟨rfl, rfl⟩, List.singleton_sublist.mpr hd⟩
      · exact .inl h
    · rintro (h | ⟨_, ⟨rfl, rfl⟩, h⟩)
      · exact .inr h
      · exact .inl ⟨b, List.singleton_sublist.mp h, rfl, rfl⟩

theorem nodup_pairs {l : List α} (hl : l.Nodup) : (pairs l).Nodup := by
  induction l with
  | nil => exact List.nodup_nil
  | cons a l ih =>
    obtain ⟨ha, hl⟩ := List.nodup_cons.mp hl
    refine List.nodup_append.mpr ⟨hl.map (Prod.mk_right_injective a), ih hl, ?_⟩
    rintro p hp q hq rfl
    obtain ⟨b, -, rfl⟩ := List.mem_map.mp hp
    exact ha ((mem_pairs.mp hq).subset (by simp))

theorem pairs_map (f : α → β) (l : List α) : pairs (l.map f) = (pairs l).map (Prod.map f f) := by
  induction l with
  | nil => rfl
  | cons a l ih => simp [pairs, ih]

theorem pairs_sublist {l l' : List α} (h : l.Sublist l') : (pairs l).Sublist (pairs l') := by
  induction h with
  | slnil => exact .slnil
  | cons a _ ih => exact ih.trans (List.sublist_append_right ..)
  | cons_cons a h ih => exact (h.map _).append ih

theorem pairs_filter (p : α → Bool) (l : List α) :
    pairs (l.filter p) = (pairs l).filter fun q => p q.1 && p q.2 := by
  induction l with
  | nil => rfl
  | cons a l ih =>
    cases h : p a with
    | true => simp [pairs, h, ih, List.filter_map, Function.comp_def]
    | false => simp [pairs, h, ih]

/-- In a list that is sorted by a strict order, the order alone says which pairs there are. -/
theorem pair_sublist_iff {r : α → α → Prop} (hasymm : ∀ a b, r a b → ¬ r b a) {l : List α}
    (hl : l.Pairwise r) {a b : α} : [a, b].Sublist l ↔ a ∈ l ∧ b ∈ l ∧ r a b := by
  constructor
  · intro h
    refine ⟨h.subset (by simp), h.subset (by simp), ?_⟩
    exact List.pairwise_pair.mp (hl.sublist h)
  · rintro ⟨ha, hb, hab⟩
    obtain ⟨s, t, rfl⟩ := List.append_of_mem ha
    obtain ⟨-, ht, hst⟩ := List.pairwise_append.mp hl
    rcases List.mem_append.mp hb with hb | hb
    · exact absurd (hst b hb a (by simp)) (hasymm a b hab)
    rcases List.mem_cons.mp hb with rfl | hb
    · exact absurd hab (hasymm _ _ hab)
    · have h : [a, b].Sublist (a :: t) := (List.singleton_sublist.mpr hb).cons_cons a
      exact h.trans (List.sublist_append_right s _)

theorem not_pair_sublist_swap {l : List α} (hl : l.Nodup) {a b : α} (hab : [a, b].Sublist l) :
    ¬ [b, a].Sublist l := by
  induction l with
  | nil => simp at hab
  | cons c l ih =>
    obtain ⟨hc, hl⟩ := List.nodup_cons.mp hl
    intro hba
    rcases List.sublist_cons_iff.mp hab with hab | ⟨_, heq, hb⟩
    · rcases List.sublist_cons_iff.mp hba with hba | ⟨_, heq, -⟩
      · exact ih hl hab hba
      · rw [← (List.cons.inj heq).1] at hc
        exact hc (hab.subset (by simp))
    · obtain ⟨rfl, rfl⟩ := List.cons.inj heq
      rcases List.sublist_cons_iff.mp hba with hba | ⟨_, heq, -⟩
      · exact hc (hba.subset (by simp))
      · rw [(List.cons.inj heq).1] at hb
        exact hc (hb.subset (by simp))

end Pairs

section Labels
variable {α κ : Type}

theorem nodup_flatMap_of_label {keys : List κ} (hkeys : keys.Nodup) {f : κ → List α}
    (hf : ∀ k ∈ keys, (f k).Nodup) (label : α → κ) (hlabel : ∀ k ∈ keys, ∀ a ∈ f k, label a = k) :
    (keys.flatMap f).Nodup := by
  refine List.nodup_flatMap.mpr ⟨hf, hkeys.pairwise_of_forall_ne fun k hk l hl hkl => ?_⟩
  rw [Function.onFun_apply, List.disjoint_left]
  intro a ha ha'
  exact hkl ((hlabel k hk a ha).symm.trans (hlabel l hl a ha'))

/-- Cut by a label and put together again, a list is as it was but for its order. -/
theorem flatMap_filter_perm [BEq κ] [LawfulBEq κ] {keys : List κ} (hkeys : keys.Nodup)
    (label : α → κ) {l : List α} (hl : ∀ a ∈ l, label a ∈ keys) :
    (keys.flatMap fun k => l.filter fun a => label a == k).Perm l := by
  induction l with
  | nil => simp
  | cons a l ih =>
    obtain ⟨s, t, rfl⟩ := List.append_of_mem (hl a (by simp))
    have hne : ∀ k ∈ s ++ t, (label a == k) = false := by
      intro k hk
      rw [beq_eq_false_iff_ne]
      rintro rfl
      exact (List.nodup_middle.mp hkeys).notMem hk
    have hs : (s.flatMap fun k => (a :: l).filter fun b => label b == k) =
        s.flatMap fun k => l.filter fun b => label b == k :=
      List.flatMap_congr fun k hk => by simp [hne k (by simp [hk])]
    have ht : (t.flatMap fun k => (a :: l).filter fun b => label b == k) =
        t.flatMap fun k => l.filter fun b => label b == k :=
      List.flatMap_congr fun k hk => by simp [hne k (by simp [hk])]
    have ih := ih fun b hb => hl b (by simp [hb])
    rw [List.flatMap_append, List.flatMap_cons] at ih ⊢
    rw [hs, ht, List.filter_cons_of_pos (by simp), List.cons_append]
    exact List.perm_middle.trans (ih.cons a)

end Labels
end StoreAudit
