import Mathlib.Data.List.Induction
import Mathlib.Data.List.Nodup

/-! Tables with a row for each label. Sorted by their labels, the rows do not show in which order
they were read out. -/
namespace StoreAudit

/-- A row of members for each label. -/
abbrev Table (κ α : Type) := List (κ × List α)

namespace Table
variable {κ α : Type} [BEq κ]

/-- Puts `a` at the end of the row of `k`, which is new if there is none. -/
def add (k : κ) (a : α) : Table κ α → Table κ α
  | [] => [(k, [a])]
  | (l, row) :: rest => if l == k then (l, row ++ [a]) :: rest else (l, row) :: add k a rest

/-- The members by their labels, each row in the order of the list. What bears none is left out. -/
def ofList (label : α → Option κ) (as : List α) : Table κ α :=
  as.foldl (fun table a => (label a).elim table fun k => table.add k a) []

theorem ofList_concat (label : α → Option κ) (as : List α) (a : α) :
    ofList label (as ++ [a]) =
      (label a).elim (ofList label as) fun k => (ofList label as).add k a := by
  simp [ofList]

variable [LawfulBEq κ]

theorem lookup_cons_of_ne {k l : κ} (h : l ≠ k) (row : List α) (table : Table κ α) :
    List.lookup l ((k, row) :: table) = table.lookup l := by
  simp [List.lookup_cons, beq_eq_false_iff_ne.mpr h]

theorem lookup_add (k l : κ) (a : α) (table : Table κ α) :
    (table.add k a).lookup l =
      if l == k then some ((table.lookup k).getD [] ++ [a]) else table.lookup l := by
  induction table with
  | nil =>
    by_cases h : l = k
    · simp [add, h]
    · simp [add, h, lookup_cons_of_ne h]
  | cons entry table ih =>
    obtain ⟨m, row⟩ := entry
    by_cases hm : m = k
    · subst hm
      by_cases h : l = m
      · simp [add, h]
      · simp [add, h, lookup_cons_of_ne h]
    · have hmk : (m == k) = false := beq_eq_false_iff_ne.mpr hm
      rw [add, hmk, if_neg Bool.false_ne_true, lookup_cons_of_ne (Ne.symm hm)]
      by_cases h : l = m
      · simp [h, hmk]
      · rw [lookup_cons_of_ne h, lookup_cons_of_ne h, ih]

theorem map_fst_add (k : κ) (a : α) (table : Table κ α) :
    (table.add k a).map Prod.fst =
      if k ∈ table.map Prod.fst then table.map Prod.fst else table.map Prod.fst ++ [k] := by
  induction table with
  | nil => rfl
  | cons entry table ih =>
    obtain ⟨m, row⟩ := entry
    by_cases hm : m = k
    · simp [add, hm]
    · by_cases hk : k ∈ table.map Prod.fst <;> simp_all [add, Ne.symm hm]

theorem nodup_labels_add (k : κ) (a : α) {table : Table κ α}
    (h : (table.map Prod.fst).Nodup) : ((table.add k a).map Prod.fst).Nodup := by
  rw [map_fst_add]
  split_ifs with hk
  · exact h
  · exact List.nodup_append.mpr ⟨h, by simp, by rintro l hl _ (_ | _) rfl <;> contradiction⟩

theorem nodup_labels_ofList (label : α → Option κ) (as : List α) :
    ((ofList label as).map Prod.fst).Nodup := by
  induction as using List.reverseRecOn with
  | nil => exact List.nodup_nil
  | append_singleton as a ih =>
    rw [ofList_concat]
    cases label a with
    | none => exact ih
    | some k => exact nodup_labels_add k a ih

/-- The row of a label holds the members that bear it, and no row is empty. -/
theorem lookup_ofList (label : α → Option κ) (as : List α) (k : κ) :
    (ofList label as).lookup k =
      if as.filter (label · == some k) = [] then none
      else some (as.filter (label · == some k)) := by
  induction as using List.reverseRecOn with
  | nil => rfl
  | append_singleton as a ih =>
    rw [ofList_concat]
    cases h : label a with
    | none =>
      have hrow : (as ++ [a]).filter (label · == some k) = as.filter (label · == some k) := by
        simp [h]
      rw [Option.elim_none, hrow, ih]
    | some l =>
      rw [Option.elim_some, lookup_add]
      by_cases hl : k = l
      · subst hl
        have hrow : (as ++ [a]).filter (label · == some k) =
            as.filter (label · == some k) ++ [a] := by simp [h]
        rw [hrow, ih]
        by_cases hs : as.filter (label · == some k) = [] <;> simp [hs]
      · have hrow : (as ++ [a]).filter (label · == some k) = as.filter (label · == some k) := by
          simp [h, Ne.symm hl]
        rw [beq_eq_false_iff_ne.mpr hl, if_neg Bool.false_ne_true, hrow, ih]

theorem mem_iff_lookup_eq {table : Table κ α} (h : (table.map Prod.fst).Nodup) {k : κ}
    {row : List α} : (k, row) ∈ table ↔ table.lookup k = some row := by
  induction table with
  | nil => simp
  | cons entry table ih =>
    obtain ⟨l, row'⟩ := entry
    obtain ⟨hl, ht⟩ := List.nodup_cons.mp h
    rw [List.mem_cons, ih ht]
    by_cases hkl : k = l
    · subst hkl
      have hnone : table.lookup k ≠ some row := fun hk =>
        hl (List.mem_map.mpr ⟨(k, row), (ih ht).mpr hk, rfl⟩)
      simp [hnone, eq_comm]
    · simp [lookup_cons_of_ne hkl, hkl]

theorem mem_ofList {label : α → Option κ} {as : List α} {k : κ} {row : List α} :
    (k, row) ∈ ofList label as ↔ row = as.filter (label · == some k) ∧ row ≠ [] := by
  rw [mem_iff_lookup_eq (nodup_labels_ofList label as), lookup_ofList]
  split_ifs with h
  · rw [h]
    exact ⟨nofun, fun ⟨h, hne⟩ => absurd h hne⟩
  · rw [Option.some_inj]
    exact ⟨fun hr => ⟨hr.symm, hr ▸ h⟩, fun hr => hr.1.symm⟩

/-- Whatever order the rows are read out in, sorted by their labels they are the same list. -/
theorem mergeSort_eq_map {label : α → Option κ} {as : List α} {keys : List κ} (le : κ → κ → Bool)
    (htrans : ∀ k l m, le k l → le l m → le k m) (htotal : ∀ k l, le k l || le l k)
    (hanti : ∀ k l, le k l → le l k → k = l)
    (hkeys : keys.Pairwise fun k l => le k l ∧ k ≠ l)
    (hmem : ∀ k, k ∈ keys ↔ ∃ a ∈ as, label a = some k)
    {table : Table κ α} (ht : table.Perm (ofList label as)) :
    (table.mergeSort fun r s => le r.1 s.1) =
      keys.map fun k => (k, as.filter (label · == some k)) := by
  have htrans' (r s t : κ × List α) := htrans r.1 s.1 t.1
  have hsorted := List.pairwise_mergeSort htrans' (fun r s => htotal r.1 s.1) table
  have hmap : (keys.map fun k => (k, as.filter (label · == some k))).Pairwise
      fun r s => le r.1 s.1 := List.pairwise_map.mpr (hkeys.imp fun h => h.1)
  have hnodup : (keys.map fun k => (k, as.filter (label · == some k))).Nodup :=
    List.pairwise_map.mpr (hkeys.imp fun h heq => h.2 (Prod.mk.inj heq).1)
  have hperm : (keys.map fun k => (k, as.filter (label · == some k))).Perm (ofList label as) := by
    rw [List.perm_ext_iff_of_nodup hnodup (nodup_labels_ofList label as).of_map]
    rintro ⟨k, row⟩
    rw [mem_ofList, List.mem_map]
    constructor
    · rintro ⟨l, hl, heq⟩
      obtain ⟨rfl, rfl⟩ := Prod.mk.inj heq
      obtain ⟨a, ha, hal⟩ := (hmem l).mp hl
      exact ⟨rfl, List.ne_nil_of_mem (List.mem_filter.mpr ⟨ha, by simp [hal]⟩)⟩
    · rintro ⟨rfl, hne⟩
      obtain ⟨a, ha⟩ := List.exists_mem_of_ne_nil _ hne
      obtain ⟨ha, hak⟩ := List.mem_filter.mp ha
      exact ⟨k, (hmem k).mpr ⟨a, ha, beq_iff_eq.mp hak⟩, rfl⟩
  refine List.Perm.eq_of_pairwise ?_ hsorted hmap
    ((List.mergeSort_perm _ _).trans (ht.trans hperm.symm))
  rintro r s hr hs hrs hsr
  have hr := (List.mem_mergeSort.mp hr)
  rw [(ht.trans hperm.symm).mem_iff] at hr
  obtain ⟨k, -, rfl⟩ := List.mem_map.mp hr
  obtain ⟨l, -, rfl⟩ := List.mem_map.mp hs
  rw [hanti k l hrs hsr]

end Table

end StoreAudit
