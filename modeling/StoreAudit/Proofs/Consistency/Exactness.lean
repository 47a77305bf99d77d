import Mathlib.Data.Finset.Prod
import Mathlib.Data.Fintype.Basic
import Mathlib.Data.Fintype.Prod
import Mathlib.Data.Prod.Lex
import StoreAudit.Proofs.Consistency.Tabled
import StoreAudit.Proofs.Pairs

/-! What an audit reports: each piece of evidence once, by the places of its operations. -/
namespace StoreAudit.Consistency

/-- Successful operations on one key that share a version but not the value. -/
def Conflict (t u : Operation) : Prop :=
  t.succeeded ∧ u.succeeded ∧ t.key = u.key ∧ t.version.isSome ∧ t.version = u.version ∧
    t.value ≠ u.value

/-- Successful operations on one key, the first over before the second began, with versions that
fall. -/
def Backwards (t u : Operation) : Prop :=
  t.succeeded ∧ u.succeeded ∧ t.key = u.key ∧ t.Precedes u ∧
    ∃ v ∈ t.version, ∃ w ∈ u.version, w < v

/-- A successful read of a key that has no entry. -/
def Unwritten (h : WriteHistory) (read : Operation) : Prop :=
  read.succeeded ∧ read.isRead ∧ ¬ h.isWritten read.key

/-- A successful read of a key whose entries do not have the value, or with `matchVersion` not at
the version. -/
def Unknown (h : WriteHistory) (matchVersion : Bool) (read : Operation) : Prop :=
  read.succeeded ∧ read.isRead ∧ h.isWritten read.key ∧
    ¬ ∃ w ∈ h.entries read.key, w.value = read.value ∧ (matchVersion → w.version = read.version)

instance : DecidableRel Conflict := fun _ _ => inferInstanceAs (Decidable (_ ∧ _))
instance : DecidableRel Backwards := fun _ _ => inferInstanceAs (Decidable (_ ∧ _))
instance (h : WriteHistory) : DecidablePred (Unwritten h) :=
  fun _ => inferInstanceAs (Decidable (_ ∧ _))
instance (h : WriteHistory) (matchVersion : Bool) : DecidablePred (Unknown h matchVersion) :=
  fun _ => inferInstanceAs (Decidable (_ ∧ _))

section Places
variable (ops : List Operation)

/-- Where the operation at a place stands when all are sorted by start, finish and id, and equals
keep their places. -/
def rank (i : Fin ops.length) : ℕ ×ₗ ℕ ×ₗ ℕ ×ₗ Fin ops.length :=
  toLex ((ops.get i).start, toLex ((ops.get i).finish, toLex ((ops.get i).id, i)))

/-- The places of the operations of a kind. -/
def places (p : Operation → Prop) [DecidablePred p] : Finset (Fin ops.length) :=
  Finset.univ.filter fun i => p (ops.get i)

/-- The pairs of places whose operations are related, the one of the lower rank first. -/
def rankedPairs (r : Operation → Operation → Prop) [DecidableRel r] :
    Finset (Fin ops.length × Fin ops.length) :=
  Finset.univ.filter fun p => rank ops p.1 < rank ops p.2 ∧ r (ops.get p.1) (ops.get p.2)

/-- The places of the operations that are compared on a key, in the order of comparison. -/
def compared (key : Words) : List (Fin ops.length) :=
  ((List.finRange ops.length).filter fun i => (ops.get i).succeeded && (ops.get i).version.isSome
    && (ops.get i).key == key).mergeSort fun i j => inOrder (ops.get i) (ops.get j)

theorem rank_lt_iff {i j : Fin ops.length} : rank ops i < rank ops j ↔
    (ops.get i).start < (ops.get j).start ∨ (ops.get i).start = (ops.get j).start ∧
      ((ops.get i).finish < (ops.get j).finish ∨ (ops.get i).finish = (ops.get j).finish ∧
        ((ops.get i).id < (ops.get j).id ∨ (ops.get i).id = (ops.get j).id ∧ i < j)) := by
  simp only [rank, Prod.Lex.toLex_lt_toLex]

theorem rank_injective : Function.Injective (rank ops) := by
  intro i j hij
  simp only [rank, toLex_inj, Prod.mk.injEq] at hij
  exact hij.2.2.2

theorem versioned_eq_map (key : Words) :
    versioned (ops.filter fun op => op.key == key) = (compared ops key).map ops.get := by
  rw [versioned, List.filter_filter, filter_eq_map_get, compared,
    List.map_mergeSort (s := inOrder) fun _ _ _ _ => rfl]

theorem mem_compared {key : Words} {i : Fin ops.length} : i ∈ compared ops key ↔
    (ops.get i).succeeded ∧ (ops.get i).version.isSome ∧ (ops.get i).key = key := by
  simp [compared, and_assoc]

/-- Sorting keeps the places of equals in order, so that ranks rise along the list. -/
theorem pairwise_compared (key : Words) :
    (compared ops key).Pairwise fun i j => rank ops i < rank ops j := by
  have hplaces := (List.pairwise_lt_finRange ops.length).filter fun i =>
    (ops.get i).succeeded && (ops.get i).version.isSome && (ops.get i).key == key
  have hstable := pairwise_mergeSort_stable (fun i j => inOrder (ops.get i) (ops.get j))
    (fun _ _ _ => inOrder_trans) (fun _ _ => inOrder_total _ _) hplaces
  refine hstable.imp fun {i j} h => ?_
  obtain ⟨hij, htie⟩ := h
  rw [inOrder_iff] at hij htie
  rw [rank_lt_iff]
  omega

theorem mem_pairs_compared {key : Words} {p : Fin ops.length × Fin ops.length} :
    p ∈ pairs (compared ops key) ↔
      p.1 ∈ compared ops key ∧ p.2 ∈ compared ops key ∧ rank ops p.1 < rank ops p.2 := by
  rw [← pair_sublist_iff (fun _ _ => lt_asymm) (pairwise_compared ops key), ← mem_pairs]

theorem nodup_pairs_compared (key : Words) : (pairs (compared ops key)).Nodup :=
  nodup_pairs ((pairwise_compared ops key).imp fun h => ne_of_apply_ne (rank ops) h.ne)

/-- Of a relation between compared operations on one key, the keys together see every pair once. -/
theorem coe_flatMap_pairs (r : Operation → Operation → Prop) [DecidableRel r]
    (hr : ∀ t u, r t u → t.succeeded ∧ t.version.isSome ∧ u.succeeded ∧ u.version.isSome ∧
      t.key = u.key) :
    (((Words.distinct (ops.map (·.key))).flatMap fun key => (pairs (compared ops key)).filter
      fun p => r (ops.get p.1) (ops.get p.2) : List _) : Multiset _) = (rankedPairs ops r).val := by
  refine (Multiset.Nodup.ext ?_ (rankedPairs ops r).nodup).mpr fun p => ?_
  · refine nodup_flatMap_of_label (Words.nodup_distinct _)
      (fun key _ => (nodup_pairs_compared ops key).filter _) (fun p => (ops.get p.1).key) ?_
    intro key _ p hp
    have hp := (mem_pairs_compared ops).mp (List.mem_filter.mp hp).1
    exact ((mem_compared ops).mp hp.1).2.2
  · simp only [Multiset.mem_coe, List.mem_flatMap, List.mem_filter, mem_pairs_compared,
      mem_compared, decide_eq_true_eq, rankedPairs, Finset.mem_val, Finset.mem_filter,
      Finset.mem_univ, true_and, Words.mem_distinct, List.mem_map]
    constructor
    · rintro ⟨_, -, ⟨-, -, hlt⟩, hrel⟩
      exact ⟨hlt, hrel⟩
    · rintro ⟨hlt, hrel⟩
      obtain ⟨ht, hv, hu, hw, hkey⟩ := hr _ _ hrel
      exact ⟨_, ⟨_, List.get_mem _ p.1, rfl⟩, ⟨⟨ht, hv, rfl⟩, ⟨hu, hw, hkey.symm⟩, hlt⟩, hrel⟩

end Places

theorem filterMap_if {α β : Type} (p : α → Bool) (f : α → β) (l : List α) :
    (l.filterMap fun a => if p a then some (f a) else none) = (l.filter p).map f := by
  rw [← List.filterMap_eq_map', List.filterMap_filter]

theorem stale?_eq {key : Words} {t u : Operation} (ht : t.succeeded) (hu : u.succeeded)
    (htk : t.key = key) (huk : u.key = key) :
    stale? key t u = if Backwards t u then some (.staleOrder t.key t u) else none := by
  subst htk
  have hkey : t.key = u.key := huk.symm
  cases hv : t.version with
  | none => simp [stale?, Backwards, hv]
  | some v =>
    cases hw : u.version with
    | none => simp [stale?, Backwards, hv, hw]
    | some w => simp [stale?, Backwards, hv, hw, ht, hu, hkey]

theorem conflict_at_eq {key : Words} {t u : Operation} (ht : t.succeeded) (hu : u.succeeded)
    (htv : t.version.isSome) (huv : u.version.isSome) (htk : t.key = key) (huk : u.key = key)
    (v : Nat) :
    (if t.version == some v && u.version == some v then
      if t.value = u.value then none else some (Violation.writeConflict key v t u) else none) =
      if (t.version.getD 0 == v) && Conflict t u then
        some (.writeConflict t.key (t.version.getD 0) t u) else none := by
  subst htk
  obtain ⟨v₁, hv₁⟩ := Option.isSome_iff_exists.mp htv
  obtain ⟨v₂, hv₂⟩ := Option.isSome_iff_exists.mp huv
  have hconflict : Conflict t u ↔ v₁ = v₂ ∧ t.value ≠ u.value := by
    simp [Conflict, ht, hu, huk, hv₁, hv₂]
  simp only [hv₁, hv₂, hconflict, Option.some_beq_some, Option.getD_some]
  by_cases h₁ : v₁ = v
  · subst h₁
    by_cases h₂ : v₁ = v₂
    · by_cases hval : t.value = u.value <;> simp [h₂, hval]
    · simp [h₂, Ne.symm h₂]
  · simp [h₁]

section Places
variable (ops : List Operation)

theorem staleOrders_eq (key : Words) :
    staleOrders key (versioned (ops.filter fun op => op.key == key)) =
      ((pairs (compared ops key)).filter fun p => Backwards (ops.get p.1) (ops.get p.2)).map
        fun p => .staleOrder (ops.get p.1).key (ops.get p.1) (ops.get p.2) := by
  rw [staleOrders, versioned_eq_map, pairs_map, List.filterMap_map, ← filterMap_if]
  refine List.filterMap_congr fun p hp => ?_
  obtain ⟨hi, hj, -⟩ := (mem_pairs_compared ops).mp hp
  obtain ⟨ht, -, htk⟩ := (mem_compared ops).mp hi
  obtain ⟨hu, -, huk⟩ := (mem_compared ops).mp hj
  exact (stale?_eq ht hu htk huk).trans (by simp)

/-- The conflicts at a version are those among all conflicts on the key that are at the version. -/
theorem conflicts_at_eq (key : Words) (v : Nat) :
    ((pairs (((compared ops key).map ops.get).filter fun op => op.version == some v)).filterMap
      fun (first, second) => if first.value = second.value then none
        else some (Violation.writeConflict key v first second)) =
    (((pairs (compared ops key)).filter fun p => Conflict (ops.get p.1) (ops.get p.2)).filter
      fun p => (ops.get p.1).version.getD 0 == v).map fun p => .writeConflict (ops.get p.1).key
        ((ops.get p.1).version.getD 0) (ops.get p.1) (ops.get p.2) := by
  rw [List.filter_map, pairs_map, pairs_filter, List.filterMap_map, List.filterMap_filter,
    List.filter_filter, ← filterMap_if]
  refine List.filterMap_congr fun p hp => ?_
  obtain ⟨hi, hj, -⟩ := (mem_pairs_compared ops).mp hp
  obtain ⟨ht, htv, htk⟩ := (mem_compared ops).mp hi
  obtain ⟨hu, huv, huk⟩ := (mem_compared ops).mp hj
  exact conflict_at_eq ht hu htv huv htk huk v

theorem conflicts_perm (key : Words) :
    (conflicts key (versioned (ops.filter fun op => op.key == key))).Perm
      (((pairs (compared ops key)).filter fun p => Conflict (ops.get p.1) (ops.get p.2)).map
        fun p => .writeConflict (ops.get p.1).key ((ops.get p.1).version.getD 0)
          (ops.get p.1) (ops.get p.2)) := by
  rw [versioned_eq_map, conflicts]
  simp only [conflicts_at_eq]
  rw [← List.map_flatMap]
  refine (flatMap_filter_perm (nodup_versions _) (fun p : Fin ops.length × Fin ops.length =>
    (ops.get p.1).version.getD 0) fun p hp => ?_).map _
  obtain ⟨hi, -, -⟩ := (mem_pairs_compared ops).mp (List.mem_filter.mp hp).1
  obtain ⟨v, hv⟩ := Option.isSome_iff_exists.mp ((mem_compared ops).mp hi).2.1
  exact mem_versions.mpr ⟨_, List.mem_map.mpr ⟨p.1, hi, rfl⟩, by rw [hv, Option.getD_some]⟩

end Places

section Reads
variable (h : WriteHistory) (matchVersion : Bool)

theorem supports_iff (key value : Words) (version : Option Nat) :
    h.supports matchVersion key value version ↔
      ∃ w ∈ h.entries key, w.value = value ∧ (matchVersion → w.version = version) := by
  cases matchVersion <;>
    simp [WriteHistory.supports, WriteHistory.contains, WriteHistory.containsVersion]

theorem unsupported?_eq (op : Operation) :
    (if op.isRead && op.succeeded then unsupported? h matchVersion op else none) =
      if Unwritten h op then some (.unwrittenRead op)
      else if Unknown h matchVersion op then some (.unknownValue op) else none := by
  have hsupports := supports_iff h matchVersion op.key op.value op.version
  by_cases hread : op.isRead
  · by_cases hsucc : op.succeeded
    · by_cases hkey : h.isWritten op.key
      · by_cases hsup : h.supports matchVersion op.key op.value op.version
        · simp [unsupported?, Unwritten, Unknown, hread, hsucc, hkey, hsup, hsupports.mp hsup]
        · have hnone := hsupports.not.mp hsup
          simp [unsupported?, Unwritten, Unknown, hread, hsucc, hkey, hsup, hnone]
      · simp [unsupported?, Unwritten, hread, hsucc, hkey]
    · simp [Unwritten, Unknown, hsucc]
  · simp [Unwritten, Unknown, hread]

theorem unsupportedReads_eq (ops : List Operation) :
    unsupportedReads ops h matchVersion = ops.filterMap fun op =>
      if op.isRead && op.succeeded then unsupported? h matchVersion op else none :=
  List.filterMap_filter

theorem filterMap_perm_append {α β : Type} {f : α → Option β} {p q : α → Bool} {g k : α → β}
    (hf : ∀ a, f a = if p a then some (g a) else if q a then some (k a) else none)
    (hpq : ∀ a, p a → q a = false) (l : List α) :
    (l.filterMap f).Perm ((l.filter p).map g ++ (l.filter q).map k) := by
  induction l with
  | nil => exact .nil
  | cons a l ih =>
    by_cases hp : p a
    · simpa [hf, hp, hpq a hp] using ih
    · by_cases hq : q a
      · simpa [hf, hp, hq] using (ih.cons (k a)).trans List.perm_middle.symm
      · simpa [hf, hp, hq] using ih

theorem flatMap_unsupportedReads_perm (ops : List Operation) :
    ((Words.distinct (ops.map (·.key))).flatMap fun key =>
      unsupportedReads (ops.filter fun op => op.key == key) h matchVersion).Perm
      ((ops.filter fun op => Unwritten h op).map .unwrittenRead ++
        (ops.filter fun op => Unknown h matchVersion op).map .unknownValue) := by
  have hkeys : ∀ op ∈ ops, op.key ∈ Words.distinct (ops.map (·.key)) := fun op hop =>
    Words.mem_distinct.mpr (List.mem_map_of_mem hop)
  have hsplit := filterMap_perm_append (p := fun op => decide (Unwritten h op))
    (q := fun op => decide (Unknown h matchVersion op)) (g := .unwrittenRead) (k := .unknownValue)
    (fun op => (unsupported?_eq h matchVersion op).trans (by simp))
    (fun op hop => decide_eq_false fun hu => (of_decide_eq_true hop).2.2 hu.2.2.1) ops
  simp only [unsupportedReads_eq, ← List.filterMap_flatMap]
  exact ((flatMap_filter_perm (Words.nodup_distinct _) (·.key) hkeys).filterMap _).trans hsplit

end Reads

theorem coe_violations (ops : List Operation) (h : WriteHistory) (matchVersion : Bool) :
    (violations ops h matchVersion : Multiset Violation) =
      (rankedPairs ops Conflict).val.map (fun p => .writeConflict (ops.get p.1).key
        ((ops.get p.1).version.getD 0) (ops.get p.1) (ops.get p.2)) +
      (places ops (Unwritten h)).val.map (fun i => .unwrittenRead (ops.get i)) +
      (places ops (Unknown h matchVersion)).val.map (fun i => .unknownValue (ops.get i)) +
      (rankedPairs ops Backwards).val.map (fun p => .staleOrder (ops.get p.1).key
        (ops.get p.1) (ops.get p.2)) := by
  have hconflicts : (((Words.distinct (ops.map (·.key))).flatMap fun key => conflicts key
      (versioned (ops.filter fun op => op.key == key)) : List Violation) : Multiset Violation) =
      (rankedPairs ops Conflict).val.map fun p => .writeConflict (ops.get p.1).key
        ((ops.get p.1).version.getD 0) (ops.get p.1) (ops.get p.2) := by
    have hperm := List.Perm.flatMap_left (Words.distinct (ops.map (·.key)))
      fun key _ => conflicts_perm ops key
    rw [← List.map_flatMap] at hperm
    rw [Multiset.coe_eq_coe.mpr hperm, ← Multiset.map_coe, coe_flatMap_pairs]
    rintro t u ⟨ht, hu, hkey, hv, hvw, -⟩
    exact ⟨ht, hv, hu, hvw ▸ hv, hkey⟩
  have hstale : (((Words.distinct (ops.map (·.key))).flatMap fun key => staleOrders key
      (versioned (ops.filter fun op => op.key == key)) : List Violation) : Multiset Violation) =
      (rankedPairs ops Backwards).val.map fun p => .staleOrder (ops.get p.1).key
        (ops.get p.1) (ops.get p.2) := by
    simp only [staleOrders_eq]
    rw [← List.map_flatMap, ← Multiset.map_coe, coe_flatMap_pairs]
    rintro t u ⟨ht, hu, hkey, -, v, hv, w, hw, -⟩
    exact ⟨ht, Option.isSome_of_mem hv, hu, Option.isSome_of_mem hw, hkey⟩
  have hreads := flatMap_unsupportedReads_perm h matchVersion ops
  rw [filter_eq_map_get ops, filter_eq_map_get ops, List.map_map, List.map_map] at hreads
  have hsplit : (violations ops h matchVersion : Multiset Violation) = _ :=
    Multiset.coe_eq_coe.mpr ((List.flatMap_append_perm _ _ _).symm.trans
      ((List.flatMap_append_perm _ _ _).symm.append_right _))
  rw [← Multiset.coe_add, ← Multiset.coe_add, hconflicts, hstale,
    Multiset.coe_eq_coe.mpr hreads, ← Multiset.coe_add, ← Multiset.map_coe, ← Multiset.map_coe,
    ← add_assoc] at hsplit
  exact hsplit

/-- However tables are read out, an audit reports each conflict and each stale order once for its
pair of places, the lower rank first, each unsupported read once for its place, and nothing else. -/
theorem tabledAudit_exact (byKey : ReadOut Words Operation)
    (byVersion : Words → ReadOut Nat Operation) (ops : List Operation) (h : WriteHistory)
    (matchVersion : Bool) :
    tabledAudit byKey byVersion ops h matchVersion = audit ops h matchVersion ∧
    ((audit ops h matchVersion).violations : Multiset Violation) =
      (rankedPairs ops Conflict).val.map (fun p => .writeConflict (ops.get p.1).key
        ((ops.get p.1).version.getD 0) (ops.get p.1) (ops.get p.2)) +
      (places ops (Unwritten h)).val.map (fun i => .unwrittenRead (ops.get i)) +
      (places ops (Unknown h matchVersion)).val.map (fun i => .unknownValue (ops.get i)) +
      (rankedPairs ops Backwards).val.map (fun p => .staleOrder (ops.get p.1).key
        (ops.get p.1) (ops.get p.2)) :=
  ⟨tabledAudit_eq byKey byVersion ops h matchVersion, coe_violations ops h matchVersion⟩

end StoreAudit.Consistency
