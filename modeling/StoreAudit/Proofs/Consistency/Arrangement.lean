import Mathlib.Data.List.Nodup
import StoreAudit.Proofs.Consistency.Membership

/-! In which order operations are given to an audit. If they start at different times, this shows
only in the order of the unsupported reads on a key, which are reported as they come. -/
namespace StoreAudit

theorem Words.distinct_eq_of_perm {ws ws' : List Words} (hperm : ws'.Perm ws) :
    distinct ws' = distinct ws :=
  distinct_eq_of_mem_iff (pairwise_distinct ws) fun _ => mem_distinct.trans hperm.mem_iff.symm

/-- Where each label has as much in the one list as in the other, the lists are the same only if
they are for each label. -/
theorem flatMap_inj_of_length_eq {κ α : Type} {keys : List κ} {f g : κ → List α}
    (hlength : ∀ k ∈ keys, (f k).length = (g k).length) :
    keys.flatMap f = keys.flatMap g ↔ ∀ k ∈ keys, f k = g k := by
  constructor
  · intro heq
    induction keys with
    | nil => exact nofun
    | cons k keys ih =>
      rw [List.flatMap_cons, List.flatMap_cons] at heq
      obtain ⟨hk, hkeys⟩ := List.append_inj heq (hlength k (List.mem_cons_self ..))
      have hrest := ih (fun l hl => hlength l (List.mem_cons_of_mem k hl)) hkeys
      exact List.forall_mem_cons.mpr ⟨hk, hrest⟩
  · exact List.flatMap_congr

namespace Consistency
variable {ops ops' : List Operation} {h : WriteHistory} {matchVersion : Bool}

/-- Operations that start at different times are sorted in one way only. -/
theorem versioned_eq_of_perm (hperm : ops'.Perm ops) (hstarts : (ops.map (·.start)).Nodup) :
    versioned ops' = versioned ops := by
  have htrans (t u s : Operation) : inOrder t u → inOrder u s → inOrder t s := inOrder_trans
  have hsorted (l : List Operation) : (versioned l).Pairwise fun t u => inOrder t u :=
    List.pairwise_mergeSort htrans inOrder_total _
  have hsame : (versioned ops').Perm (versioned ops) :=
    (List.mergeSort_perm ..).trans ((hperm.filter _).trans (List.mergeSort_perm ..).symm)
  refine hsame.eq_of_pairwise (fun t u ht hu htu hut => ?_) (hsorted ops') (hsorted ops)
  have hmem {t : Operation} (ht : t ∈ versioned ops) : t ∈ ops :=
    (List.mem_filter.mp (List.mem_mergeSort.mp ht)).1
  have hstart : t.start = u.start := by
    rw [inOrder_iff] at htu hut
    omega
  exact List.inj_on_of_nodup_map hstarts (hmem (hsame.mem_iff.mp ht)) (hmem hu) hstart

/-- Whether the operations on a key are given in another order shows only in its unsupported
reads. -/
theorem keyViolations_of_perm (hperm : ops'.Perm ops) (hstarts : (ops.map (·.start)).Nodup)
    (key : Words) :
    keyViolations key (ops'.filter fun op => op.key == key) h matchVersion =
      conflicts key (versioned (ops.filter fun op => op.key == key)) ++
        unsupportedReads (ops'.filter fun op => op.key == key) h matchVersion ++
        staleOrders key (versioned (ops.filter fun op => op.key == key)) := by
  have hkey : ((ops.filter fun op => op.key == key).map (·.start)).Nodup :=
    hstarts.sublist (List.filter_sublist.map _)
  rw [keyViolations, versioned_eq_of_perm (hperm.filter _) hkey]

theorem unsupportedReads_perm (hperm : ops'.Perm ops) :
    (unsupportedReads ops' h matchVersion).Perm (unsupportedReads ops h matchVersion) :=
  (hperm.filter _).filterMap _

theorem violations_of_perm (hperm : ops'.Perm ops) (hstarts : (ops.map (·.start)).Nodup) :
    violations ops' h matchVersion = (Words.distinct (ops.map (·.key))).flatMap fun key =>
      conflicts key (versioned (ops.filter fun op => op.key == key)) ++
        unsupportedReads (ops'.filter fun op => op.key == key) h matchVersion ++
        staleOrders key (versioned (ops.filter fun op => op.key == key)) := by
  rw [violations, Words.distinct_eq_of_perm (hperm.map _)]
  exact List.flatMap_congr fun key _ => keyViolations_of_perm hperm hstarts key

theorem violations_perm (hperm : ops'.Perm ops) (hstarts : (ops.map (·.start)).Nodup) :
    (violations ops' h matchVersion).Perm (violations ops h matchVersion) := by
  rw [violations_of_perm hperm hstarts, violations]
  exact List.Perm.flatMap_left _ fun key _ =>
    ((unsupportedReads_perm (hperm.filter _)).append_left _).append_right _

theorem violations_eq_iff_of_perm (hperm : ops'.Perm ops) (hstarts : (ops.map (·.start)).Nodup) :
    violations ops' h matchVersion = violations ops h matchVersion ↔
      ∀ key, (ops'.filter fun op => op.key == key && Unsupported h matchVersion op) =
        ops.filter fun op => op.key == key && Unsupported h matchVersion op := by
  have hfilter (l : List Operation) (key : Words) :
      (l.filter fun op => op.key == key && Unsupported h matchVersion op) =
        (l.filter fun op => op.key == key).filter fun op => Unsupported h matchVersion op := by
    rw [List.filter_filter]
    exact List.filter_congr fun op _ => Bool.and_comm ..
  have hreads (key : Words) :
      unsupportedReads (ops'.filter fun op => op.key == key) h matchVersion =
        unsupportedReads (ops.filter fun op => op.key == key) h matchVersion ↔
      (ops'.filter fun op => op.key == key && Unsupported h matchVersion op) =
        ops.filter fun op => op.key == key && Unsupported h matchVersion op := by
    rw [unsupportedReads_eq_map, unsupportedReads_eq_map, hfilter, hfilter]
    exact (List.map_injective_iff.mpr (missing_injective h)).eq_iff
  rw [violations_of_perm hperm hstarts, violations, flatMap_inj_of_length_eq]
  · simp only [keyViolations, List.append_cancel_right_eq, List.append_cancel_left_eq, hreads]
    refine ⟨fun hkeys key => ?_, fun hkeys key _ => hkeys key⟩
    by_cases hkey : key ∈ Words.distinct (ops.map (·.key))
    · exact hkeys key hkey
    · rw [Words.mem_distinct, List.mem_map] at hkey
      have hother {op : Operation} (hop : op ∈ ops) : op.key ≠ key := fun heq => hkey ⟨op, hop, heq⟩
      rw [List.filter_eq_nil_iff.mpr, List.filter_eq_nil_iff.mpr]
      · intro op hop
        simp [hother hop]
      · intro op hop
        simp [hother (hperm.mem_iff.mp hop)]
  · intro key _
    rw [keyViolations, List.length_append, List.length_append, List.length_append,
      List.length_append, (unsupportedReads_perm (hperm.filter _)).length_eq]

theorem ofViolations_eq_of_perm {vs vs' : List Violation} (hperm : vs'.Perm vs) :
    Verdict.ofViolations vs' = Verdict.ofViolations vs := by
  unfold Verdict.ofViolations
  rw [hperm.any_eq, hperm.isEmpty_eq]

/-- Of violations of another kind than unsupported reads, the report does not show how the
operations were arranged. -/
theorem filter_violations_of_perm (hperm : ops'.Perm ops) (hstarts : (ops.map (·.start)).Nodup)
    {p : Violation → Bool} (hp : ∀ v, v.isMissingValue → p v = false) :
    (violations ops' h matchVersion).filter p = (violations ops h matchVersion).filter p := by
  have hnone (l : List Operation) : (unsupportedReads l h matchVersion).filter p = [] := by
    rw [unsupportedReads_eq_map, List.filter_eq_nil_iff]
    rintro v hv
    obtain ⟨op, -, rfl⟩ := List.mem_map.mp hv
    rw [hp _ (isMissingValue_missing h op)]
    exact Bool.false_ne_true
  rw [violations_of_perm hperm hstarts, violations, List.filter_flatMap, List.filter_flatMap]
  simp only [keyViolations, List.filter_append, hnone]

/-- If operations start at different times, an audit gives the same verdict in whatever order they
come, and the same conflicts and stale orders in the same order. It gives the same report exactly if
on each key the unsupported reads come in the same order. -/
theorem audit_eq_iff_of_perm (hperm : ops'.Perm ops) (hstarts : (ops.map (·.start)).Nodup)
    (h : WriteHistory) (matchVersion : Bool) :
    let report := audit ops h matchVersion
    let report' := audit ops' h matchVersion
    report'.verdict = report.verdict ∧ report'.conflicts = report.conflicts ∧
      report'.staleOrders = report.staleOrders ∧
      report'.missingValues.Perm report.missingValues ∧
      (report' = report ↔ ∀ key,
        (ops'.filter fun op => op.key == key && Unsupported h matchVersion op) =
          ops.filter fun op => op.key == key && Unsupported h matchVersion op) := by
  intro report report'
  have hviolations : (violations ops' h matchVersion).Perm (violations ops h matchVersion) :=
    violations_perm hperm hstarts
  refine ⟨?_, ?_, ?_, hviolations.filter _, ?_⟩
  · exact ofViolations_eq_of_perm hviolations
  · refine filter_violations_of_perm hperm hstarts fun v hv => ?_
    cases v with
    | unwrittenRead read => rfl
    | unknownValue read => rfl
    | writeConflict key version first second => exact absurd hv Bool.false_ne_true
    | staleOrder key earlier later => rfl
  · refine filter_violations_of_perm hperm hstarts fun v hv => ?_
    cases v with
    | unwrittenRead read => rfl
    | unknownValue read => rfl
    | writeConflict key version first second => rfl
    | staleOrder key earlier later => exact absurd hv Bool.false_ne_true
  · rw [← violations_eq_iff_of_perm hperm hstarts]
    exact ⟨fun heq => congrArg Report.violations heq, fun heq => congrArg Report.ofViolations heq⟩

/-- Conflicting writes, the later one first, and a read of a key that was never written. -/
def mixed : List Operation :=
  [⟨1, .write, [1], [8], 5, 6, some 1, .success⟩, ⟨0, .write, [1], [7], 2, 4, some 1, .success⟩,
    ⟨2, .read, [2], [7], 3, 9, none, .success⟩]

theorem audit_reverse_mixed : mixed.reverse.Perm mixed ∧ (mixed.map (·.start)).Nodup ∧
    audit mixed.reverse (.ofOperations mixed) true = audit mixed (.ofOperations mixed) true := by
  have hperm : mixed.reverse.Perm mixed := List.reverse_perm mixed
  have hstarts : (mixed.map (·.start)).Nodup := by decide
  have hreads : (mixed.reverse.filter fun op => Unsupported (.ofOperations mixed) true op) =
      mixed.filter fun op => Unsupported (.ofOperations mixed) true op := by decide
  have hresult := audit_eq_iff_of_perm hperm hstarts (.ofOperations mixed) true
  refine ⟨hperm, hstarts, hresult.2.2.2.2.mpr fun key => ?_⟩
  rw [← List.filter_filter, ← List.filter_filter, hreads]

/-- Two reads of a key that was never written, the later one first. -/
def lateFirst : List Operation :=
  [⟨1, .read, [1], [8], 5, 6, none, .success⟩, ⟨0, .read, [1], [7], 2, 4, none, .success⟩]

theorem audit_lateFirst_ne : lateFirst.reverse.Perm lateFirst ∧
    (lateFirst.map (·.start)).Nodup ∧
    audit lateFirst.reverse (.ofOperations lateFirst) true ≠
      audit lateFirst (.ofOperations lateFirst) true := by
  have hperm : lateFirst.reverse.Perm lateFirst := List.reverse_perm lateFirst
  refine ⟨hperm, by decide, fun heq => ?_⟩
  have hviolations := congrArg Report.violations heq
  have hreads := (violations_eq_iff_of_perm hperm (by decide)).mp hviolations [1]
  exact absurd hreads (by decide)

end Consistency
end StoreAudit
