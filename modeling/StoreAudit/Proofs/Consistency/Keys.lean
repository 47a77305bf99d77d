import StoreAudit.Proofs.Sorting
import StoreAudit.Proofs.WriteHistory

/-! Keys are audited apart. What an audit reports on a key shows only the operations on that key, and
its verdict is the least of the verdicts on the keys. -/
namespace StoreAudit

namespace Verdict

instance : Min Verdict := minOfLe

theorem ofViolations_append (vs ws : List Violation) :
    ofViolations (vs ++ ws) = min (ofViolations vs) (ofViolations ws) := by
  have hempty : (vs ++ ws).isEmpty = (vs.isEmpty && ws.isEmpty) := by cases vs <;> rfl
  unfold ofViolations
  rw [List.any_append, hempty]
  cases vs.any Violation.refutesEventual <;> cases ws.any Violation.refutesEventual <;>
    cases vs.isEmpty <;> cases ws.isEmpty <;> rfl

theorem ofViolations_flatMap {κ : Type} (keys : List κ) (f : κ → List Violation) :
    ofViolations (keys.flatMap f) = (keys.map fun key => ofViolations (f key)).foldr min .strong := by
  induction keys with
  | nil => rfl
  | cons key keys ih =>
    rw [List.flatMap_cons, ofViolations_append, ih, List.map_cons, List.foldr_cons]

end Verdict

namespace WriteHistory
variable (ops : List Operation) (key : Words)

theorem entries_ofOperations_filter :
    (ofOperations (ops.filter fun op => op.key == key)).entries key =
      (ofOperations ops).entries key := by
  rw [entries_ofOperations, entries_ofOperations, List.filter_filter]
  congr 1
  refine List.filter_congr fun op _ => ?_
  cases op.key == key <;> simp

theorem isWritten_ofOperations_filter :
    (ofOperations (ops.filter fun op => op.key == key)).isWritten key =
      (ofOperations ops).isWritten key := by
  rw [Bool.eq_iff_iff, kept_ofOperations _ key, kept_ofOperations _ key,
    entries_ofOperations_filter]

end WriteHistory

namespace Consistency
variable {ops : List Operation} {key : Words} {matchVersion : Bool}

/-- Reads of a key are held against what was written to that key. -/
theorem unsupportedReads_congr (matchVersion : Bool) {h h' : WriteHistory} (hkey : ∀ op ∈ ops, op.key = key)
    (hentries : h'.entries key = h.entries key) (hwritten : h'.isWritten key = h.isWritten key) :
    unsupportedReads ops h' matchVersion = unsupportedReads ops h matchVersion := by
  refine List.filterMap_congr fun op hop => ?_
  have hop : op.key = key := hkey op (List.mem_of_mem_filter hop)
  unfold unsupported? WriteHistory.supports WriteHistory.contains WriteHistory.containsVersion
  rw [hop, hentries, hwritten]

/-- The audit of the operations on a key, as if there were no others. -/
def auditKey (ops : List Operation) (matchVersion : Bool) (key : Words) : Report :=
  let onKey := ops.filter fun op => op.key == key
  audit onKey (.ofOperations onKey) matchVersion

theorem distinct_map_key_filter (hkey : key ∈ ops.map (·.key)) :
    Words.distinct ((ops.filter fun op => op.key == key).map (·.key)) = [key] := by
  refine Words.distinct_eq_of_mem_iff (List.pairwise_singleton _ key) fun k => ?_
  rw [List.mem_singleton, List.mem_map]
  constructor
  · rintro rfl
    obtain ⟨op, hop, rfl⟩ := List.mem_map.mp hkey
    exact ⟨op, List.mem_filter.mpr ⟨hop, beq_self_eq_true _⟩, rfl⟩
  · rintro ⟨op, hop, rfl⟩
    exact beq_iff_eq.mp (List.mem_filter.mp hop).2

theorem violations_auditKey (hkey : key ∈ ops.map (·.key)) :
    (auditKey ops matchVersion key).violations =
      keyViolations key (ops.filter fun op => op.key == key) (.ofOperations ops) matchVersion := by
  have honKey : ∀ op ∈ ops.filter fun op => op.key == key, op.key = key := fun op hop =>
    beq_iff_eq.mp (List.mem_filter.mp hop).2
  have hself : ((ops.filter fun op => op.key == key).filter fun op => op.key == key) =
      ops.filter fun op => op.key == key := List.filter_eq_self.mpr fun op hop =>
    (List.mem_filter.mp hop).2
  have hreads := unsupportedReads_congr matchVersion honKey
    (WriteHistory.entries_ofOperations_filter ops key)
    (WriteHistory.isWritten_ofOperations_filter ops key)
  change violations _ _ _ = _
  rw [violations, distinct_map_key_filter hkey, List.flatMap_singleton, hself, keyViolations,
    keyViolations, hreads]

/-- The report on a history is put together from those on its keys, in ascending order of the keys,
and its verdict is the least of theirs. -/
theorem audit_eq_auditKey (ops : List Operation) (matchVersion : Bool) :
    let keys := Words.distinct (ops.map (·.key))
    let report := audit ops (.ofOperations ops) matchVersion
    (keys.Pairwise fun v w => v.le w ∧ v ≠ w) ∧ (∀ key, key ∈ keys ↔ ∃ op ∈ ops, op.key = key) ∧
      report.violations = keys.flatMap (fun key => (auditKey ops matchVersion key).violations) ∧
      report.verdict =
        (keys.map fun key => (auditKey ops matchVersion key).verdict).foldr min .strong := by
  intro keys report
  have hviolations : report.violations =
      keys.flatMap fun key => (auditKey ops matchVersion key).violations := by
    refine List.flatMap_congr fun key hkey => ?_
    exact (violations_auditKey (Words.mem_distinct.mp hkey)).symm
  refine ⟨Words.pairwise_distinct _, fun key => ?_, hviolations, ?_⟩
  · rw [Words.mem_distinct, List.mem_map]
  · have hverdict : report.verdict = .ofViolations report.violations := rfl
    rw [hverdict, hviolations, Verdict.ofViolations_flatMap]
    rfl

end Consistency
end StoreAudit
