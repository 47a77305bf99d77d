import StoreAudit.Proofs.Consistency.Verdict

/-! The successful reads that a history does not support, and what an audit reports of them. -/
namespace StoreAudit

namespace WriteHistory
variable {h : WriteHistory} {matchVersion : Bool} {key value : Words} {version : Option Nat}

theorem isWritten_of_supports (hsup : h.supports matchVersion key value version) :
    h.isWritten key := by
  obtain ⟨w, hw, -⟩ := (Consistency.supports_iff h matchVersion key value version).mp hsup
  unfold entries at hw
  unfold isWritten
  cases hlookup : h.buckets.lookup key with
  | none => simp [hlookup] at hw
  | some bucket => rfl

theorem not_supports_iff : ¬ h.supports matchVersion key value version ↔
    ¬ h.isWritten key ∨ h.isWritten key ∧ ¬ h.supports matchVersion key value version := by
  constructor
  · intro hsup
    by_cases hkey : h.isWritten key
    · exact .inr ⟨hkey, hsup⟩
    · exact .inl hkey
  · rintro (hkey | ⟨-, hsup⟩)
    · exact fun hsup => hkey (isWritten_of_supports hsup)
    · exact hsup

end WriteHistory

namespace Consistency
variable {ops : List Operation} {h : WriteHistory} {matchVersion : Bool}

/-- A successful read that the history does not support. -/
def Unsupported (h : WriteHistory) (matchVersion : Bool) (read : Operation) : Prop :=
  Unwritten h read ∨ Unknown h matchVersion read

instance (h : WriteHistory) (matchVersion : Bool) : DecidablePred (Unsupported h matchVersion) :=
  fun _ => inferInstanceAs (Decidable (_ ∨ _))

theorem unsupported_iff {read : Operation} : Unsupported h matchVersion read ↔
    read.succeeded ∧ read.isRead ∧
      ¬ h.supports matchVersion read.key read.value read.version := by
  rw [WriteHistory.not_supports_iff, Unsupported, Unwritten, Unknown, ← supports_iff]
  rw [← and_or_left, ← and_or_left]

/-- What is reported of an unsupported read. -/
def missing (h : WriteHistory) (read : Operation) : Violation :=
  if Unwritten h read then .unwrittenRead read else .unknownValue read

theorem missing_injective (h : WriteHistory) : Function.Injective (missing h) := by
  intro t u htu
  unfold missing at htu
  split_ifs at htu <;> simpa using htu

theorem isMissingValue_missing (h : WriteHistory) (read : Operation) :
    (missing h read).isMissingValue := by
  unfold missing
  split_ifs <;> rfl

theorem unsupportedReads_eq_map (ops : List Operation) : unsupportedReads ops h matchVersion =
    (ops.filter fun op => Unsupported h matchVersion op).map (missing h) := by
  rw [unsupportedReads_eq, ← filterMap_if]
  refine List.filterMap_congr fun op _ => ?_
  rw [unsupported?_eq]
  by_cases hunwritten : Unwritten h op
  · simp [Unsupported, missing, hunwritten]
  · by_cases hunknown : Unknown h matchVersion op <;>
      simp [Unsupported, missing, hunwritten, hunknown]

/-- An audit misses no value exactly if the history supports every successful read. -/
theorem missingValues_eq_nil_iff : (audit ops h matchVersion).missingValues = [] ↔
    ∀ read ∈ ops, ¬ Unsupported h matchVersion read := by
  unfold Report.missingValues
  rw [List.filter_eq_nil_iff]
  constructor
  · rintro hno read hmem (hunwritten | hunknown)
    all_goals obtain ⟨i, rfl⟩ := List.get_of_mem hmem
    · have hi : i ∈ places ops (Unwritten h) :=
        Finset.mem_filter.mpr ⟨Finset.mem_univ i, hunwritten⟩
      exact hno _ (mem_violations.mpr (.inr (.inl ⟨i, hi, rfl⟩))) rfl
    · have hi : i ∈ places ops (Unknown h matchVersion) :=
        Finset.mem_filter.mpr ⟨Finset.mem_univ i, hunknown⟩
      exact hno _ (mem_violations.mpr (.inr (.inr (.inl ⟨i, hi, rfl⟩)))) rfl
  · rintro hno v hv
    rcases mem_violations.mp hv with ⟨p, -, rfl⟩ | ⟨i, hi, -⟩ | ⟨i, hi, -⟩ | ⟨p, -, rfl⟩
    · exact Bool.false_ne_true
    · exact absurd (.inl (Finset.mem_filter.mp hi).2) (hno _ (List.get_mem ops i))
    · exact absurd (.inr (Finset.mem_filter.mp hi).2) (hno _ (List.get_mem ops i))
    · exact Bool.false_ne_true

theorem refutesEventual_iff {v : Violation} :
    v.refutesEventual ↔ v.isConflict ∨ v.isMissingValue := by
  cases v <;> simp [Violation.refutesEventual, Violation.isConflict, Violation.isMissingValue]

/-- The report refutes eventual consistency exactly if it holds a conflict or a missing value. -/
theorem verdict_audit_eq_neither_iff : (audit ops h matchVersion).verdict = .neither ↔
    (audit ops h matchVersion).conflicts ≠ [] ∨ (audit ops h matchVersion).missingValues ≠ [] := by
  have hverdict : (audit ops h matchVersion).verdict = .neither ↔
      ∃ v ∈ violations ops h matchVersion, v.refutesEventual := by
    unfold audit Report.ofViolations Verdict.ofViolations
    split_ifs <;> simp_all
  rw [hverdict]
  constructor
  · rintro ⟨v, hv, hrefutes⟩
    refine (refutesEventual_iff.mp hrefutes).imp (fun hconflict => ?_) (fun hmissing => ?_)
    · exact List.ne_nil_of_mem (List.mem_filter.mpr ⟨hv, hconflict⟩)
    · exact List.ne_nil_of_mem (List.mem_filter.mpr ⟨hv, hmissing⟩)
  · rintro (hconflicts | hmissing)
    · obtain ⟨v, hv⟩ := List.exists_mem_of_ne_nil _ hconflicts
      obtain ⟨hv, hconflict⟩ := List.mem_filter.mp hv
      exact ⟨v, hv, refutesEventual_iff.mpr (.inl hconflict)⟩
    · obtain ⟨v, hv⟩ := List.exists_mem_of_ne_nil _ hmissing
      obtain ⟨hv, hmissing⟩ := List.mem_filter.mp hv
      exact ⟨v, hv, refutesEventual_iff.mpr (.inr hmissing)⟩

end Consistency
end StoreAudit
