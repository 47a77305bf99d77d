import Mathlib.Data.List.Flatten
import StoreAudit.Proofs.Consistency.Keys

/-! An audit of fewer operations. What is found among some of the operations is found among all of
them, in the same order, so that less evidence makes no verdict worse. Operations that were not
successful are no evidence at all. -/
namespace StoreAudit

/-- More violations make no better verdict. -/
theorem Verdict.ofViolations_le_of_subset {vs ws : List Violation} (h : vs ⊆ ws) :
    ofViolations ws ≤ ofViolations vs := by
  have hrefutes : vs.any Violation.refutesEventual → ws.any Violation.refutesEventual := by
    rw [List.any_eq_true, List.any_eq_true]
    exact fun ⟨v, hv, hrefutes⟩ => ⟨v, h hv, hrefutes⟩
  have hempty : ws.isEmpty → vs.isEmpty := by
    rw [List.isEmpty_iff, List.isEmpty_iff]
    rintro rfl
    exact List.subset_nil.mp h
  unfold ofViolations
  revert hrefutes hempty
  cases vs.any Violation.refutesEventual <;> cases ws.any Violation.refutesEventual <;>
    cases vs.isEmpty <;> cases ws.isEmpty <;> decide

/-- Members that give nothing may be left out. -/
theorem flatMap_filter_of_eq_nil {α β : Type} {p : α → Bool} {f : α → List β} {l : List α}
    (h : ∀ a, p a = false → f a = []) : (l.filter p).flatMap f = l.flatMap f := by
  induction l with
  | nil => rfl
  | cons a l ih =>
    cases hp : p a with
    | true => simp [hp, ih]
    | false => simp [hp, ih, h a hp]

namespace Consistency
variable {sub ops : List Operation} {h : WriteHistory} {matchVersion : Bool}

theorem versioned_sublist (hsub : sub.Sublist ops) : (versioned sub).Sublist (versioned ops) :=
  mergeSort_sublist inOrder (fun _ _ _ => inOrder_trans) inOrder_total (hsub.filter _)

theorem conflicts_sublist (hsub : sub.Sublist ops) (key : Words) :
    (conflicts key sub).Sublist (conflicts key ops) := by
  have hversions : (versions sub).Sublist (versions ops) := versions_sublist hsub.subset
  refine (List.Sublist.flatMap_right _ fun version _ => ?_).trans (hversions.flatMap _)
  exact (pairs_sublist (hsub.filter _)).filterMap _

theorem unsupportedReads_sublist (hsub : sub.Sublist ops) :
    (unsupportedReads sub h matchVersion).Sublist (unsupportedReads ops h matchVersion) :=
  (hsub.filter _).filterMap _

theorem staleOrders_sublist (hsub : sub.Sublist ops) (key : Words) :
    (staleOrders key sub).Sublist (staleOrders key ops) :=
  (pairs_sublist hsub).filterMap _

theorem keyViolations_sublist (hsub : sub.Sublist ops) (key : Words) :
    (keyViolations key sub h matchVersion).Sublist (keyViolations key ops h matchVersion) := by
  have hversioned := versioned_sublist hsub
  exact ((conflicts_sublist hversioned key).append (unsupportedReads_sublist hsub)).append
    (staleOrders_sublist hversioned key)

theorem violations_sublist (hsub : sub.Sublist ops) :
    (violations sub h matchVersion).Sublist (violations ops h matchVersion) := by
  have hkeys := Words.distinct_sublist (hsub.map (·.key)).subset
  refine (List.Sublist.flatMap_right _ fun key _ => ?_).trans (hkeys.flatMap _)
  exact keyViolations_sublist (hsub.filter _) key

section Unsuccessful
variable (ops : List Operation)

/-- What takes in successful operations only does so as well from all operations. -/
theorem filter_filter_succeeded {p : Operation → Bool} (hp : ∀ op, p op → op.succeeded) :
    (ops.filter (·.succeeded)).filter p = ops.filter p := by
  rw [List.filter_filter]
  exact List.filter_congr fun op _ => Bool.and_eq_left_iff_imp.mpr (hp op)

theorem versioned_filter_succeeded : versioned (ops.filter (·.succeeded)) = versioned ops := by
  rw [versioned, filter_filter_succeeded ops fun op h => (Bool.and_eq_true_iff.mp h).1, versioned]

theorem keyViolations_filter_succeeded (key : Words) :
    keyViolations key (ops.filter (·.succeeded)) h matchVersion =
      keyViolations key ops h matchVersion := by
  have hreads : unsupportedReads (ops.filter (·.succeeded)) h matchVersion =
      unsupportedReads ops h matchVersion := by
    rw [unsupportedReads, filter_filter_succeeded ops fun op h => (Bool.and_eq_true_iff.mp h).2,
      unsupportedReads]
  rw [keyViolations, versioned_filter_succeeded, hreads, keyViolations]

theorem ofOperations_filter_succeeded :
    WriteHistory.ofOperations (ops.filter (·.succeeded)) = .ofOperations ops := by
  rw [WriteHistory.ofOperations, WriteHistory.ofOperations,
    filter_filter_succeeded ops fun op h => (Bool.and_eq_true_iff.mp h).2]

theorem keyViolations_nil (key : Words) : keyViolations key [] h matchVersion = [] := by
  simp [keyViolations, versioned, conflicts, versions, unsupportedReads, staleOrders, pairs]

/-- A key without successful operations has no violations. -/
theorem violations_filter_succeeded :
    violations (ops.filter (·.succeeded)) h matchVersion = violations ops h matchVersion := by
  let keys := (ops.filter (·.succeeded)).map (·.key)
  have hkeys : Words.distinct keys =
      (Words.distinct (ops.map (·.key))).filter fun key => key ∈ keys := by
    refine Words.distinct_eq_of_mem_iff ((Words.pairwise_distinct _).filter _) fun key => ?_
    rw [List.mem_filter, Words.mem_distinct, decide_eq_true_eq]
    exact and_iff_right_of_imp fun hkey => (List.filter_sublist.map _).subset hkey
  have hcommute (key : Words) : ((ops.filter (·.succeeded)).filter fun op => op.key == key) =
      (ops.filter fun op => op.key == key).filter (·.succeeded) := by
    rw [List.filter_filter, List.filter_filter]
    exact List.filter_congr fun op _ => Bool.and_comm ..
  have hnone (key : Words) (hkey : decide (key ∈ keys) = false) :
      keyViolations key (ops.filter fun op => op.key == key) h matchVersion = [] := by
    have hnil : (ops.filter fun op => op.key == key).filter (·.succeeded) = [] := by
      rw [← hcommute, List.filter_eq_nil_iff]
      intro op hop heq
      exact of_decide_eq_false hkey (List.mem_map.mpr ⟨op, hop, beq_iff_eq.mp heq⟩)
    rw [← keyViolations_filter_succeeded, hnil, keyViolations_nil]
  have hviolations : violations (ops.filter (·.succeeded)) h matchVersion =
      (Words.distinct keys).flatMap fun key =>
        keyViolations key (ops.filter fun op => op.key == key) h matchVersion :=
    List.flatMap_congr fun key _ => by rw [hcommute, keyViolations_filter_succeeded]
  rw [hviolations, hkeys, flatMap_filter_of_eq_nil hnone, violations]

/-- Operations that were not successful leave no trace in the report. -/
theorem audit_filter_succeeded :
    audit (ops.filter (·.succeeded)) (.ofOperations (ops.filter (·.succeeded))) matchVersion =
      audit ops (.ofOperations ops) matchVersion := by
  rw [audit, violations_filter_succeeded, ofOperations_filter_succeeded, audit]

end Unsuccessful

/-- If operations are left out, an audit against the same writes reports part of what it reports on
all of them, in the same order, and its verdict is no worse. If all successful operations are kept,
the audit against their own writes gives the same report. -/
theorem audit_of_sublist (hsub : sub.Sublist ops) (h : WriteHistory) (matchVersion : Bool) :
    (audit sub h matchVersion).violations.Sublist (audit ops h matchVersion).violations ∧
      (audit ops h matchVersion).verdict ≤ (audit sub h matchVersion).verdict ∧
      (sub.filter (·.succeeded) = ops.filter (·.succeeded) →
        audit sub (.ofOperations sub) matchVersion =
          audit ops (.ofOperations ops) matchVersion) := by
  have hviolations : (violations sub h matchVersion).Sublist (violations ops h matchVersion) :=
    violations_sublist hsub
  refine ⟨hviolations, Verdict.ofViolations_le_of_subset hviolations.subset, fun hkept => ?_⟩
  rw [← audit_filter_succeeded sub, hkept, audit_filter_succeeded]

/-- A write that failed between one that was carried out and a read of an older version, which
nobody wrote. -/
def withFailure : List Operation :=
  [⟨0, .write, [1], [7], 0, 1, some 2, .success⟩, ⟨1, .write, [1], [8], 2, 3, some 2, .failure⟩,
    ⟨2, .read, [1], [9], 4, 5, some 1, .success⟩]

theorem audit_of_sublist_withFailure :
    ((withFailure.take 2).Sublist withFailure ∧
      (audit withFailure (.ofOperations withFailure) true).verdict ≤
        (audit (withFailure.take 2) (.ofOperations withFailure) true).verdict) ∧
    ((withFailure.eraseIdx 1).Sublist withFailure ∧
      ((withFailure.eraseIdx 1).filter (·.succeeded) = withFailure.filter (·.succeeded)) ∧
      audit (withFailure.eraseIdx 1) (.ofOperations (withFailure.eraseIdx 1)) true =
        audit withFailure (.ofOperations withFailure) true) := by
  have hread : (withFailure.take 2).Sublist withFailure := List.take_sublist ..
  have hfailed : (withFailure.eraseIdx 1).Sublist withFailure := List.eraseIdx_sublist ..
  have hkept : (withFailure.eraseIdx 1).filter (·.succeeded) =
      withFailure.filter (·.succeeded) := rfl
  exact ⟨⟨hread, (audit_of_sublist hread (.ofOperations withFailure) true).2.1⟩,
    hfailed, hkept, (audit_of_sublist hfailed {} true).2.2 hkept⟩

end Consistency
end StoreAudit
