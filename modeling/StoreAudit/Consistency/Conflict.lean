import StoreAudit.Consistency.Pairs
import StoreAudit.Consistency.Violation

/-! One version holds one value. -/
namespace StoreAudit.Consistency

/-- The versions that occur, in ascending order. -/
def versions (ops : List Operation) : List Nat :=
  ((ops.filterMap (·.version)).mergeSort fun v w => decide (v ≤ w)).eraseReps

/-- The pairs of operations with the same version but different values, by version. Whether they
overlap in time does not matter. -/
def conflicts (key : Words) (ops : List Operation) : List Violation :=
  (versions ops).flatMap fun version =>
    (pairs (ops.filter fun op => op.version == some version)).filterMap fun (first, second) =>
      if first.value = second.value then none
      else some (.writeConflict key version first second)

end StoreAudit.Consistency
