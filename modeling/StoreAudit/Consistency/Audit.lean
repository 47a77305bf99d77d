import StoreAudit.Consistency.Conflict
import StoreAudit.Consistency.Membership
import StoreAudit.Consistency.RealTime
import StoreAudit.Consistency.Report

/-! The audit of a whole history, one key after the other. -/
namespace StoreAudit.Consistency

/-- By start, then finish, then id. -/
def inOrder (op next : Operation) : Bool :=
  op.start < next.start ||
    op.start == next.start &&
      (op.finish < next.finish || op.finish == next.finish && op.id ≤ next.id)

/-- The successful operations that carry a version, in order. Equals keep their places. -/
def versioned (ops : List Operation) : List Operation :=
  (ops.filter fun op => op.succeeded && op.version.isSome).mergeSort inOrder

/-- The violations of the operations on one key. -/
def keyViolations (key : Words) (ops : List Operation) (h : WriteHistory) (matchVersion : Bool) :
    List Violation :=
  conflicts key (versioned ops) ++ unsupportedReads ops h matchVersion ++
    staleOrders key (versioned ops)

/-- The violations of all keys, in ascending order of the keys. -/
def violations (ops : List Operation) (h : WriteHistory) (matchVersion : Bool) : List Violation :=
  (Words.distinct (ops.map (·.key))).flatMap fun key =>
    keyViolations key (ops.filter fun op => op.key == key) h matchVersion

/-- Judges the operations against the writes in `h`. With `matchVersion` a read has to carry the
version of the write that it observed. -/
def audit (ops : List Operation) (h : WriteHistory) (matchVersion : Bool) : Report :=
  .ofViolations (violations ops h matchVersion)

end StoreAudit.Consistency
