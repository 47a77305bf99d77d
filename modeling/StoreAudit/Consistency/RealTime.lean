import StoreAudit.Consistency.Pairs
import StoreAudit.Consistency.Violation

/-! Versions do not fall along real time. -/
namespace StoreAudit.Consistency

/-- The violation that two operations are if the first was over before the second began and yet
has the newer version. Operations without a version are not compared. -/
def stale? (key : Words) (earlier later : Operation) : Option Violation :=
  match earlier.version, later.version with
  | some v, some w =>
    if earlier.Precedes later ∧ w < v then some (.staleOrder key earlier later) else none
  | _, _ => none

/-- The stale pairs among operations that are given by their start. -/
def staleOrders (key : Words) (ops : List Operation) : List Violation :=
  (pairs ops).filterMap fun (earlier, later) => stale? key earlier later

end StoreAudit.Consistency
