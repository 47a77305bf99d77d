import StoreAudit.Consistency.Violation

/-! The result of an audit. -/
namespace StoreAudit.Consistency

/-- The violations by key, and what they amount to. -/
structure Report where
  verdict : Verdict
  violations : List Violation
  deriving DecidableEq, Repr

namespace Report

def ofViolations (violations : List Violation) : Report := ⟨.ofViolations violations, violations⟩

def conflicts (r : Report) : List Violation := r.violations.filter Violation.isConflict
def missingValues (r : Report) : List Violation := r.violations.filter Violation.isMissingValue
def staleOrders (r : Report) : List Violation := r.violations.filter Violation.isStaleOrder

/-- A line for each conflict, then the summary, each line with its line end. -/
def render (r : Report) : String :=
  String.join (r.conflicts.map fun _ => "Write conflict detected.\n") ++
    r.verdict.summaryLine ++ "\n"

end Report
end StoreAudit.Consistency
