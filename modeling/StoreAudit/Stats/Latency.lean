import StoreAudit.Build
import StoreAudit.Decimal.Fixed

/-! Quantiles and means of response times. -/
namespace StoreAudit

/-- The `p`-th percentile of an ascending list: the member at the rank `length * p / 100`, or the
last one. -/
def percentile? (sorted : List Nat) (p : Nat) : Option Nat :=
  sorted[min (sorted.length * p / 100) (sorted.length - 1)]?

/-- The reported percentiles. -/
def reportedPercentiles : List Nat := [10, 50, 90, 95, 99]

/-- Response times in microseconds, summed up. The total is a word, and each percentile stands
beside its value. -/
structure LatencySummary where
  count : Nat
  total : Nat
  least : Nat
  greatest : Nat
  percentiles : List (Nat × Nat)
  deriving DecidableEq, Repr, Inhabited

namespace LatencySummary

/-- The summary of an ascending list with this total, if it has members. -/
def ofSorted? (sorted : List Nat) (total : Nat) : Option LatencySummary := do
  let least ← sorted.head?
  let greatest ← sorted.getLast?
  return {
    count := sorted.length
    total, least, greatest
    percentiles := reportedPercentiles.filterMap fun p => (percentile? sorted p).map (p, ·) }

def ascending (latencies : List Nat) : List Nat := latencies.mergeSort fun a b => decide (a ≤ b)

def ofLatencies? (latencies : List Nat) : Option LatencySummary :=
  ofSorted? (ascending latencies) (lowSum (ascending latencies))

/-- The summary, if there is one, unless the build stops at the total. -/
def ofLatenciesIn? (b : Build) (latencies : List Nat) : Option (Option LatencySummary) :=
  (b.sum? (ascending latencies)).map (ofSorted? (ascending latencies))

/-- The quotient of the nearest doubles. -/
def mean (s : LatencySummary) : Float := s.total.toFloat / s.count.toFloat

/-- The percentiles in milliseconds with two places. -/
def render (s : LatencySummary) : String :=
  " ".intercalate <| s.percentiles.map fun (p, latency) =>
    toString p ++ "th " ++ Decimal.fixed 2 (latency.toFloat / 1000)

end LatencySummary
end StoreAudit
