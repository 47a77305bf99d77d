import StoreAudit.Operation
import StoreAudit.Stats.Latency

/-! What a record log tells about its operations. -/
namespace StoreAudit

/-- The quotient rounded down, or zero when there is nothing to divide by. -/
def ratioOrZero (a b : Nat) : Nat := a / b

/-- Counts of operations and of their outcomes, the latest finish, and the response times: their
sums, which are words, and each of them in the order of the operations. -/
structure Workload where
  reads : Nat := 0
  writes : Nat := 0
  successfulReads : Nat := 0
  successfulWrites : Nat := 0
  failedWrites : Nat := 0
  totalTime : Nat := 0
  readTime : Nat := 0
  writeTime : Nat := 0
  readLatencies : List Nat := []
  writeLatencies : List Nat := []
  deriving DecidableEq, Repr, Inhabited

namespace Workload

/-- One if the condition holds. -/
def one (condition : Bool) : Nat := if condition then 1 else 0

/-- The sum of the response times to the action. -/
def time (w : Workload) : Action → Nat
  | .read => w.readTime
  | .write => w.writeTime

/-- Counts the operation under its action and outcome. With it the sum of the response times to the
action is `time`. -/
def count (w : Workload) (op : Operation) (time : Nat) : Workload :=
  match op.action with
  | .read =>
    { w with
      reads := w.reads + 1
      readTime := time
      readLatencies := w.readLatencies ++ [op.latency]
      successfulReads := w.successfulReads + one (op.outcome == .success) }
  | .write =>
    { w with
      writes := w.writes + 1
      writeTime := time
      writeLatencies := w.writeLatencies ++ [op.latency]
      successfulWrites := w.successfulWrites + one (op.outcome == .success)
      failedWrites := w.failedWrites + one (op.outcome == .failure) }

/-- Takes the operation in, with which the sum of the response times to its action is `time`. -/
def extend (w : Workload) (op : Operation) (time : Nat) : Workload :=
  { w.count op time with totalTime := max w.totalTime op.finish }

def observe (w : Workload) (op : Operation) : Workload :=
  w.extend op (lowWord (w.time op.action + op.latency))

def ofOperations (ops : List Operation) : Workload := ops.foldl observe {}

/-- The workload with one more operation, unless the build stops at the sum of response times. -/
def observeIn? (b : Build) (w : Workload) (op : Operation) : Option Workload :=
  (b.word? (w.time op.action + op.latency)).map (w.extend op)

def ofOperationsIn? (b : Build) (ops : List Operation) : Option Workload :=
  ops.foldlM (observeIn? b) {}

/-- Writes of which nobody knows whether they happened. -/
def unknownWrites (w : Workload) : Nat := w.writes - w.successfulWrites - w.failedWrites

/-- The mean response time in whole milliseconds. -/
def meanReadMs (w : Workload) : Nat := ratioOrZero w.readTime (lowWord (1000 * w.reads))
def meanWriteMs (w : Workload) : Nat := ratioOrZero w.writeTime (lowWord (1000 * w.writes))

def readLatency? (w : Workload) : Option LatencySummary :=
  LatencySummary.ofLatencies? w.readLatencies
def writeLatency? (w : Workload) : Option LatencySummary :=
  LatencySummary.ofLatencies? w.writeLatencies

/-- The summary of the response times to the action, unless the build stops at it. -/
def latencyIn? (b : Build) (w : Workload) : Action → Option (Option LatencySummary)
  | .read => LatencySummary.ofLatenciesIn? b w.readLatencies
  | .write => LatencySummary.ofLatenciesIn? b w.writeLatencies

/-- A count, and in brackets the whole percentage that it is. -/
def share (part whole : Nat) : String :=
  toString part ++ " (" ++ toString (ratioOrZero (lowWord (100 * part)) whole) ++ "%)"

def reportLines (w : Workload) : List String :=
  ["Total time taken (milliseconds): " ++ toString (w.totalTime / 1000),
    toString w.reads ++ " reads and " ++ toString w.writes ++ " writes processed",
    "Average read response time (ms): " ++ toString w.meanReadMs,
    "Average write response time (ms): " ++ toString w.meanWriteMs,
    share w.successfulReads w.reads ++ " reads were successful",
    share w.successfulWrites w.writes ++ " writes were successful",
    toString w.unknownWrites ++ " writes have unknown response"]

/-- The report, each line with its line end. -/
def render (w : Workload) : String := String.join (w.reportLines.map (· ++ "\n"))

end Workload
end StoreAudit
