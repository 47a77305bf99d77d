import StoreAudit.Command.Run
import StoreAudit.Consistency.Audit
import StoreAudit.Json.Findings
import StoreAudit.Json.Message
import StoreAudit.Json.Printer
import StoreAudit.Json.Statistics
import StoreAudit.Log.RecordReader
import StoreAudit.Text.Lines

/-! Statistics and the audit of a record log. -/
namespace StoreAudit.Command
open Consistency

/-- The state after some lines of a record log. -/
structure RecordRun where
  reader : RecordReader := {}
  operations : List Operation := []
  faults : FaultCounts := {}
  deriving DecidableEq, Repr, Inhabited

namespace RecordRun

def observe (run : RecordRun) : LogLine → RecordRun
  | .record op => { run with operations := run.operations ++ [op] }
  | .fault mark => { run with faults := run.faults.observe mark }
  | .monitor _ => { run with faults := run.faults.observeMonitor }
  | .blank | .message _ | .passthrough _ => run

/-- The state after these lines, or the first failure. -/
def follow (run : RecordRun) : List (Option String) → Except Failure RecordRun
  | [] => .ok run
  | none :: _ => .error (.file .invalidText)
  | some line :: rest =>
    match run.reader.read line with
    | (.error e, _) => .error (.parse e)
    | (.ok classified, reader) => follow ({ run with reader }.observe classified) rest

end RecordRun

/-- What a record log tells about itself and about the store. -/
structure AnalysisReport where
  workload : Workload
  faults : FaultCounts
  consistency : Report
  deriving DecidableEq, Repr

namespace AnalysisReport

def ofRun (run : RecordRun) (matchVersion : Bool) : AnalysisReport where
  workload := .ofOperations run.operations
  faults := run.faults
  consistency := audit run.operations (.ofOperations run.operations) matchVersion

def toJson (r : AnalysisReport) : Json :=
  .obj [("operations", r.workload.toJson),
    ("read_latency", Json.ofOption LatencySummary.toJson r.workload.readLatency?),
    ("write_latency", Json.ofOption LatencySummary.toJson r.workload.writeLatency?),
    ("annotations", r.faults.toJson), ("consistency", r.consistency.toJson)]

/-- The percentiles of an action, if it was ever done. -/
def percentileLine (action : String) (summary : Option LatencySummary) : List String :=
  (summary.map fun s => action ++ " latency percentiles (ms): " ++ s.render).toList

/-- The workload, an empty line, and the result of the audit. Percentiles and violations stand
before and after the empty line if they are wanted. -/
def render (r : AnalysisReport) (percentiles verbose : Bool) : String :=
  r.workload.render ++
    (if percentiles then
      unlines (percentileLine "Read" r.workload.readLatency? ++
        percentileLine "Write" r.workload.writeLatency?)
    else "") ++
    "\n" ++
    (if verbose then unlines (r.consistency.violations.map Violation.render) else "") ++
    r.consistency.render

end AnalysisReport

/-- The analysis of a log in which each line that starts like a record has to be one. -/
def analyze (matchVersion percentiles verbose json : Bool) (log : ByteArray) :
    Run AnalysisReport :=
  match RecordRun.follow {} (Text.lines log) with
  | .error e => { out := "", result := .error e }
  | .ok run =>
    let report := AnalysisReport.ofRun run matchVersion
    { out := if json then report.toJson.render ++ "\n" else report.render percentiles verbose
      result := .ok report }

end StoreAudit.Command
