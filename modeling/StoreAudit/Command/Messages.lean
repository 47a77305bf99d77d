import StoreAudit.Command.Run
import StoreAudit.Consistency.Audit
import StoreAudit.Json.Findings
import StoreAudit.Json.Message
import StoreAudit.Json.Printer
import StoreAudit.Json.Statistics
import StoreAudit.Log.MessageReader
import StoreAudit.Text.Lines

/-! Statistics and the audit of a message log whose requests and responses are paired. -/
namespace StoreAudit.Command
open Consistency

/-- The state after some lines of a message log. -/
structure MessageRun where
  reader : MessageReader
  correlator : Correlator := {}
  faults : FaultCounts := {}
  deriving DecidableEq, Repr, Inhabited

namespace MessageRun

/-- Takes a classified line in, and tells what is to be echoed: the line itself unless it is a
message, and for a message the anomaly that it is. -/
def observe (run : MessageRun) (line : String) : LogLine → MessageRun × List String
  | .message m =>
    let (correlator, anomaly) := run.correlator.observe m
    let echo := match anomaly with
      | none => []
      | some (.unexpectedMessage name id time) =>
        [(Anomaly.unexpectedMessage name id time).render, line]
      | some a => [a.render]
    ({ run with correlator }, echo)
  | .fault mark => ({ run with faults := run.faults.observe mark }, [line])
  | .monitor _ => ({ run with faults := run.faults.observeMonitor }, [line])
  | .blank | .record _ | .passthrough _ => (run, [line])

/-- What is echoed of the lines from here on, and the state after them. -/
def follow (run : MessageRun) : List (Option String) → List String × Except Failure MessageRun
  | [] => ([], .ok run)
  | none :: _ => ([], .error (.file .invalidText))
  | some line :: rest =>
    match run.reader.read line with
    | (.error e, _) => ([], .error (.parse e))
    | (.ok classified, reader) =>
      let (run, echo) := { run with reader }.observe line classified
      let (out, result) := follow run rest
      (echo ++ out, result)

end MessageRun

/-- What a message log tells about itself. -/
structure MessageReport where
  traffic : Traffic
  faults : FaultCounts
  anomalies : List Anomaly
  unanswered : Nat
  deriving DecidableEq, Repr, Inhabited

namespace MessageReport

def ofRun (run : MessageRun) : MessageReport :=
  let c := run.correlator.finish
  { traffic := c.traffic, faults := run.faults, anomalies := c.anomalies,
    unanswered := c.unanswered }

def members (r : MessageReport) : List (String × Json) :=
  [("stats", r.traffic.toJson),
    ("read_latency", Json.ofOption LatencySummary.toJson r.traffic.readLatency?),
    ("write_latency", Json.ofOption LatencySummary.toJson r.traffic.writeLatency?),
    ("annotations", r.faults.toJson), ("anomalies", .arr (r.anomalies.map Anomaly.toJson)),
    ("unanswered", .nat r.unanswered)]

/-- Whether the build gets through the numbers of the report. Only as a text it has percentages. -/
def completesIn (b : Build) (json : Bool) (r : MessageReport) : Bool :=
  r.traffic.summedIn b && (json || r.traffic.printedIn b)

end MessageReport

/-- Statistics of a log in which every line has to be of a known kind. The echo goes before the
report, unless the report is JSON. -/
def stats (dialect? : Option Dialect) (json : Bool) (log : ByteArray) : Run MessageReport :=
  let start : MessageRun := { reader := { dialect?, policy := .strict } }
  let (echo, end?) := start.follow (Text.lines log)
  let echoed := if json then "" else unlines echo
  match end? with
  | .error e => { out := echoed, result := .error e }
  | .ok run =>
    let report := MessageReport.ofRun run
    let text := if json then Json.render (.obj report.members) ++ "\n" else report.traffic.render
    { out := echoed ++ text, result := .ok report }

/-- The statistics in a build, unless it stops at a number of the report. -/
def statsIn? (b : Build) (dialect? : Option Dialect) (json : Bool) (log : ByteArray) :
    Option (Run MessageReport) :=
  (stats dialect? json log).inBuild? (·.completesIn b json)

/-- What a message log tells about itself and about the store. -/
structure OracleReport where
  messages : MessageReport
  operations : Nat
  consistency : Report
  deriving DecidableEq, Repr

namespace OracleReport

def ofRun (run : MessageRun) (matchVersion : Bool) : OracleReport :=
  let ops := run.correlator.finish.operations
  { messages := .ofRun run
    operations := ops.length
    consistency := audit ops (.ofOperations ops) matchVersion }

def toJson (r : OracleReport) : Json :=
  .obj (r.messages.members ++
    [("operations", .nat r.operations), ("consistency", r.consistency.toJson)])

/-- The traffic, the anomalies, an empty line, and the result of the audit. -/
def render (r : OracleReport) : String :=
  r.messages.traffic.render ++ unlines (r.messages.anomalies.map Anomaly.render) ++ "\n" ++
    r.consistency.render

end OracleReport

/-- The audit of the operations that the messages make up. Unknown lines are skipped. -/
def oracle (dialect? : Option Dialect) (matchVersion json : Bool) (log : ByteArray) :
    Run OracleReport :=
  match (MessageRun.follow { reader := { dialect? } } (Text.lines log)).2 with
  | .error e => { out := "", result := .error e }
  | .ok run =>
    let report := OracleReport.ofRun run matchVersion
    { out := if json then report.toJson.render ++ "\n" else report.render
      result := .ok report }

/-- The audit in a build, unless it stops at a number of the report. -/
def oracleIn? (b : Build) (dialect? : Option Dialect) (matchVersion json : Bool) (log : ByteArray) :
    Option (Run OracleReport) :=
  (oracle dialect? matchVersion json log).inBuild? (·.messages.completesIn b json)

end StoreAudit.Command
