import StoreAudit.Decimal.Layout
import StoreAudit.Message
import StoreAudit.Stats.Latency

/-! What a message log tells about its requests and responses. -/
namespace StoreAudit

/-- Counts of requests, responses and failed responses of either action, the latest time seen,
and the response times in the order of their responses. -/
structure Traffic where
  readRequests : Nat := 0
  writeRequests : Nat := 0
  readResponses : Nat := 0
  writeResponses : Nat := 0
  readErrors : Nat := 0
  writeErrors : Nat := 0
  lastTime : Nat := 0
  readLatencies : List Nat := []
  writeLatencies : List Nat := []
  deriving DecidableEq, Repr, Inhabited

namespace Traffic

/-- Counts the message under its purpose. -/
def count (t : Traffic) (m : Message) : Traffic :=
  let errors := if m.ok then 0 else 1
  match m.purpose with
  | .request .read => { t with readRequests := t.readRequests + 1 }
  | .request .write => { t with writeRequests := t.writeRequests + 1 }
  | .response .read =>
    { t with readResponses := t.readResponses + 1, readErrors := t.readErrors + errors }
  | .response .write =>
    { t with writeResponses := t.writeResponses + 1, writeErrors := t.writeErrors + errors }
  | .other _ => t

def observe (t : Traffic) (m : Message) : Traffic :=
  { t.count m with lastTime := max t.lastTime m.time }

def observeLatency (t : Traffic) (action : Action) (latency : Nat) : Traffic :=
  match action with
  | .read => { t with readLatencies := t.readLatencies ++ [latency] }
  | .write => { t with writeLatencies := t.writeLatencies ++ [latency] }

/-- As many responses to reads as requests for them. -/
def readsBalanced (t : Traffic) : Bool := t.readRequests == t.readResponses
def writesBalanced (t : Traffic) : Bool := t.writeRequests == t.writeResponses

def readLatency? (t : Traffic) : Option LatencySummary :=
  LatencySummary.ofLatencies? t.readLatencies
def writeLatency? (t : Traffic) : Option LatencySummary :=
  LatencySummary.ofLatencies? t.writeLatencies

/-- The summary of the response times to the action, unless the build stops at it. -/
def latencyIn? (b : Build) (t : Traffic) : Action → Option (Option LatencySummary)
  | .read => LatencySummary.ofLatenciesIn? b t.readLatencies
  | .write => LatencySummary.ofLatenciesIn? b t.writeLatencies

/-- A line if the condition holds. -/
def lineIf (condition : Bool) (line : String) : List String := if condition then [line] else []

/-- How many of the responses were errors, if there were any. -/
def errorLine (actions : String) (errors responses : Nat) : List String :=
  lineIf (0 < responses) <|
    toString errors ++ " responses to " ++ actions ++ " were errors (" ++
      Decimal.figure.render ((lowWord (100 * errors)).toFloat / responses.toFloat) ++ "%)"

def meanLine (action : String) (summary : Option LatencySummary) : List String :=
  (summary.map fun s =>
    "Mean " ++ action ++ " response time (microseconds): " ++ Decimal.figure.render s.mean).toList

def reportLines (t : Traffic) : List String :=
  ["Time taken (milliseconds): " ++ Decimal.figure.render (t.lastTime.toFloat / 1000),
    toString t.readResponses ++ " reads and " ++ toString t.writeResponses ++
      " writes responded to"] ++
    lineIf (!t.readsBalanced)
      "ERROR: Number of read responses does not match number of requests" ++
    lineIf (!t.writesBalanced)
      "ERROR: Number of write responses does not match number of requests" ++
    errorLine "reads" t.readErrors t.readResponses ++
    errorLine "writes" t.writeErrors t.writeResponses ++
    meanLine "read" t.readLatency? ++ meanLine "write" t.writeLatency?

/-- The report, each line with its line end. -/
def render (t : Traffic) : String := String.join (t.reportLines.map (· ++ "\n"))

/-- Whether the build gets through the summaries. -/
def summedIn (b : Build) (t : Traffic) : Bool :=
  (t.latencyIn? b .read).isSome && (t.latencyIn? b .write).isSome

/-- Whether the build gets through the percentages of the report. -/
def printedIn (b : Build) (t : Traffic) : Bool :=
  (b.word? (100 * t.readErrors)).isSome && (b.word? (100 * t.writeErrors)).isSome

end Traffic
end StoreAudit
