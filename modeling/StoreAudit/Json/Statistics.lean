import StoreAudit.Json.Decode
import StoreAudit.Stats.Traffic
import StoreAudit.Stats.Workload

/-! Statistics as JSON. -/
namespace StoreAudit
open Json

def LatencySummary.toJson (s : LatencySummary) : Json :=
  .obj [("count", .nat s.count), ("mean", .real s.mean), ("min", .nat s.least),
    ("max", .nat s.greatest),
    ("percentiles", .arr (s.percentiles.map fun (p, latency) => nats [p, latency]))]

namespace Traffic

def memberNames : List String :=
  ["read_requests", "write_requests", "read_responses", "write_responses", "read_errors",
    "write_errors", "last_time", "read_latencies", "write_latencies"]

def toJson (t : Traffic) : Json :=
  .obj [("read_requests", .nat t.readRequests), ("write_requests", .nat t.writeRequests),
    ("read_responses", .nat t.readResponses), ("write_responses", .nat t.writeResponses),
    ("read_errors", .nat t.readErrors), ("write_errors", .nat t.writeErrors),
    ("last_time", .nat t.lastTime), ("read_latencies", nats t.readLatencies),
    ("write_latencies", nats t.writeLatencies)]

def ofJson? (v : Json) : Option Traffic := do
  let [readRequests, writeRequests, readResponses, writeResponses, readErrors, writeErrors,
    lastTime, readLatencies, writeLatencies] ← record? memberNames v | none
  return {
    readRequests := ← required nat? readRequests
    writeRequests := ← required nat? writeRequests
    readResponses := ← required nat? readResponses
    writeResponses := ← required nat? writeResponses
    readErrors := ← required nat? readErrors
    writeErrors := ← required nat? writeErrors
    lastTime := ← required nat? lastTime
    readLatencies := ← required words? readLatencies
    writeLatencies := ← required words? writeLatencies }

end Traffic

namespace Workload

def memberNames : List String :=
  ["reads", "writes", "successful_reads", "successful_writes", "failed_writes", "total_time",
    "read_time", "write_time"]

/-- The counts and sums. The single response times are left out. -/
def toJson (w : Workload) : Json :=
  .obj [("reads", .nat w.reads), ("writes", .nat w.writes),
    ("successful_reads", .nat w.successfulReads), ("successful_writes", .nat w.successfulWrites),
    ("failed_writes", .nat w.failedWrites), ("total_time", .nat w.totalTime),
    ("read_time", .nat w.readTime), ("write_time", .nat w.writeTime)]

def ofJson? (v : Json) : Option Workload := do
  let [reads, writes, successfulReads, successfulWrites, failedWrites, totalTime, readTime,
    writeTime] ← record? memberNames v | none
  return {
    reads := ← required nat? reads
    writes := ← required nat? writes
    successfulReads := ← required nat? successfulReads
    successfulWrites := ← required nat? successfulWrites
    failedWrites := ← required nat? failedWrites
    totalTime := ← required nat? totalTime
    readTime := ← required nat? readTime
    writeTime := ← required nat? writeTime }

end Workload
end StoreAudit
