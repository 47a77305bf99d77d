import StoreAudit.Fault
import StoreAudit.Json.Decode
import StoreAudit.Message

/-! Messages and fault marks as JSON. -/
namespace StoreAudit
open Json

namespace Purpose

def spellings : List (String × Purpose) :=
  [("ReadRequest", .request .read), ("WriteRequest", .request .write),
    ("ReadResponse", .response .read), ("WriteResponse", .response .write)]

def toJson : Purpose → Json
  | .request .read => .str "ReadRequest"
  | .request .write => .str "WriteRequest"
  | .response .read => .str "ReadResponse"
  | .response .write => .str "WriteResponse"
  | .other name => .obj [("Other", .str name)]

def ofJson? (v : Json) : Option Purpose :=
  match v with
  | .obj [("Other", content)] => (text? content).map .other
  | _ => plainCase? spellings v

end Purpose

namespace Message

def memberNames : List String :=
  ["time", "id", "src", "dest", "kind", "key", "value", "version", "ok"]

def toJson (m : Message) : Json :=
  .obj [("time", .nat m.time), ("id", .nat m.id), ("src", .nat m.sender),
    ("dest", .nat m.receiver), ("kind", m.purpose.toJson), ("key", nats m.key),
    ("value", nats m.value), ("version", ofOption .nat m.version), ("ok", .bool m.ok)]

def ofJson? (v : Json) : Option Message := do
  let [time, id, sender, receiver, purpose, key, value, version, ok] ← record? memberNames v
    | none
  return {
    time := ← required nat? time
    id := ← required nat? id
    sender := ← required nat? sender
    receiver := ← required nat? receiver
    purpose := ← required Purpose.ofJson? purpose
    key := ← required words? key
    value := ← required words? value
    version := ← nullable nat? version
    ok := ← required bool? ok }

end Message

namespace FaultMark

def toJson : FaultMark → Json
  | .nodeFailed node mode =>
    .obj [("NodeFailed", .obj [("node", .nat node), ("mode", .str mode)])]
  | .nodeRecovered node => .obj [("NodeRecovered", .obj [("node", .nat node)])]
  | .partitionCreated => .str "PartitionCreated"
  | .partitionRecovered => .str "PartitionRecovered"

def ofJson? (v : Json) : Option FaultMark := do
  let (name, content) ← case? v
  match name with
  | "NodeFailed" =>
    let [node, mode] ← record? ["node", "mode"] content | none
    return .nodeFailed (← required nat? node) (← required text? mode)
  | "NodeRecovered" =>
    let [node] ← record? ["node"] content | none
    return .nodeRecovered (← required nat? node)
  | _ => plainCase? [("PartitionCreated", .partitionCreated),
      ("PartitionRecovered", .partitionRecovered)] v

end FaultMark

namespace FaultCounts

def memberNames : List String :=
  ["node_failures", "node_recoveries", "partitions_created", "partitions_recovered",
    "monitor_lines"]

def toJson (c : FaultCounts) : Json :=
  .obj [("node_failures", .nat c.nodeFailures), ("node_recoveries", .nat c.nodeRecoveries),
    ("partitions_created", .nat c.partitionsCreated),
    ("partitions_recovered", .nat c.partitionsRecovered),
    ("monitor_lines", .nat c.monitorLines)]

def ofJson? (v : Json) : Option FaultCounts := do
  let [failures, recoveries, created, recovered, lines] ← record? memberNames v | none
  return {
    nodeFailures := ← required nat? failures
    nodeRecoveries := ← required nat? recoveries
    partitionsCreated := ← required nat? created
    partitionsRecovered := ← required nat? recovered
    monitorLines := ← required nat? lines }

end FaultCounts
end StoreAudit
