import StoreAudit.Consistency.Report
import StoreAudit.Correlation
import StoreAudit.Json.Operation

/-! Anomalies, violations and reports as JSON. -/
namespace StoreAudit
open Json

namespace Anomaly

def toJson : Anomaly → Json
  | .duplicateRequest action id time =>
    .obj [("DuplicateRequest",
      .obj [("kind", action.toJson), ("id", .nat id), ("time", .nat time)])]
  | .orphanResponse action id time =>
    .obj [("OrphanResponse",
      .obj [("kind", action.toJson), ("id", .nat id), ("time", .nat time)])]
  | .unexpectedMessage name id time =>
    .obj [("UnexpectedMessage", .obj [("name", .str name), ("id", .nat id), ("time", .nat time)])]

def ofJson? (v : Json) : Option Anomaly := do
  let (name, content) ← case? v
  match name with
  | "DuplicateRequest" =>
    let [action, id, time] ← record? ["kind", "id", "time"] content | none
    return .duplicateRequest (← required Action.ofJson? action) (← required nat? id)
      (← required nat? time)
  | "OrphanResponse" =>
    let [action, id, time] ← record? ["kind", "id", "time"] content | none
    return .orphanResponse (← required Action.ofJson? action) (← required nat? id)
      (← required nat? time)
  | "UnexpectedMessage" =>
    let [text, id, time] ← record? ["name", "id", "time"] content | none
    return .unexpectedMessage (← required text? text) (← required nat? id) (← required nat? time)
  | _ => none

end Anomaly

namespace Violation

def toJson : Violation → Json
  | .writeConflict key version first second =>
    .obj [("WriteConflict", .obj [("key", nats key), ("version", .nat version),
      ("first", first.toJson), ("second", second.toJson)])]
  | .unwrittenRead read => .obj [("UnwrittenRead", .obj [("read", read.toJson)])]
  | .unknownValue read => .obj [("UnknownValue", .obj [("read", read.toJson)])]
  | .staleOrder key earlier later =>
    .obj [("StaleOrder",
      .obj [("key", nats key), ("earlier", earlier.toJson), ("later", later.toJson)])]

def ofJson? (v : Json) : Option Violation := do
  let (name, content) ← case? v
  match name with
  | "WriteConflict" =>
    let [key, version, first, second] ← record? ["key", "version", "first", "second"] content
      | none
    return .writeConflict (← required words? key) (← required nat? version)
      (← required Operation.ofJson? first) (← required Operation.ofJson? second)
  | "UnwrittenRead" =>
    let [read] ← record? ["read"] content | none
    return .unwrittenRead (← required Operation.ofJson? read)
  | "UnknownValue" =>
    let [read] ← record? ["read"] content | none
    return .unknownValue (← required Operation.ofJson? read)
  | "StaleOrder" =>
    let [key, earlier, later] ← record? ["key", "earlier", "later"] content | none
    return .staleOrder (← required words? key) (← required Operation.ofJson? earlier)
      (← required Operation.ofJson? later)
  | _ => none

end Violation

namespace Verdict

def toJson : Verdict → Json
  | .neither => .str "Neither"
  | .eventual => .str "Eventual"
  | .strong => .str "Strong"

def ofJson? : Json → Option Verdict :=
  plainCase? [("Neither", .neither), ("Eventual", .eventual), ("Strong", .strong)]

end Verdict

namespace Consistency.Report

def toJson (r : Report) : Json :=
  .obj [("verdict", r.verdict.toJson), ("violations", .arr (r.violations.map Violation.toJson))]

/-- The verdict is taken as it stands. -/
def ofJson? (v : Json) : Option Report := do
  let [verdict, violations] ← record? ["verdict", "violations"] v | none
  return ⟨← required Verdict.ofJson? verdict, ← required (list? Violation.ofJson?) violations⟩

end Consistency.Report
end StoreAudit
