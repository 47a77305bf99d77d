import StoreAudit.Json.Decode
import StoreAudit.Operation

/-! Operations as JSON. -/
namespace StoreAudit
open Json

def Action.spellings : List (String × Action) := [("Read", .read), ("Write", .write)]

def Action.toJson : Action → Json
  | .read => .str "Read"
  | .write => .str "Write"

def Action.ofJson? : Json → Option Action := plainCase? spellings

def Outcome.spellings : List (String × Outcome) :=
  [("Success", .success), ("Failure", .failure), ("Unknown", .unknown)]

def Outcome.toJson : Outcome → Json
  | .success => .str "Success"
  | .failure => .str "Failure"
  | .unknown => .str "Unknown"

def Outcome.ofJson? : Json → Option Outcome := plainCase? spellings

namespace Operation

/-- The members of an operation in their order. -/
def memberNames : List String :=
  ["id", "kind", "key", "value", "start", "end", "version", "outcome"]

def members (op : Operation) : List (String × Json) :=
  [("id", .nat op.id), ("kind", op.action.toJson), ("key", nats op.key),
    ("value", nats op.value), ("start", .nat op.start), ("end", .nat op.finish),
    ("version", ofOption .nat op.version), ("outcome", op.outcome.toJson)]

def toJson (op : Operation) : Json := .obj op.members

/-- An operation from the values of its members in their order. -/
def ofMembers? : List (Option Json) → Option Operation
  | [id, action, key, value, start, finish, version, outcome] => do
    return {
      id := ← required nat? id
      action := ← required Action.ofJson? action
      key := ← required words? key
      value := ← required words? value
      start := ← required nat? start
      finish := ← required nat? finish
      version := ← nullable nat? version
      outcome := ← required Outcome.ofJson? outcome }
  | _ => none

def ofJson? (v : Json) : Option Operation := do ofMembers? (← record? memberNames v)

end Operation
end StoreAudit
