import StoreAudit.Json.Basic
import StoreAudit.Words

/-! Taking JSON values apart. -/
namespace StoreAudit.Json

def nat? : Json → Option Nat
  | .nat n => some n
  | _ => none

def bool? : Json → Option Bool
  | .bool b => some b
  | _ => none

def text? : Json → Option String
  | .str s => some s
  | _ => none

def list? {α : Type} (decode : Json → Option α) : Json → Option (List α)
  | .arr items => items.mapM decode
  | _ => none

def words? : Json → Option Words := list? nat?

/-- A member that must be there. -/
def required {α : Type} (decode : Json → Option α) (v : Option Json) : Option α := v >>= decode

/-- A member that may be null or missing. -/
def nullable {α : Type} (decode : Json → Option α) : Option Json → Option (Option α)
  | none | some .null => some none
  | some v => (decode v).map some

/-- Each of the names stands at most once among the members. -/
def unrepeated (names : List String) (members : List (String × Json)) : Bool :=
  names.all fun name => (members.countP fun m => m.1 == name) ≤ 1

/-- The values of a record with these members: those of an object, which may have others as well,
or an array with one item for each name. -/
def record? (names : List String) : Json → Option (List (Option Json))
  | .obj members =>
    if unrepeated names members then some (names.map fun name => members.lookup name) else none
  | .arr items => if items.length = names.length then some (items.map some) else none
  | _ => none

/-- A record whose objects have no other members. -/
def closedRecord? (names : List String) (v : Json) : Option (List (Option Json)) :=
  match v with
  | .obj members => if members.all fun m => names.contains m.1 then record? names v else none
  | _ => record? names v

/-- A case by its name alone, or with its content as an object of one member. -/
def case? : Json → Option (String × Json)
  | .str name => some (name, .null)
  | .obj [(name, content)] => some (name, content)
  | _ => none

/-- A case without content. -/
def plainCase? {α : Type} (table : List (String × α)) (v : Json) : Option α := do
  let (name, .null) ← case? v | none
  table.lookup name

end StoreAudit.Json
