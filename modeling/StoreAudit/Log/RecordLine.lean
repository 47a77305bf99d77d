import StoreAudit.Grammar.Leaf
import StoreAudit.Log.ParseError
import StoreAudit.Operation

/-! The grammar of record lines: start, finish, action, key, value, version and result. -/
namespace StoreAudit.RecordLine
open Grammar

/-- `read` or `write` with a gap after it. The gap is not taken. -/
def action : Grammar Action :=
  hinting (.expected ["read", "write"]) <|
    either
      (do literal "read"; ahead gap; return .read)
      (do literal "write"; ahead gap; return .write)

def outcome : Grammar Outcome :=
  hinting (.invalid "result") <|
    oneOf [("true", .success), ("success", .success), ("false", .failure), ("error", .failure),
      ("unknown", .unknown)]

def grammar (id : Nat) : Grammar Operation := do
  let start ← integer
  gap
  let finish ← integer
  gap
  let action ← action
  gap
  let key ← hinting (.invalid "key") words
  gap
  let value ← hinting (.invalid "value") words
  gap
  let version ← hinting (.invalid "version") integer
  gap
  let outcome ← outcome
  return { id, action, key, value, start, finish, version := some version, outcome }

/-- Reads a record, which becomes the operation `id`. -/
def parse (id : Nat) (line : String) : Except ParseError Operation :=
  (readLine (grammar id) line).mapError (ParseError.ofStop .record line)

/-- Two numbers at the front: such a line has to be a record. -/
def startsLikeRecord (line : String) : Bool :=
  ((do let _ ← integer; gap; let _ ← integer : Grammar Unit) line.toList).isOk

end StoreAudit.RecordLine
