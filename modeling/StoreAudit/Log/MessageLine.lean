import StoreAudit.Grammar.Leaf
import StoreAudit.Log.Dialect
import StoreAudit.Log.ParseError

/-! The grammar of message lines: a time, an event word and nine fields in braces, of which the
version may be missing. -/
namespace StoreAudit.MessageLine
open Grammar

def purpose (code : PurposeCode) : Grammar Purpose := do
  let text ← run code.isCodeChar
  return code.decode (String.ofList text)

/-- The version field with the gap after it. -/
def version (d : Dialect) : Grammar Nat := do
  let v ← field d.version integer
  gap
  return v

def grammar (d : Dialect) : Grammar Message := do
  let time ← integer
  gap
  let _ ← letters
  gap
  literal "\x7b"
  let id ← field d.id integer
  gap
  let sender ← field d.sender integer
  gap
  let receiver ← field d.receiver integer
  gap
  let purpose ← field d.purpose (purpose d.code)
  gap
  let key ← field d.key someWords
  gap
  let value ← field d.value words
  gap
  let version ← optional (version d)
  let ok ← field d.ok truth
  literal "\x7d"
  return { time, id, sender, receiver, purpose, key, value, version, ok }

/-- Reads a line of the dialect. -/
def parse (d : Dialect) (line : String) : Except ParseError Message :=
  (readLine (grammar d) line).mapError (ParseError.ofStop .message line)

end StoreAudit.MessageLine
