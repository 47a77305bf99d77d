import StoreAudit.Json.Decode
import StoreAudit.Log.ParseError
import StoreAudit.Log.Token

/-! Tokens and parse errors as JSON. -/
namespace StoreAudit
open Json

namespace ParseError

def Kind.spellings : List (String × Kind) :=
  [("Message", .message), ("Record", .record), ("DialectMismatch", .dialectMismatch)]

def Kind.toJson : Kind → Json
  | .message => .str "Message"
  | .record => .str "Record"
  | .dialectMismatch => .str "DialectMismatch"

def toJson (e : ParseError) : Json :=
  .obj [("kind", e.kind.toJson), ("message", .str e.message), ("line", .nat e.line),
    ("column", .nat e.column)]

def ofJson? (v : Json) : Option ParseError := do
  let [kind, message, line, column] ← record? ["kind", "message", "line", "column"] v | none
  return {
    kind := ← required (plainCase? Kind.spellings) kind
    message := ← required text? message
    line := ← required nat? line
    column := ← required nat? column }

end ParseError

namespace Token

def Kind.spellings : List (String × Kind) :=
  [("BraceOpen", .braceOpen), ("BraceClose", .braceClose), ("BracketOpen", .bracketOpen),
    ("BracketClose", .bracketClose), ("Colon", .colon), ("Ident", .ident), ("Integer", .integer),
    ("Newline", .newline), ("Whitespace", .whitespace)]

def Kind.toJson : Kind → Json
  | .braceOpen => .str "BraceOpen"
  | .braceClose => .str "BraceClose"
  | .bracketOpen => .str "BracketOpen"
  | .bracketClose => .str "BracketClose"
  | .colon => .str "Colon"
  | .ident => .str "Ident"
  | .integer => .str "Integer"
  | .newline => .str "Newline"
  | .whitespace => .str "Whitespace"

def toJson (t : Token) : Json :=
  .obj [("kind", t.kind.toJson),
    ("span", .obj [("start", .nat t.start), ("end", .nat t.stop)])]

/-- The span has its two ends and nothing else. -/
def ofJson? (v : Json) : Option Token := do
  let [kind, span] ← record? ["kind", "span"] v | none
  let [start, stop] ← closedRecord? ["start", "end"] (← span) | none
  return {
    kind := ← required (plainCase? Kind.spellings) kind
    start := ← required nat? start
    stop := ← required nat? stop }

end Token
end StoreAudit
