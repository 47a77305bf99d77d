import StoreAudit.Fault
import StoreAudit.Grammar.Leaf
import StoreAudit.Message
import StoreAudit.Text.Blank

/-! What a line of a log can be, and the kinds of line that every log may hold. -/
namespace StoreAudit

/-- A classified line. Lines of the resource monitor and lines that are nothing else keep
their text. -/
inductive LogLine where
  | blank
  | message (m : Message)
  | record (op : Operation)
  | fault (mark : FaultMark)
  | monitor (text : String)
  | passthrough (text : String)
  deriving DecidableEq, Repr

namespace FaultMark
open Grammar

/-- The mode of a failed node is the rest of the line, trimmed at its end. -/
def failure (node : Nat) : Grammar FaultMark := do
  literal "failed while in mode"
  gap
  let mode ← everything
  return .nodeFailed node (String.ofList (Text.trimEnd mode))

def ofNode : Grammar FaultMark := do
  literal "Node"
  gap
  let node ← integer
  gap
  either (failure node) (do literal "recovered"; return .nodeRecovered node)

def ofPartition : Grammar FaultMark := do
  literal "Partition"
  gap
  oneOf [("created", .partitionCreated), ("recovered", .partitionRecovered)]

/-- The fault mark that the whole line is. -/
def parse? (line : String) : Option FaultMark :=
  (readLine (either ofNode ofPartition) line).toOption

end FaultMark

namespace LogLine

/-- The text without line feeds and carriage returns at its end. -/
def content (line : String) : String :=
  String.ofList (Text.dropWhileEnd (fun c => c == '\n' || c == '\r') line.toList)

/-- Blank lines, monitor lines, which start with a brace, and fault marks. -/
def common? (text : String) : Option LogLine :=
  if Text.allBlank text.toList then some .blank
  else if text.toList.head? = some '\x7b' then some (.monitor text)
  else (FaultMark.parse? text).map .fault

end LogLine
end StoreAudit
