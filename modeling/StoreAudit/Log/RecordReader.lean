import StoreAudit.Log.Line
import StoreAudit.Log.RecordLine

/-! Reading a record log line by line. -/
namespace StoreAudit

/-- The state of a run: the id of the next record, and how many lines were read. -/
structure RecordReader where
  nextId : Nat := 0
  line : Nat := 0
  deriving DecidableEq, Repr, Inhabited

namespace RecordReader

/-- Classifies the next line. Only a record that is read takes up an id. -/
def read (r : RecordReader) (line : String) : Except ParseError LogLine × RecordReader :=
  let next := { r with line := r.line + 1 }
  let text := LogLine.content line
  match LogLine.common? text with
  | some common => (.ok common, next)
  | none =>
    if RecordLine.startsLikeRecord text then
      match RecordLine.parse r.nextId text with
      | .ok op => (.ok (.record op), { next with nextId := r.nextId + 1 })
      | .error e => (.error { e with line := next.line }, next)
    else (.ok (.passthrough text), next)

end RecordReader
end StoreAudit
