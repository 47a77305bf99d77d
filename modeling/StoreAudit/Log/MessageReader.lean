import StoreAudit.Log.Line
import StoreAudit.Log.MessageLine

/-! Reading a message log line by line. -/
namespace StoreAudit

/-- What becomes of a line that is no message and no common line. -/
inductive Policy where
  | strict
  | bestEffort
  deriving DecidableEq, Repr, Inhabited

/-- The state of a run: the dialect once it is known, and how many lines were read. -/
structure MessageReader where
  dialect? : Option Dialect := none
  policy : Policy := .bestEffort
  line : Nat := 0
  deriving DecidableEq, Repr, Inhabited

namespace MessageReader

/-- A line of another dialect than the one the log keeps to. -/
def mismatch (found kept : Dialect) : ParseError where
  kind := .dialectMismatch
  message := found.name ++ " dialect line in a " ++ kept.name ++ " dialect log"

/-- Reads a message of the dialect that the log keeps to. -/
def parseKept (kept : Dialect) (text : String) : Except ParseError Message :=
  (MessageLine.parse kept text).mapError fun e =>
    match Dialect.detect? text with
    | some found => if found = kept then e else mismatch found kept
    | none => e

/-- Reads a message of the dialect that the line itself tells. -/
def parseDetected (text : String) : Except ParseError (Message × Dialect) :=
  match Dialect.detect? text with
  | none => .error { kind := .message, message := "not a message line" }
  | some d => (MessageLine.parse d text).map (·, d)

/-- Reads a message, and tells which dialect the log keeps to from here on. -/
def parse (r : MessageReader) (text : String) : Except ParseError (Message × Dialect) :=
  match r.dialect? with
  | some kept => (parseKept kept text).map (·, kept)
  | none => parseDetected text

/-- Classifies the next line. The first message fixes the dialect. -/
def read (r : MessageReader) (line : String) : Except ParseError LogLine × MessageReader :=
  let next := { r with line := r.line + 1 }
  let text := LogLine.content line
  match LogLine.common? text with
  | some common => (.ok common, next)
  | none =>
    match r.parse text with
    | .ok (m, d) => (.ok (.message m), { next with dialect? := some d })
    | .error e =>
      match r.policy with
      | .strict => (.error { e with line := next.line }, next)
      | .bestEffort => (.ok (.passthrough text), next)

end MessageReader
end StoreAudit
