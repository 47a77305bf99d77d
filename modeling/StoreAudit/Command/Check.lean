import StoreAudit.Command.Run
import StoreAudit.Consistency.Streaming
import StoreAudit.Log.MessageReader
import StoreAudit.Text.Lines

/-! Checking a message log in one pass while passing on what is not a message. -/
namespace StoreAudit.Command
open Consistency

/-- The lines written from a state on, and the verdict. Lines that are no messages are passed on
as they stand, and a diagnostic takes the place of the message that causes it. -/
def checkFrom (r : MessageReader) (s : Stream) :
    List (Option String) → List String × Except Failure Verdict
  | [] => ([s.verdict.checkLine], .ok s.verdict)
  | none :: _ => ([], .error (.file .invalidText))
  | some line :: rest =>
    match r.read line with
    | (.error e, _) => ([], .error (.parse e))
    | (.ok (.message m), r) =>
      let (s, diagnostic) := s.observe m
      let (out, result) := checkFrom r s rest
      (diagnostic.toList.map Diagnostic.render ++ out, result)
    | (.ok _, r) =>
      let (out, result) := checkFrom r s rest
      (line :: out, result)

def check (dialect? : Option Dialect) (matchVersion : Bool) (log : ByteArray) : Run Verdict :=
  let (out, result) := checkFrom { dialect? } { matchVersion } (Text.lines log)
  { out := unlines out, result }

end StoreAudit.Command
