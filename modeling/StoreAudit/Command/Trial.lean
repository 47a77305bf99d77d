import StoreAudit.Command.Analyze
import StoreAudit.Command.Messages
import StoreAudit.Generate.History

/-! Generated histories put on trial: their logs are read back and audited. -/
namespace StoreAudit.Command
open Consistency Generate

/-- Facts that hold of every generated history, whatever its random numbers are. -/
structure Trial where
  /-- The ids count the operations from 0. -/
  idsInOrder : Bool
  /-- No operation finishes before the one in front of it. -/
  finishesInOrder : Bool
  /-- The history is eventually consistent, and strongly so if no read may be stale. -/
  asConsistentAsPromised : Bool
  /-- The record log reads back as the operations. -/
  recordsReadBack : Bool
  /-- The message log of either dialect is judged as the operations are. -/
  messagesAgree : Bool
  deriving DecidableEq, Repr

namespace Trial

/-- The operations that a record log holds. -/
def readRecords (log : ByteArray) : Option (List Operation) :=
  (RecordRun.follow {} (Text.lines log)).toOption.map (·.operations)

/-- The verdict on a message log. -/
def judgeMessages (matchVersion : Bool) (log : ByteArray) : Option Verdict :=
  (oracle none matchVersion false log).result.toOption.map (·.consistency.verdict)

def ofHistory (matchVersion : Bool) (h : History) : Trial :=
  let ops := h.operations.map (·.operation)
  let verdict := (audit ops (.ofOperations ops) matchVersion).verdict
  { idsInOrder := ops.map (·.id) == List.range ops.length
    finishesInOrder := (ops.zip ops.tail).all fun (op, next) => op.finish ≤ next.finish
    asConsistentAsPromised :=
      verdict != .neither && (0 < h.params.staleRatio || verdict == .strong)
    recordsReadBack := readRecords (recordLog h.operations).toUTF8 == some ops
    messagesAgree := [Dialect.numeric, .named].all fun d =>
      judgeMessages matchVersion (messageLog d h.operations).toUTF8 == some verdict }

end Trial
end StoreAudit.Command
