import StoreAudit.Consistency.Violation
import StoreAudit.WriteHistory

/-! What is read was written. -/
namespace StoreAudit

/-- The value was written to the key, and with `matchVersion` at this version. -/
def WriteHistory.supports (h : WriteHistory) (matchVersion : Bool) (key value : Words)
    (version : Option Nat) : Bool :=
  if matchVersion then h.containsVersion key value version else h.contains key value

namespace Consistency

/-- The violation that a successful read is, if its key or its value was not written. -/
def unsupported? (h : WriteHistory) (matchVersion : Bool) (read : Operation) : Option Violation :=
  if !h.isWritten read.key then some (.unwrittenRead read)
  else if h.supports matchVersion read.key read.value read.version then none
  else some (.unknownValue read)

/-- The unsupported reads among the successful ones, in the order of the operations. -/
def unsupportedReads (ops : List Operation) (h : WriteHistory) (matchVersion : Bool) :
    List Violation :=
  (ops.filter fun op => op.isRead && op.succeeded).filterMap (unsupported? h matchVersion)

end Consistency
end StoreAudit
