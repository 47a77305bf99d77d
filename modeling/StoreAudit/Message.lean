import StoreAudit.Operation

/-! Requests and responses that clients exchange with the store. -/
namespace StoreAudit

/-- What a message is for. A name that is none of the four known ones is kept as spelled. -/
inductive Purpose where
  | request (action : Action)
  | response (action : Action)
  | other (name : String)
  deriving DecidableEq, Repr, Inhabited

namespace Purpose

/-- The action asked for or answered. -/
def action? : Purpose → Option Action
  | .request a | .response a => some a
  | .other _ => none

def isRequest : Purpose → Bool
  | .request _ => true
  | _ => false

end Purpose

/-- One message, logged at `time` microseconds. -/
structure Message where
  time : Nat
  id : Nat
  sender : Nat
  receiver : Nat
  purpose : Purpose
  key : Words
  value : Words
  version : Option Nat
  ok : Bool
  deriving DecidableEq, Repr, Inhabited

/-- Every number of the message fits an unsigned 64-bit word. -/
structure Message.Fits (m : Message) : Prop where
  time : m.time < wordLimit
  id : m.id < wordLimit
  sender : m.sender < wordLimit
  receiver : m.receiver < wordLimit
  key : m.key.Fits
  value : m.value.Fits
  version : ∀ v ∈ m.version, v < wordLimit

end StoreAudit
