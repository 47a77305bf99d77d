import StoreAudit.Words

/-! Completed client operations on the store and their order in real time. -/
namespace StoreAudit

/-- What a client asked for. -/
inductive Action where
  | read
  | write
  deriving DecidableEq, Repr, Inhabited

/-- How the store answered. `unknown` means that the client gave up before it learned. -/
inductive Outcome where
  | success
  | failure
  | unknown
  deriving DecidableEq, Repr, Inhabited

/-- One client operation. `start` and `finish` are microseconds that bound the time it took.
`version` is the logical time at which a write committed or which the value read carries. -/
structure Operation where
  id : Nat
  action : Action
  key : Words
  value : Words
  start : Nat
  finish : Nat
  version : Option Nat
  outcome : Outcome
  deriving DecidableEq, Repr, Inhabited

namespace Action

def name : Action → String
  | .read => "read"
  | .write => "write"

/-- Reads come before writes. -/
def rank : Action → Nat
  | .read => 0
  | .write => 1

end Action

namespace Operation

def succeeded (op : Operation) : Bool := op.outcome == .success
def isRead (op : Operation) : Bool := op.action == .read
def isWrite (op : Operation) : Bool := op.action == .write

/-- Response time in microseconds, zero when the interval is inverted. -/
def latency (op : Operation) : Nat := op.finish - op.start

/-- `op` was over before `next` began. Touching intervals overlap. -/
def Precedes (op next : Operation) : Prop := op.finish < next.start

instance : DecidableRel Precedes := fun op next => Nat.decLt op.finish next.start

/-- Reads report a truth value and writes a word. -/
def resultWord : Action → Outcome → String
  | .read, .success => "true"
  | .read, .failure => "false"
  | .write, .success => "success"
  | .write, .failure => "error"
  | _, .unknown => "unknown"

/-- The operation as a line of a record log. A missing version is written as `0`. -/
def render (op : Operation) : String :=
  " ".intercalate
    [toString op.start, toString op.finish, op.action.name, op.key.render, op.value.render,
      toString (op.version.getD 0), resultWord op.action op.outcome]

/-- A record log, one line per operation, each with its line end. -/
def renderLog (ops : List Operation) : String :=
  String.join (ops.map fun op => op.render ++ "\n")

/-- Every number of the operation fits an unsigned 64-bit word. -/
structure Fits (op : Operation) : Prop where
  id : op.id < wordLimit
  key : op.key.Fits
  value : op.value.Fits
  start : op.start < wordLimit
  finish : op.finish < wordLimit
  version : ∀ v ∈ op.version, v < wordLimit

end Operation
end StoreAudit
