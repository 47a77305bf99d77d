import StoreAudit.Generate.Register
import StoreAudit.Json.Operation
import StoreAudit.Log.Dialect

/-! Generated histories and the logs that they leave. Reads and writes take effect at a point
inside their own interval, so without stale reads a history is strongly consistent; a stale read
still returns a value that was written. -/
namespace StoreAudit.Generate
open StoreAudit.Random

/-- An operation with the client that issued it. -/
structure ClientOperation where
  client : Nat
  operation : Operation
  deriving DecidableEq, Repr, Inhabited

/-- By the finish, then the start, then the client. -/
def Executed.le (e f : Executed) : Bool :=
  e.operation.finish < f.operation.finish ||
    e.operation.finish == f.operation.finish &&
      (e.operation.start < f.operation.start ||
        e.operation.start == f.operation.start && e.client ≤ f.client)

/-- Ids count the operations from 0. -/
def number (done : List Executed) : List Executed :=
  done.zipIdx.map fun (e, i) => { e with operation := { e.operation with id := i } }

/-- The operations of a history in the order of their completion. Without keys there are none. -/
def executed {σ : Type} (d : Draws σ) (p : Params) (s : σ) : List Executed :=
  if p.keys = 0 then []
  else
    let (planned, s) := schedule d p s
    let (done, _) := execute d p.staleChance planned 0 (List.replicate p.keys []) s
    number (done.mergeSort Executed.le)

def operations {σ : Type} (d : Draws σ) (p : Params) (s : σ) : List ClientOperation :=
  (executed d p s).map fun e => ⟨e.client, e.operation⟩

/-- The operations that the seed determines. -/
def seeded (p : Params) (seed : Nat) : List ClientOperation :=
  operations Stream.draws p (Stream.ofSeed seed.toUInt64)

namespace ClientOperation

/-- The messages of an operation: its request and its response. Clients count from 1, and 0 is
the store. -/
def messages (op : ClientOperation) : Message × Message :=
  let o := op.operation
  ({ time := o.start, id := o.id, sender := op.client + 1, receiver := 0
     purpose := .request o.action, key := o.key, value := if o.isWrite then o.value else []
     version := none, ok := true },
   { time := o.finish, id := o.id, sender := 0, receiver := op.client + 1
     purpose := .response o.action, key := o.key, value := o.value
     version := o.version, ok := o.succeeded })

def toJson (op : ClientOperation) : Json :=
  .obj (("client", .nat op.client) :: op.operation.members)

/-- How deep the values of an object may nest. -/
def depthLimit : Nat := 126

/-- A case whose content is an empty object, as the case alone. All other values stay. -/
def withoutContent : Json → Json
  | .obj [(name, .obj [])] => .str name
  | v => v

/-- The members of the operation stand beside the client, and its cases may have an empty object
for content. All other members are read as well, so they must denote values and not nest too
deeply. -/
def ofJson? (v : Json) : Option ClientOperation := do
  let .obj members := v | none
  guard (v.representable ∧ members.all fun m => m.2.depth ≤ depthLimit)
  let client :: rest ← Json.record? ("client" :: Operation.memberNames) v | none
  return {
    client := ← Json.required Json.nat? client
    operation := ← Operation.ofMembers? (rest.map fun v => v.map withoutContent) }

end ClientOperation

/-- A record log of the operations. -/
def recordLog (ops : List ClientOperation) : String := Operation.renderLog (ops.map (·.operation))

/-- The request and the response of each operation, each with the word for its event. -/
def events (ops : List ClientOperation) : List (String × Message) :=
  ops.flatMap fun op => [("sent", op.messages.1), ("received", op.messages.2)]

/-- A message log of the operations by time. Messages at one time keep their order. -/
def messageLog (d : Dialect) (ops : List ClientOperation) : String :=
  let sorted := (events ops).mergeSort fun e f => decide (e.2.time ≤ f.2.time)
  String.join (sorted.map fun (event, m) => d.render event m ++ "\n")

/-- A generated history. -/
structure History where
  params : Params
  operations : List ClientOperation

namespace History

/-- Histories `0` to `count - 1`. The fallback takes the place of a missing seed. -/
def several (count : Nat) (p : Params) (fallback : Nat) : List History :=
  (List.range count).map fun i =>
    let params := p.nth i
    { params, operations := seeded params (params.seed.getD ((fallback + i) % wordLimit)) }

def toJson (h : History) : Json :=
  .obj [("params", h.params.toJson), ("info", .str "generated"),
    ("data", .arr (h.operations.map ClientOperation.toJson))]

end History
end StoreAudit.Generate
