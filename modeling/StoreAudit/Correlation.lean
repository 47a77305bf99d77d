import StoreAudit.Stats.Traffic

/-! Pairing the requests of a message log with their responses. Reads and writes have ids of
their own, so a read and a write may share a number. -/
namespace StoreAudit

/-- A message that does not fit into the exchange of requests and responses. -/
inductive Anomaly where
  | duplicateRequest (action : Action) (id time : Nat)
  | orphanResponse (action : Action) (id time : Nat)
  | unexpectedMessage (name : String) (id time : Nat)
  deriving DecidableEq, Repr, Inhabited

def Anomaly.render : Anomaly → String
  | .duplicateRequest _ id _ => "Unexpected duplicate request ID " ++ toString id
  | .orphanResponse _ id _ =>
    "Unexpected response before corresponding request " ++ toString id
  | .unexpectedMessage .. => "Unexpected output:"

/-- A request that waits for its response. -/
structure OpenRequest where
  action : Action
  id : Nat
  start : Nat
  key : Words
  value : Words
  deriving DecidableEq, Repr, Inhabited

namespace OpenRequest

def ofMessage (action : Action) (m : Message) : OpenRequest :=
  { action, id := m.id, start := m.time, key := m.key, value := m.value }

/-- The request that a message with this action and id repeats or answers. -/
def IsFor (r : OpenRequest) (action : Action) (id : Nat) : Prop := r.action = action ∧ r.id = id

instance (action : Action) (id : Nat) : DecidablePred (IsFor · action id) :=
  fun _ => inferInstanceAs (Decidable (_ ∧ _))

/-- Earlier starts first, then reads before writes, then smaller ids. -/
def le (r s : OpenRequest) : Bool :=
  r.start < s.start ||
    r.start == s.start &&
      (r.action.rank < s.action.rank || r.action == s.action && r.id ≤ s.id)

/-- The operation that the response completes. The response may leave out the key and, for a
write, the value; the request has them. -/
def answer (r : OpenRequest) (m : Message) : Operation where
  id := r.id
  action := r.action
  key := if m.key.isEmpty then r.key else m.key
  value := if r.action == .write && m.value.isEmpty then r.value else m.value
  start := r.start
  finish := m.time
  version := m.version
  outcome := if m.ok then .success else .failure

/-- The operation of a request that was never answered, in a log that ends at `last`. -/
def abandon (r : OpenRequest) (last : Nat) : Operation where
  id := r.id
  action := r.action
  key := r.key
  value := r.value
  start := r.start
  finish := max last r.start
  version := none
  outcome := .unknown

end OpenRequest

/-- The state after some messages: the requests that wait, the operations and anomalies in the
order of their messages, and the traffic. -/
structure Correlator where
  waiting : List OpenRequest := []
  operations : List Operation := []
  anomalies : List Anomaly := []
  traffic : Traffic := {}
  deriving DecidableEq, Repr, Inhabited

namespace Correlator

/-- A request opens unless one with its action and id is open already. -/
def request (c : Correlator) (action : Action) (m : Message) : Correlator × Option Anomaly :=
  if c.waiting.any fun r => decide (r.IsFor action m.id) then
    (c, some (.duplicateRequest action m.id m.time))
  else ({ c with waiting := c.waiting ++ [.ofMessage action m] }, none)

/-- A response completes the open request with its action and id. -/
def response (c : Correlator) (action : Action) (m : Message) : Correlator × Option Anomaly :=
  match c.waiting.find? fun r => decide (r.IsFor action m.id) with
  | none => (c, some (.orphanResponse action m.id m.time))
  | some r =>
    ({ c with
        waiting := c.waiting.filter fun r => !decide (r.IsFor action m.id)
        operations := c.operations ++ [r.answer m]
        traffic := c.traffic.observeLatency action (m.time - r.start) }, none)

/-- Takes the message in, and tells the anomaly that it is. -/
def observe (c : Correlator) (m : Message) : Correlator × Option Anomaly :=
  let c := { c with traffic := c.traffic.observe m }
  let (c, anomaly) := match m.purpose with
    | .request action => c.request action m
    | .response action => c.response action m
    | .other name => (c, some (.unexpectedMessage name m.id m.time))
  ({ c with anomalies := c.anomalies ++ anomaly.toList }, anomaly)

def observeAll (c : Correlator) (ms : List Message) : Correlator :=
  ms.foldl (fun c m => (c.observe m).1) c

end Correlator

/-- What is known at the end of a log. The unanswered requests are the last operations. -/
structure Correlation where
  operations : List Operation
  anomalies : List Anomaly
  traffic : Traffic
  unanswered : Nat
  deriving DecidableEq, Repr, Inhabited

/-- Ends the log. Whoever still waits gives up. -/
def Correlator.finish (c : Correlator) : Correlation where
  operations := c.operations ++
    (c.waiting.mergeSort OpenRequest.le).map (·.abandon c.traffic.lastTime)
  anomalies := c.anomalies
  traffic := c.traffic
  unanswered := c.waiting.length

end StoreAudit
