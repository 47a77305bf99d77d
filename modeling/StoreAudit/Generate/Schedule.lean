import StoreAudit.Generate.Params
import StoreAudit.Operation

/-! When the clients of a generated history do what. -/
namespace StoreAudit.Generate
open StoreAudit.Random

/-- The longest that an operation takes, in microseconds. -/
def maxDuration : Nat := 400

/-- The longest that a client pauses between two operations, in microseconds. -/
def maxPause : Nat := 150

/-- An operation with its place in time. It takes effect at `point`, which lies between `start`
and `finish`. -/
structure Planned where
  client : Nat
  start : Nat
  finish : Nat
  point : Nat
  action : Action
  key : Nat
  deriving DecidableEq, Repr, Inhabited

/-- By the point of effect, then the start, then the client. -/
def Planned.le (p q : Planned) : Bool :=
  p.point < q.point ||
    p.point == q.point && (p.start < q.start || p.start == q.start && p.client ≤ q.client)

/-- The write by client 0 that gives `key` its first value, before any client starts. -/
def firstWrite (key : Nat) : Planned where
  client := 0
  start := 2 * key
  finish := 2 * key + 1
  point := 2 * key
  action := .write
  key := key

variable {σ : Type}

/-- The next `n` operations of a client whose clock stands at `clock`, one after the other with
pauses between them. -/
def planClient (d : Draws σ) (p : Params) (client : Nat) : Nat → Nat → σ → List Planned × σ
  | 0, _, s => ([], s)
  | n + 1, clock, s =>
    let (length, s) := d.below maxDuration s
    let finish := clock + (1 + length)
    let (delay, s) := d.below (finish - clock + 1) s
    let (writes, s) := d.happens p.writeChance s
    let (key, s) := d.below p.keys s
    let (pause, s) := d.below maxPause s
    let (rest, s) := planClient d p client n (finish + (1 + pause)) s
    ({ client, start := clock, finish, point := clock + delay,
       action := if writes then .write else .read, key } :: rest, s)

/-- The operations of these clients. Each starts after a pause of its own once all first writes
are over. -/
def planClients (d : Draws σ) (p : Params) : List Nat → σ → List Planned × σ
  | [], s => ([], s)
  | client :: clients, s =>
    let (pause, s) := d.below maxPause s
    let (own, s) := planClient d p client p.operations (2 * p.keys + pause) s
    let (rest, s) := planClients d p clients s
    (own ++ rest, s)

/-- All operations in the order in which they take effect. -/
def schedule (d : Draws σ) (p : Params) (s : σ) : List Planned × σ :=
  let (own, s) := planClients d p (List.range p.clients) s
  (((List.range p.keys).map firstWrite ++ own).mergeSort Planned.le, s)

end StoreAudit.Generate
