import StoreAudit.Consistency.Membership
import StoreAudit.Message

/-! Checking a message log in one pass. Each read is held against the writes acknowledged so far.
Overlap in time is not considered: a read of any value but the latest is stale. -/
namespace StoreAudit.Consistency

/-- What the pass has counted. -/
structure StreamCounts where
  readsChecked : Nat := 0
  writesRecorded : Nat := 0
  unwrittenReads : Nat := 0
  unknownValues : Nat := 0
  staleReads : Nat := 0
  deriving DecidableEq, Repr, Inhabited

/-- What is told right away, in between the lines of the log. -/
inductive Diagnostic where
  | unwrittenRead
  deriving DecidableEq, Repr

def Diagnostic.render : Diagnostic → String
  | .unwrittenRead => "ERROR: Non-error value returned for un-written key"

/-- The state of the pass: the writes so far, the properties that no read has refuted yet, and the
counts. -/
structure Stream where
  matchVersion : Bool := false
  history : WriteHistory := {}
  strong : Bool := true
  eventual : Bool := true
  counts : StreamCounts := {}
  deriving DecidableEq, Repr, Inhabited

namespace Stream

def recordWrite (s : Stream) (m : Message) : Stream :=
  { s with
    history := s.history.record m.key m.value m.version
    counts := { s.counts with writesRecorded := s.counts.writesRecorded + 1 } }

/-- A read of an unwritten key, of an unknown value, of a superseded value, or of the latest. The
first two refute both properties, the third only the strong one. -/
def checkRead (s : Stream) (m : Message) : Stream × Option Diagnostic :=
  let counts := { s.counts with readsChecked := s.counts.readsChecked + 1 }
  if !s.history.isWritten m.key then
    ({ s with
        strong := false
        eventual := false
        counts := { counts with unwrittenReads := counts.unwrittenReads + 1 } },
      some .unwrittenRead)
  else if !s.history.supports s.matchVersion m.key m.value m.version then
    ({ s with
        strong := false
        eventual := false
        counts := { counts with unknownValues := counts.unknownValues + 1 } }, none)
  else if s.history.latest? m.key ≠ some m.value then
    ({ s with
        strong := false
        counts := { counts with staleReads := counts.staleReads + 1 } }, none)
  else ({ s with counts }, none)

/-- Takes the message in. Only successful responses matter. -/
def observe (s : Stream) (m : Message) : Stream × Option Diagnostic :=
  if m.ok then
    match m.purpose with
    | .response .write => (s.recordWrite m, none)
    | .response .read => s.checkRead m
    | _ => (s, none)
  else (s, none)

def observeAll (s : Stream) (ms : List Message) : Stream :=
  ms.foldl (fun s m => (s.observe m).1) s

def verdict (s : Stream) : Verdict :=
  if s.strong then .strong
  else if s.eventual then .eventual
  else .neither

end Stream
end StoreAudit.Consistency
