/-! Marks that a log carries where a fault was injected into the store. -/
namespace StoreAudit

/-- A fault mark. The mode of a failed node is free text. -/
inductive FaultMark where
  | nodeFailed (node : Nat) (mode : String)
  | nodeRecovered (node : Nat)
  | partitionCreated
  | partitionRecovered
  deriving DecidableEq, Repr, Inhabited

/-- How often each mark was seen, and how many lines came from the resource monitor. -/
structure FaultCounts where
  nodeFailures : Nat := 0
  nodeRecoveries : Nat := 0
  partitionsCreated : Nat := 0
  partitionsRecovered : Nat := 0
  monitorLines : Nat := 0
  deriving DecidableEq, Repr, Inhabited

def FaultCounts.observe (counts : FaultCounts) : FaultMark → FaultCounts
  | .nodeFailed _ _ => { counts with nodeFailures := counts.nodeFailures + 1 }
  | .nodeRecovered _ => { counts with nodeRecoveries := counts.nodeRecoveries + 1 }
  | .partitionCreated => { counts with partitionsCreated := counts.partitionsCreated + 1 }
  | .partitionRecovered => { counts with partitionsRecovered := counts.partitionsRecovered + 1 }

def FaultCounts.observeMonitor (counts : FaultCounts) : FaultCounts :=
  { counts with monitorLines := counts.monitorLines + 1 }

end StoreAudit
