import StoreAudit.Operation

/-! Evidence against the consistency of a history, and what it amounts to. -/
namespace StoreAudit

/-- One piece of evidence. -/
inductive Violation where
  /-- Two operations on a key share a version but not the value. -/
  | writeConflict (key : Words) (version : Nat) (first second : Operation)
  /-- A read of a key that was never written. -/
  | unwrittenRead (read : Operation)
  /-- A read of a value that was never written to its key. -/
  | unknownValue (read : Operation)
  /-- `earlier` was over before `later` began, yet `later` has an older version. -/
  | staleOrder (key : Words) (earlier later : Operation)
  deriving DecidableEq, Repr

/-- What a history may be, from the weakest to the strongest. -/
inductive Verdict where
  | neither
  | eventual
  | strong
  deriving DecidableEq, Repr, Inhabited

namespace Violation

/-- All but stale orders speak against eventual consistency as well. -/
def refutesEventual : Violation → Bool
  | .staleOrder .. => false
  | _ => true

def key : Violation → Words
  | .writeConflict key .. | .staleOrder key .. => key
  | .unwrittenRead read | .unknownValue read => read.key

def isConflict : Violation → Bool
  | .writeConflict .. => true
  | _ => false

def isMissingValue : Violation → Bool
  | .unwrittenRead _ | .unknownValue _ => true
  | _ => false

def isStaleOrder : Violation → Bool
  | .staleOrder .. => true
  | _ => false

/-- The violation in one line. A missing version is written as `0`. -/
def render : Violation → String
  | .writeConflict key version first second =>
    "write conflict on " ++ key.render ++ " at version " ++ toString version ++ ": " ++
      first.value.render ++ " vs " ++ second.value.render
  | .unwrittenRead read =>
    "read of un-written key " ++ read.key.render ++ " returned " ++ read.value.render ++ " (id " ++
      toString read.id ++ ")"
  | .unknownValue read =>
    "read of " ++ read.key.render ++ " returned " ++ read.value.render ++
      " which was never written (id " ++ toString read.id ++ ")"
  | .staleOrder key earlier later =>
    "stale order on " ++ key.render ++ ": " ++ earlier.action.name ++ " at version " ++
      toString (earlier.version.getD 0) ++ " ended at " ++ toString earlier.finish ++ ", " ++
      later.action.name ++ " started at " ++ toString later.start ++ " saw version " ++
      toString (later.version.getD 0)

end Violation

namespace Verdict

def rank : Verdict → Nat
  | .neither => 0
  | .eventual => 1
  | .strong => 2

instance : LT Verdict := ⟨fun v w => v.rank < w.rank⟩
instance : LE Verdict := ⟨fun v w => v.rank ≤ w.rank⟩
instance (v w : Verdict) : Decidable (v < w) := inferInstanceAs (Decidable (v.rank < w.rank))
instance (v w : Verdict) : Decidable (v ≤ w) := inferInstanceAs (Decidable (v.rank ≤ w.rank))

/-- Stale orders alone leave room for eventual consistency. -/
def ofViolations (violations : List Violation) : Verdict :=
  if violations.any Violation.refutesEventual then .neither
  else if violations.isEmpty then .strong
  else .eventual

/-- The last line of a check in one pass. -/
def checkLine : Verdict → String
  | .strong => "Strong consistency test passed"
  | .eventual => "Strong consistency test failed, but eventual consistency test passed"
  | .neither => "All consistency tests failed!"

/-- The last line of an analysis. -/
def summaryLine : Verdict → String
  | .strong => "Output appears to be strongly consistent."
  | .eventual => "Output appears to be eventually consistent."
  | .neither => "Output appears to be neither strongly consistent nor eventually consistent."

end Verdict
end StoreAudit
