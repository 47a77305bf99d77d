import StoreAudit.Operation

/-! The acknowledged writes of each key, in the order of their acknowledgement. -/
namespace StoreAudit

/-- A value as it was written, with the version it committed at. -/
structure WrittenValue where
  value : Words
  version : Option Nat
  deriving DecidableEq, Repr, Inhabited

/-- For each written key its writes, oldest first. Nothing is merged: a value written twice
stands there twice. -/
structure WriteHistory where
  buckets : List (Words × List WrittenValue) := []
  deriving DecidableEq, Repr, Inhabited

namespace WriteHistory

/-- Adds a write at the end of the bucket of `key`, in a new bucket when there is none. -/
def addTo (key : Words) (written : WrittenValue) :
    List (Words × List WrittenValue) → List (Words × List WrittenValue)
  | [] => [(key, [written])]
  | (k, ws) :: rest =>
    if k = key then (k, ws ++ [written]) :: rest else (k, ws) :: addTo key written rest

def record (h : WriteHistory) (key value : Words) (version : Option Nat) : WriteHistory :=
  ⟨addTo key ⟨value, version⟩ h.buckets⟩

/-- Records the successful writes of `ops` in their order. -/
def ofOperations (ops : List Operation) : WriteHistory :=
  (ops.filter fun op => op.isWrite && op.succeeded).foldl
    (fun h op => h.record op.key op.value op.version) {}

/-- The writes recorded for `key`, oldest first. -/
def entries (h : WriteHistory) (key : Words) : List WrittenValue :=
  (h.buckets.lookup key).getD []

def isWritten (h : WriteHistory) (key : Words) : Bool :=
  (h.buckets.lookup key).isSome

def contains (h : WriteHistory) (key value : Words) : Bool :=
  (h.entries key).any fun w => w.value == value

/-- Some write of `key` has both this value and this version. -/
def containsVersion (h : WriteHistory) (key value : Words) (version : Option Nat) : Bool :=
  (h.entries key).any fun w => w.value == value && w.version == version

/-- The value written last. -/
def latest? (h : WriteHistory) (key : Words) : Option Words :=
  (h.entries key).getLast?.map (·.value)

/-- How many keys were written. -/
def size (h : WriteHistory) : Nat := h.buckets.length

def isEmpty (h : WriteHistory) : Bool := h.buckets.isEmpty

end WriteHistory
end StoreAudit
