import StoreAudit.Proofs.Sorting
import StoreAudit.Proofs.Table

/-! An audit that collects the operations on a key and those at a version in tables. In which order
the tables are read out does not show in the report. -/
namespace StoreAudit

/-- Some order to read the rows of a table out in. -/
structure ReadOut (κ α : Type) where
  rows : Table κ α → Table κ α
  perm : ∀ table, (rows table).Perm table

namespace Consistency

/-- The conflicts, the operations of each version read out of a table. -/
def tabledConflicts (byVersion : ReadOut Nat Operation) (key : Words) (ops : List Operation) :
    List Violation :=
  ((byVersion.rows (.ofList (·.version) ops)).mergeSort fun r s => decide (r.1 ≤ s.1)).flatMap
    fun (version, row) => (pairs row).filterMap fun (first, second) =>
      if first.value = second.value then none
      else some (.writeConflict key version first second)

/-- The audit, the operations on each key read out of a table. Every key has a table of versions of
its own. -/
def tabledAudit (byKey : ReadOut Words Operation) (byVersion : Words → ReadOut Nat Operation)
    (ops : List Operation) (h : WriteHistory) (matchVersion : Bool) : Report :=
  .ofViolations <|
    ((byKey.rows (.ofList (fun op => some op.key) ops)).mergeSort fun r s => r.1.le s.1).flatMap
      fun (key, row) =>
        tabledConflicts (byVersion key) key (versioned row) ++
          unsupportedReads row h matchVersion ++ staleOrders key (versioned row)

theorem tabledConflicts_eq (byVersion : ReadOut Nat Operation) (key : Words)
    (ops : List Operation) : tabledConflicts byVersion key ops = conflicts key ops := by
  have hrows := Table.mergeSort_eq_map (fun v w : Nat => decide (v ≤ w)) decide_le_trans
    decide_le_total (fun k l => by simpa using Nat.le_antisymm)
    ((pairwise_versions ops).imp fun h => ⟨decide_eq_true h.1, h.2⟩)
    (fun v => mem_versions) (byVersion.perm (.ofList (·.version) ops))
  rw [tabledConflicts, hrows, List.flatMap_map]
  rfl

/-- The order in which tables are read out does not show in the result. -/
theorem tabledAudit_eq (byKey : ReadOut Words Operation)
    (byVersion : Words → ReadOut Nat Operation) (ops : List Operation) (h : WriteHistory)
    (matchVersion : Bool) :
    tabledAudit byKey byVersion ops h matchVersion = audit ops h matchVersion := by
  have hrows := Table.mergeSort_eq_map Words.le (fun _ _ _ => Words.le_trans) Words.le_total
    (fun _ _ => Words.le_antisymm) (Words.pairwise_distinct (ops.map (·.key)))
    (fun k => by simp) (byKey.perm (.ofList (fun op => some op.key) ops))
  simp only [tabledAudit, hrows, List.flatMap_map, tabledConflicts_eq, audit, violations,
    keyViolations, Option.some_beq_some]

end Consistency
end StoreAudit
