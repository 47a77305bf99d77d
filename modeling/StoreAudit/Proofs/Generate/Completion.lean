import Mathlib.Data.Prod.Lex
import StoreAudit.Generate.History
import StoreAudit.Proofs.Sorting

/-! The operations of a history are those that were carried out, sorted by their finish and then
numbered. -/
namespace StoreAudit.Generate
open StoreAudit.Random

/-- The operation under another id. -/
def Executed.withId (e : Executed) (id : Nat) : Executed :=
  { e with operation := { e.operation with id } }

/-- The operation with its client. -/
def Executed.issued (e : Executed) : ClientOperation := ⟨e.client, e.operation⟩

theorem mem_number {e : Executed} {done : List Executed} :
    e ∈ number done ↔ ∃ i, ∃ f : Executed, done[i]? = some f ∧ f.withId i = e := by
  simp only [number, List.mem_map, Prod.exists, List.mem_zipIdx_iff_getElem?]
  exact exists_comm

theorem exists_eq_withId {e : Executed} {done : List Executed}
    (he : e ∈ number (done.mergeSort Executed.le)) : ∃ f ∈ done, ∃ i, f.withId i = e := by
  obtain ⟨i, f, hf, rfl⟩ := mem_number.mp he
  exact ⟨f, List.mem_mergeSort.mp (List.mem_of_getElem? hf), i, rfl⟩

theorem exists_withId_mem {f : Executed} {done : List Executed} (hf : f ∈ done) :
    ∃ i, f.withId i ∈ number (done.mergeSort Executed.le) := by
  obtain ⟨i, hi⟩ := List.mem_iff_getElem?.mp (List.mem_mergeSort.mpr hf)
  exact ⟨i, mem_number.mpr ⟨i, f, hi, rfl⟩⟩

theorem map_id_number (done : List Executed) :
    (number done).map (·.operation.id) = List.range done.length := by
  rw [number, List.map_map, List.range_eq_range', ← List.zipIdx_map_snd 0 done]
  rfl

/-- Numbering leaves alone what does not depend on the ids. -/
theorem map_filter_number {β : Type} (done : List Executed) (keep : Executed → Bool)
    (f : Executed → β) (hkeep : ∀ e i, keep (e.withId i) = keep e)
    (hf : ∀ e i, f (e.withId i) = f e) :
    ((number done).filter keep).map f = (done.filter keep).map f := by
  have hnumber : number done = done.zipIdx.map fun e => e.1.withId e.2 := rfl
  have hkeep' : (keep ∘ fun e : Executed × Nat => e.1.withId e.2) = keep ∘ Prod.fst :=
    funext fun e => hkeep e.1 e.2
  have hf' : (f ∘ fun e : Executed × Nat => e.1.withId e.2) = f ∘ Prod.fst :=
    funext fun e => hf e.1 e.2
  conv_rhs => rw [← List.zipIdx_map_fst 0 done, List.filter_map, List.map_map]
  rw [hnumber, List.filter_map, List.map_map, hkeep', hf']

theorem map_finish_number (done : List Executed) :
    (number done).map (·.operation.finish) = done.map (·.operation.finish) := by
  have hmap := map_filter_number done (fun _ => true) (·.operation.finish) (fun _ _ => rfl)
    fun _ _ => rfl
  rwa [List.filter_true, List.filter_true] at hmap

def Executed.turn (e : Executed) : ℕ ×ₗ ℕ ×ₗ ℕ :=
  toLex (e.operation.finish, toLex (e.operation.start, e.client))

theorem Executed.le_iff (e f : Executed) : e.le f ↔ e.turn ≤ f.turn := by
  simp [Executed.le, turn, Prod.Lex.toLex_le_toLex]

theorem pairwise_finish (done : List Executed) :
    (done.mergeSort Executed.le).Pairwise fun e f => e.operation.finish ≤ f.operation.finish := by
  have hsorted := pairwise_key_mergeSort Executed.le_iff done
  exact hsorted.imp fun {e f} hef => Prod.Lex.monotone_fst e.turn f.turn hef

section Generated
variable {σ : Type} (d : Draws σ) (p : Params) (s : σ)

/-- The operations in the order in which they took effect. -/
def carriedOut : List Executed :=
  (execute d p.staleChance (schedule d p s).1 0 (List.replicate p.keys []) (schedule d p s).2).1

theorem executed_eq_number {p : Params} (hkeys : 0 < p.keys) :
    executed d p s = number ((carriedOut d p s).mergeSort Executed.le) := by
  rw [executed, if_neg (Nat.ne_of_gt hkeys)]
  rfl

theorem exists_number_eq_executed :
    ∃ done, executed d p s = number (List.mergeSort done Executed.le) := by
  by_cases hkeys : p.keys = 0
  · exact ⟨[], by rw [executed, if_pos hkeys, List.mergeSort_nil]; rfl⟩
  · exact ⟨_, executed_eq_number d s (Nat.pos_of_ne_zero hkeys)⟩

theorem map_id_operations : ((operations d p s).map (·.operation)).map (·.id) =
    List.range ((operations d p s).map (·.operation)).length := by
  obtain ⟨done, hdone⟩ := exists_number_eq_executed d p s
  have hids := map_id_number (done.mergeSort Executed.le)
  rw [← hdone] at hids
  have hlength : (done.mergeSort Executed.le).length = (executed d p s).length := by
    rw [hdone, number, List.length_map, List.length_zipIdx]
  rw [operations, List.map_map, List.map_map, List.length_map, List.length_map, ← hlength, ← hids]
  rfl

theorem pairwise_finish_operations :
    (operations d p s).Pairwise fun t u => t.operation.finish ≤ u.operation.finish := by
  obtain ⟨done, hdone⟩ := exists_number_eq_executed d p s
  have hsorted := List.pairwise_map.mpr (pairwise_finish done)
  rw [← map_finish_number, ← hdone, List.pairwise_map] at hsorted
  exact List.pairwise_map.mpr hsorted

theorem exists_carriedOut {p : Params} (hkeys : 0 < p.keys) {op : ClientOperation}
    (hop : op ∈ operations d p s) : ∃ e ∈ carriedOut d p s, ∃ i, (e.withId i).issued = op := by
  obtain ⟨f, hf, rfl⟩ := List.mem_map.mp hop
  rw [executed_eq_number d s hkeys] at hf
  obtain ⟨e, he, i, rfl⟩ := exists_eq_withId hf
  exact ⟨e, he, i, rfl⟩

theorem exists_mem_operations {p : Params} (hkeys : 0 < p.keys) {e : Executed}
    (he : e ∈ carriedOut d p s) : ∃ i, (e.withId i).issued ∈ operations d p s := by
  obtain ⟨i, hi⟩ := exists_withId_mem he
  rw [← executed_eq_number d s hkeys] at hi
  exact ⟨i, List.mem_map_of_mem hi⟩

/-- Apart from their ids and their order, the operations are those that were carried out. -/
theorem map_filter_operations_perm {p : Params} (hkeys : 0 < p.keys) {β : Type}
    (keep : ClientOperation → Bool) (f : ClientOperation → β)
    (hkeep : ∀ (e : Executed) i, keep (e.withId i).issued = keep e.issued)
    (hf : ∀ (e : Executed) i, f (e.withId i).issued = f e.issued) :
    (((operations d p s).filter keep).map f).Perm
      (((carriedOut d p s).filter fun e => keep e.issued).map fun e => f e.issued) := by
  have hops : operations d p s =
      (number ((carriedOut d p s).mergeSort Executed.le)).map Executed.issued := by
    rw [← executed_eq_number d s hkeys]
    rfl
  have hperm := ((carriedOut d p s).mergeSort_perm Executed.le).filter fun e => keep e.issued
  rw [hops, List.filter_map, List.map_map]
  exact (List.Perm.of_eq (map_filter_number _ _ _ hkeep hf)).trans (hperm.map _)

end Generated
end StoreAudit.Generate
