import StoreAudit.Proofs.Generate.MessageLog
import StoreAudit.Proofs.Log.RecordReader

/-! The record log of operations is read back as the operations, numbered from 0 and with a version
each. Those of a generated history are numbered that way and have versions. -/
namespace StoreAudit

namespace Operation
variable {ops : List Operation}

/-- What is read back from the records of the operations. -/
def recordedAll (ops : List Operation) : List Operation :=
  ops.zipIdx.map fun (op, id) => op.recorded id

theorem recorded_id_eq_self {op : Operation} (h : op.version ≠ none) : op.recorded op.id = op := by
  obtain ⟨v, hv⟩ := Option.ne_none_iff_exists'.mp h
  rw [recorded, hv, Option.getD_some, ← hv]

theorem length_recordedAll (ops : List Operation) : (recordedAll ops).length = ops.length := by
  rw [recordedAll, List.length_map, List.length_zipIdx]

theorem recordedAll_eq_self (hids : ops.map (·.id) = List.range ops.length)
    (hversion : ∀ op ∈ ops, op.version ≠ none) : recordedAll ops = ops := by
  refine List.ext_getElem (length_recordedAll ops) fun i _ hi => ?_
  have hid : ops[i].id = i := by
    have hget := List.getElem_of_eq hids (by rwa [List.length_map])
    rwa [List.getElem_map, List.getElem_range] at hget
  have hrecorded := recorded_id_eq_self (hversion _ (List.getElem_mem hi))
  rw [hid] at hrecorded
  conv_rhs => rw [← hrecorded]
  simp [recordedAll]

/-- A record log holds the lines of its operations. -/
theorem lines_renderLog (ops : List Operation) :
    Text.lines (renderLog ops).toUTF8 = (ops.map render).map some := by
  have hlines : ∀ l ∈ ops.map render, '\n' ∉ l.toList ∧ '\r' ∉ l.toList := by
    intro l hl
    obtain ⟨op, -, rfl⟩ := List.mem_map.mp hl
    exact op.notMem_render
  rw [← Text.lines_join hlines, List.map_map]
  rfl

end Operation

namespace Generate
open StoreAudit.Random
variable {σ : Type} {d : Draws σ} {p : Params} {s : σ}

theorem version_execute {chance : Chance} {planned : List Planned} {values : Nat}
    {registers : List (List Commit)} :
    ∀ e ∈ (execute d chance planned values registers s).1, e.operation.version ≠ none := by
  induction planned generalizing values registers s with
  | nil => exact fun e he => nomatch he
  | cons p planned ih =>
    unfold execute
    cases registers[p.key]? with
    | none => exact ih
    | some commits =>
      cases p.action with
      | write =>
        rw [List.forall_mem_cons]
        exact ⟨Option.some_ne_none _, ih⟩
      | read =>
        dsimp only
        split
        · rw [List.forall_mem_cons]
          exact ⟨Option.some_ne_none _, ih⟩
        · exact ih

theorem version_operations (d : Draws σ) (p : Params) (s : σ) :
    ∀ op ∈ operations d p s, op.operation.version ≠ none := by
  intro op hop
  obtain ⟨e, he, rfl⟩ := List.mem_map.mp hop
  unfold executed at he
  split_ifs at he with hkeys
  · exact nomatch he
  · obtain ⟨f, hf, i, rfl⟩ := exists_eq_withId he
    exact version_execute f hf

/-- A reader takes every line of the log for a record, and the records are these operations. -/
def ReadsAs (log : String) (ops : List Operation) : Prop :=
  ∃ lines : List String, Text.lines log.toUTF8 = lines.map some ∧
    ({} : RecordReader).readAll lines =
      (ops.map fun op => .ok (.record op), { nextId := ops.length, line := ops.length })

/-- A record log is read back as its operations under their places and with a version each, and
that of a generated history as its operations as they are. -/
theorem readsAs_recordLog :
    (∀ ops, (∀ op ∈ ops, op.Fits) →
      ReadsAs (Operation.renderLog ops) (Operation.recordedAll ops)) ∧
    ∀ {σ : Type} (d : Draws σ) (p : Params) (s : σ),
      (∀ op ∈ operations d p s, op.operation.Fits) →
        ReadsAs (recordLog (operations d p s)) ((operations d p s).map (·.operation)) := by
  have hlog (ops : List Operation) (h : ∀ op ∈ ops, op.Fits) :
      ReadsAs (Operation.renderLog ops) (Operation.recordedAll ops) := by
    refine ⟨_, Operation.lines_renderLog ops, ?_⟩
    rw [RecordReader.readAll_render {} h, Operation.length_recordedAll, Operation.recordedAll,
      List.map_map]
    simp only [Nat.zero_add]
    rfl
  refine ⟨hlog, fun d p s hfits => ?_⟩
  have hgenerated := hlog _ (List.forall_mem_map.mpr hfits)
  rwa [Operation.recordedAll_eq_self (map_id_operations d p s)
    (List.forall_mem_map.mpr (version_operations d p s))] at hgenerated

/-- A read that nobody answered, with its times the wrong way around and without a key, and a failed
write under the same id. -/
def unanswered : List Operation :=
  [⟨9, .read, [], [], 18446744073709551615, 0, none, .unknown⟩,
    ⟨9, .write, [1, 20], [7], 5, 5, some 3, .failure⟩]

theorem readsAs_unanswered :
    (∀ op ∈ unanswered, op.Fits) ∧
      ReadsAs "18446744073709551615 0 read [] [] 0 unknown\n5 5 write [1 20] [7] 3 error\n"
        [⟨0, .read, [], [], 18446744073709551615, 0, some 0, .unknown⟩,
          ⟨1, .write, [1, 20], [7], 5, 5, some 3, .failure⟩] ∧
      (∀ op ∈ seeded contested 19, op.operation.Fits) ∧
      ReadsAs (recordLog (seeded contested 19)) ((seeded contested 19).map (·.operation)) := by
  have hfits : ∀ op ∈ unanswered, op.Fits := by
    simp only [unanswered, List.forall_mem_cons]
    refine ⟨?_, ?_, nofun⟩
    all_goals constructor <;> simp [Words.Fits, wordLimit]
  have hlog : Operation.renderLog unanswered =
      "18446744073709551615 0 read [] [] 0 unknown\n5 5 write [1 20] [7] 3 error\n" := by
    decide
  have hreads := readsAs_recordLog.1 unanswered hfits
  rw [hlog] at hreads
  exact ⟨hfits, hreads, fits_seeded_contested, readsAs_recordLog.2 _ _ _ fits_seeded_contested⟩

end Generate
end StoreAudit
