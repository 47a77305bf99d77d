import StoreAudit.Proofs.Generate.Completion
import StoreAudit.Proofs.Generate.Register
import StoreAudit.Proofs.Generate.Schedule

/-! What becomes of the planned operations. None is left out if every key is written before it is
read. Versions and values count the writes, and a read returns what was written by an operation that
it did not precede. -/
namespace StoreAudit.Generate
open StoreAudit.Random

namespace ClientOperation

def slot (op : ClientOperation) : Slot where
  client := op.client
  start := op.operation.start
  finish := op.operation.finish
  action := op.operation.action
  key := op.operation.key

/-- It is a write of the key. -/
def writes (key : Nat) (op : ClientOperation) : Bool :=
  op.operation.isWrite && op.operation.key == [key]

/-- The write `w` wrote what `r` returned, and started no later than that ended. -/
structure SourceOf (w r : ClientOperation) : Prop where
  isWrite : w.operation.isWrite
  key : w.operation.key = r.operation.key
  value : w.operation.value = r.operation.value
  version : w.operation.version = r.operation.version
  start_le_finish : w.operation.start ≤ r.operation.finish

end ClientOperation

theorem writes_execute {p : Planned} (stale : Bool) (c : Commit) {key : Nat} :
    (p.execute stale c).issued.writes key ↔ p.action = .write ∧ p.key = key := by
  simp [ClientOperation.writes, Executed.issued, Planned.execute, Operation.isWrite]

/-- What is planned goes by the points of effect, and every key that is read has a commit already or
is written before. -/
structure Supplied (registers : List (List Commit)) (planned : List Planned) : Prop where
  sorted : planned.Pairwise fun q r => q.point ≤ r.point
  written : ∀ q ∈ planned, q.action = .read → commitsOf registers q.key ≠ [] ∨
    ∃ w ∈ planned, w.action = .write ∧ w.key = q.key ∧ w.point < q.point

namespace Supplied
variable {registers : List (List Commit)} {p : Planned} {rest : List Planned}

/-- No write comes before the first operation. -/
theorem commitsOf_ne_nil (h : Supplied registers (p :: rest)) (haction : p.action = .read) :
    commitsOf registers p.key ≠ [] := by
  obtain ⟨hfirst, -⟩ := List.pairwise_cons.mp h.sorted
  rcases h.written p List.mem_cons_self haction with hne | ⟨w, hw, -, -, hpoint⟩
  · exact hne
  · rcases List.mem_cons.mp hw with rfl | hw
    · exact absurd hpoint (Nat.lt_irrefl _)
    · exact absurd hpoint (Nat.not_lt_of_le (hfirst w hw))

theorem read (h : Supplied registers (p :: rest)) (haction : p.action = .read) :
    Supplied registers rest := by
  refine ⟨(List.pairwise_cons.mp h.sorted).2, fun q hq hread => ?_⟩
  refine (h.written q (List.mem_cons_of_mem p hq) hread).imp_right ?_
  rintro ⟨w, hw, hwrite, hw'⟩
  rcases List.mem_cons.mp hw with rfl | hw
  · cases haction.symm.trans hwrite
  · exact ⟨w, hw, hwrite, hw'⟩

theorem write (h : Supplied registers (p :: rest)) (hkey : p.key < registers.length) (c : Commit) :
    Supplied (registers.set p.key (commitsOf registers p.key ++ [c])) rest := by
  refine ⟨(List.pairwise_cons.mp h.sorted).2, fun q hq hread => ?_⟩
  rw [commitsOf_set hkey]
  split_ifs with hsame
  · exact .inl (List.concat_ne_nil c _)
  · refine (h.written q (List.mem_cons_of_mem p hq) hread).imp_right ?_
    rintro ⟨w, hw, hwrite, hwkey, hpoint⟩
    rcases List.mem_cons.mp hw with rfl | hw
    · exact absurd hwkey hsame
    · exact ⟨w, hw, hwrite, hwkey, hpoint⟩

end Supplied

section Execution
variable {σ : Type} (d : Draws σ) (chance : Chance)

theorem exists_observe (hd : d.InRange) {commits : List Commit} (hne : commits ≠ []) (start : Nat)
    (s : σ) : ∃ observed, (observe d chance start commits s).1 = some observed := by
  have hlast : ∃ observed, commits.getLast?.map (·, false) = some observed :=
    ⟨_, by rw [List.getLast?_eq_some_getLast hne, Option.map_some]⟩
  simp only [observe]
  split
  case isTrue => exact hlast
  case isFalse hold =>
    split
    case isTrue =>
      have hpos : 0 < (superseded start commits).length := by
        rwa [List.isEmpty_iff, ← ne_eq, ← List.length_pos_iff] at hold
      have hindex := hd.index_lt _ (d.happens chance s).2 hpos
      exact ⟨_, by rw [List.getElem?_eq_getElem hindex, Option.map_some]⟩
    case isFalse => exact hlast

/-- Everything that is planned is carried out, in its order. -/
theorem map_slot_execute (hd : d.InRange) (planned : List Planned) (values : Nat)
    (registers : List (List Commit)) (s : σ) (hkeys : ∀ p ∈ planned, p.key < registers.length)
    (hsupplied : Supplied registers planned) :
    (execute d chance planned values registers s).1.map (·.issued.slot) =
      planned.map Planned.slot := by
  induction planned generalizing values registers s with
  | nil => rfl
  | cons p rest ih =>
    obtain ⟨hkey, hrest⟩ := List.forall_mem_cons.mp hkeys
    have hregister := getElem?_eq_some_commitsOf hkey
    cases haction : p.action with
    | write =>
      have hset := ih (values + 1) (registers.set p.key (commitsOf registers p.key ++
        [⟨values + 1, (commitsOf registers p.key).length + 1, p.finish⟩])) s
        (by simpa using hrest) (hsupplied.write hkey _)
      simp only [execute, hregister, haction]
      exact congrArg (p.slot :: ·) hset
    | read =>
      have hread := ih values registers
        (observe d chance p.start (commitsOf registers p.key) s).2 hrest (hsupplied.read haction)
      obtain ⟨observed, hobserved⟩ :=
        exists_observe d chance hd (hsupplied.commitsOf_ne_nil haction) p.start s
      simp only [execute, hregister, haction, hobserved]
      exact congrArg (p.slot :: ·) hread

/-- The values count the writes, whatever becomes of the reads. -/
theorem map_value_execute (planned : List Planned) (values : Nat)
    (registers : List (List Commit)) (s : σ) (hkeys : ∀ p ∈ planned, p.key < registers.length) :
    ((execute d chance planned values registers s).1.filter (·.operation.isWrite)).map
      (·.operation.value) =
      (List.range' (values + 1) (planned.countP (·.action == .write))).map ([·]) := by
  induction planned generalizing values registers s with
  | nil => rfl
  | cons p rest ih =>
    obtain ⟨hkey, hrest⟩ := List.forall_mem_cons.mp hkeys
    have hregister := getElem?_eq_some_commitsOf hkey
    cases haction : p.action with
    | write =>
      have hwrite (c : Commit) : (p.execute false c).operation.isWrite := beq_iff_eq.mpr haction
      have hset (commits : List Commit) := ih (values + 1) (registers.set p.key commits) s
        (by simpa using hrest)
      simp only [execute, hregister, haction, List.filter_cons, hwrite, if_true, List.map_cons,
        hset, List.countP_cons, beq_self_eq_true, List.range'_succ]
      rfl
    | read =>
      have hread (stale : Bool) (c : Commit) :
          (p.execute stale c).operation.isWrite = false := by
        simp [Planned.execute, Operation.isWrite, haction]
      have hcount : (p :: rest).countP (·.action == .write) =
          rest.countP (·.action == .write) := List.countP_cons_of_neg (by simp [haction])
      simp only [execute, hregister, haction, hcount]
      cases (observe d chance p.start (commitsOf registers p.key) s).1 with
      | none => exact ih values registers _ hrest
      | some observed =>
        simp only [List.filter_cons, hread, Bool.false_eq_true, if_false]
        exact ih values registers _ hrest

end Execution

namespace Run
variable {planned : List Planned} {registers final : List (List Commit)} {done : List Executed}

/-- The writes of a key go on counting its versions. -/
theorem map_version (h : Run planned registers done final) (key : Nat) :
    (done.filter (·.issued.writes key)).map (·.operation.version) =
      (List.range' ((commitsOf registers key).length + 1)
        (done.countP (·.issued.writes key))).map some := by
  induction h with
  | nil => rfl
  | @step p rest registers done final stale c after hkey hstep _ ih =>
    rw [commitsOf_set hkey] at ih
    by_cases hwrites : p.action = .write ∧ p.key = key
    · obtain ⟨haction, rfl⟩ := hwrites
      rw [if_pos rfl, hstep.length_of_write haction] at ih
      have hhead := (writes_execute stale c).mpr ⟨haction, rfl⟩
      simp only [List.filter_cons, List.countP_cons, hhead, if_true, List.map_cons, ih,
        List.range'_succ, ← hstep.version_of_write haction]
      rfl
    · -- A read of the key leaves its commits as they are.
      have hsame : (if p.key = key then after else commitsOf registers key) =
          commitsOf registers key := by
        split_ifs with hkeys
        · rw [hstep.eq_of_ne_write fun haction => hwrites ⟨haction, hkeys⟩, hkeys]
        · rfl
      have hhead := Bool.eq_false_iff.mpr (mt (writes_execute stale c).mp hwrites)
      rw [hsame] at ih
      simp only [List.filter_cons, List.countP_cons, hhead, Bool.false_eq_true, if_false]
      exact ih
  | absent _ ih => exact ih

/-- What a read returns was there at the start, or was written by an operation that comes before the
read and so did not start after it. -/
theorem exists_source (h : Run planned registers done final)
    (hplanned : planned.Pairwise fun q r => q.start ≤ r.finish) {e : Executed} (he : e ∈ done)
    (hread : e.operation.isRead) :
    (∃ q ∈ planned, ∃ c ∈ commitsOf registers q.key, e = q.execute e.stale c) ∨
      ∃ w ∈ done, w.issued.SourceOf e.issued := by
  induction h with
  | nil => exact absurd he List.not_mem_nil
  | @step p rest registers done final stale c after hkey hstep hrun ih =>
    obtain ⟨hfirst, hrest⟩ := List.pairwise_cons.mp hplanned
    rcases List.mem_cons.mp he with rfl | he
    · have hread : p.action = .read := beq_iff_eq.mp hread
      have hbefore := hstep.eq_of_ne_write (by rw [hread]; nofun)
      exact .inl ⟨p, List.mem_cons_self, c, hbefore ▸ hstep.mem_after, rfl⟩
    · rcases ih hrest he with ⟨q, hq, x, hx, hexecute⟩ | ⟨w, hw, hsource⟩
      · -- What the rest started with was there before, or is what `p` wrote.
        rw [commitsOf_set hkey] at hx
        split_ifs at hx with hsame
        · rcases hstep.mem_before_or_write hx with hx | ⟨rfl, rfl, haction, -⟩
          · exact .inl ⟨q, List.mem_cons_of_mem p hq, x, hsame ▸ hx, hexecute⟩
          · refine .inr ⟨_, List.mem_cons_self, ?_⟩
            rw [hexecute]
            exact ⟨beq_iff_eq.mpr haction, congrArg (fun key => [key]) hsame, rfl, rfl, hfirst q hq⟩
        · exact .inl ⟨q, List.mem_cons_of_mem p hq, x, hx, hexecute⟩
      · exact .inr ⟨w, List.mem_cons_of_mem _ hw, hsource⟩
  | @absent p rest registers done final _ ih =>
    rcases ih (List.pairwise_cons.mp hplanned).2 he with ⟨q, hq, hc⟩ | hsource
    · exact .inl ⟨q, List.mem_cons_of_mem p hq, hc⟩
    · exact .inr hsource

end Run
end StoreAudit.Generate
