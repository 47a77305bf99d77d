import Mathlib.Data.List.Basic
import StoreAudit.Generate.Register
import StoreAudit.Random.Draws

/-! What a run of the planned operations leaves in the registers, whatever was drawn, and how the
operations that were carried out are related to it. -/
namespace StoreAudit.Generate
open StoreAudit.Random

/-- The commits of a key. -/
def commitsOf (registers : List (List Commit)) (key : Nat) : List Commit := registers.getD key []

/-- What an operation may do to the commits of its key: a write adds the one it returns, and a read
returns the last, or as a stale one any that was superseded. -/
inductive Planned.Step (p : Planned) (before : List Commit) : Bool → Commit → List Commit → Prop
  | write {c} : p.action = .write → c.version = before.length + 1 → c.finish = p.finish →
      Step p before false c (before ++ [c])
  | latest {c} : p.action = .read → before.getLast? = some c → Step p before false c before
  | stale {c} : p.action = .read → c ∈ superseded p.start before → Step p before true c before

/-- The planned operations take the registers to those at the end, step by step, and these are
carried out. A read may be left out. -/
inductive Run : List Planned → List (List Commit) → List Executed → List (List Commit) → Prop
  | nil {registers} : Run [] registers [] registers
  | step {p rest registers done final stale c after} : p.key < registers.length →
      p.Step (commitsOf registers p.key) stale c after →
      Run rest (registers.set p.key after) done final →
      Run (p :: rest) registers (p.execute stale c :: done) final
  | absent {p rest registers done final} :
      Run rest registers done final → Run (p :: rest) registers done final

theorem commitsOf_replicate (keys key : Nat) : commitsOf (List.replicate keys []) key = [] := by
  rw [commitsOf, List.getD_eq_getElem?_getD, List.getElem?_replicate]
  split_ifs <;> rfl

section Execution
variable {σ : Type} (d : Draws σ) (chance : Chance)

theorem step_of_observe {p : Planned} (haction : p.action = .read) {commits : List Commit} {s : σ}
    {c : Commit} {stale : Bool} (h : (observe d chance p.start commits s).1 = some (c, stale)) :
    p.Step commits stale c commits := by
  simp only [observe] at h
  split at h
  · obtain ⟨c, hlast, h⟩ := Option.map_eq_some_iff.mp h
    cases h
    exact .latest haction hlast
  · split at h
    · obtain ⟨c, hold, h⟩ := Option.map_eq_some_iff.mp h
      cases h
      exact .stale haction (List.mem_of_getElem? hold)
    · obtain ⟨c, hlast, h⟩ := Option.map_eq_some_iff.mp h
      cases h
      exact .latest haction hlast

theorem getElem?_eq_some_commitsOf {registers : List (List Commit)} {key : Nat}
    (hkey : key < registers.length) : registers[key]? = some (commitsOf registers key) := by
  rw [commitsOf, List.getD_eq_getElem?_getD, List.getElem?_eq_getElem hkey, Option.getD_some]

theorem set_commitsOf {registers : List (List Commit)} {key : Nat} (hkey : key < registers.length) :
    registers.set key (commitsOf registers key) = registers := by
  rw [commitsOf, List.getD_eq_getElem?_getD, List.getElem?_eq_getElem hkey, Option.getD_some,
    List.set_getElem_self]

theorem execute_run (planned : List Planned) (values : Nat) (registers : List (List Commit)) (s : σ)
    (hkeys : ∀ p ∈ planned, p.key < registers.length) :
    ∃ final, Run planned registers (execute d chance planned values registers s).1 final := by
  induction planned generalizing values registers s with
  | nil => exact ⟨registers, .nil⟩
  | cons p rest ih =>
    obtain ⟨hkey, hrest⟩ := List.forall_mem_cons.mp hkeys
    have hregister := getElem?_eq_some_commitsOf hkey
    cases haction : p.action with
    | write =>
      let c : Commit := ⟨values + 1, (commitsOf registers p.key).length + 1, p.finish⟩
      obtain ⟨final, hrun⟩ := ih (values + 1)
        (registers.set p.key (commitsOf registers p.key ++ [c])) s (by simpa using hrest)
      simp only [execute, hregister, haction]
      exact ⟨final, .step hkey (.write haction rfl rfl) hrun⟩
    | read =>
      obtain ⟨final, hrun⟩ := ih values registers
        (observe d chance p.start (commitsOf registers p.key) s).2 hrest
      refine ⟨final, ?_⟩
      simp only [execute, hregister, haction]
      cases hobs : (observe d chance p.start (commitsOf registers p.key) s).1 with
      | none => exact .absent hrun
      | some observed =>
        refine .step hkey (step_of_observe d chance haction hobs) ?_
        rwa [set_commitsOf hkey]

theorem observe_never (hnever : ∀ s, (d.happens (.outOf64 0) s).1 = false) {start : Nat}
    {commits : List Commit} {s : σ} {c : Commit} {stale : Bool}
    (h : (observe d (.outOf64 0) start commits s).1 = some (c, stale)) :
    stale = false := by
  simp only [observe, hnever, Bool.false_eq_true, if_false] at h
  split at h
  all_goals
    obtain ⟨c, -, h⟩ := Option.map_eq_some_iff.mp h
    cases h
    rfl

theorem execute_never (hnever : ∀ s, (d.happens (.outOf64 0) s).1 = false)
    (planned : List Planned) (values : Nat) (registers : List (List Commit)) (s : σ) :
    ∀ e ∈ (execute d (.outOf64 0) planned values registers s).1, e.stale = false := by
  induction planned generalizing values registers s with
  | nil => simp [execute]
  | cons p rest ih =>
    intro e he
    cases hregister : registers[p.key]? with
    | none =>
      simp only [execute, hregister] at he
      exact ih _ _ _ e he
    | some commits =>
      cases haction : p.action with
      | write =>
        simp only [execute, hregister, haction, List.mem_cons] at he
        rcases he with rfl | he
        · rfl
        · exact ih _ _ _ e he
      | read =>
        simp only [execute, hregister, haction] at he
        cases hobs : (observe d (.outOf64 0) p.start commits s).1 with
        | none =>
          rw [hobs] at he
          exact ih _ _ _ e he
        | some observed =>
          rw [hobs] at he
          rcases List.mem_cons.mp he with rfl | he
          · exact observe_never d hnever hobs
          · exact ih _ _ _ e he

end Execution

/-- The versions of the commits count them from 1. -/
def Numbered (commits : List Commit) : Prop :=
  ∀ i c, commits[i]? = some c → c.version = i + 1

namespace Numbered
variable {commits : List Commit} {c c' : Commit}

theorem nil : Numbered [] := nofun

theorem concat (h : Numbered commits) (hc : c.version = commits.length + 1) :
    Numbered (commits ++ [c]) := by
  intro i x hx
  rw [List.getElem?_append] at hx
  split_ifs at hx with hi
  · exact h i x hx
  · obtain ⟨hi', rfl⟩ := List.getElem?_eq_some_iff.mp hx
    simp only [List.length_singleton] at hi'
    rw [List.getElem_singleton, hc]
    omega

theorem of_isPrefix {rest : List Commit} (h : Numbered rest) (hp : commits <+: rest) :
    Numbered commits := by
  intro i c hc
  obtain ⟨hi, rfl⟩ := List.getElem?_eq_some_iff.mp hc
  exact h i _ (List.prefix_iff_getElem?.mp hp i hi)

theorem version_le_length (h : Numbered commits) (hc : c ∈ commits) :
    c.version ≤ commits.length := by
  obtain ⟨i, hi⟩ := List.mem_iff_getElem?.mp hc
  obtain ⟨hlt, -⟩ := List.getElem?_eq_some_iff.mp hi
  rw [h i c hi]
  exact hlt

/-- A version determines the commit. -/
theorem eq_of_version_eq (h : Numbered commits) (hc : c ∈ commits) (hc' : c' ∈ commits)
    (hversion : c.version = c'.version) : c = c' := by
  obtain ⟨i, hi⟩ := List.mem_iff_getElem?.mp hc
  obtain ⟨j, hj⟩ := List.mem_iff_getElem?.mp hc'
  rw [h i c hi, h j c' hj, Nat.add_right_cancel_iff] at hversion
  subst hversion
  exact Option.some.inj (hi.symm.trans hj)

theorem version_eq_length (h : Numbered commits) (hc : commits.getLast? = some c) :
    c.version = commits.length := by
  have hlength := List.length_pos_of_mem (List.mem_of_getLast? hc)
  rw [List.getLast?_eq_getElem?] at hc
  rw [h _ c hc]
  omega

end Numbered

theorem mem_superseded {start : Nat} {commits : List Commit} {c : Commit} :
    c ∈ superseded start commits ↔ ∃ i, commits[i]? = some c ∧
      ∃ next, commits[i + 1]? = some next ∧ next.finish < start := by
  simp only [superseded, List.mem_filterMap, Prod.exists, Option.ite_none_right_eq_some,
    Option.some.injEq]
  constructor
  · rintro ⟨_, next, hmem, hfinish, rfl⟩
    obtain ⟨i, hi⟩ := List.mem_iff_getElem?.mp hmem
    obtain ⟨hfirst, hnext⟩ := List.getElem?_zip_eq_some.mp hi
    exact ⟨i, hfirst, next, List.getElem?_tail ▸ hnext, hfinish⟩
  · rintro ⟨i, hfirst, next, hnext, hfinish⟩
    refine ⟨c, next, List.mem_of_getElem? (i := i) ?_, hfinish, rfl⟩
    exact List.getElem?_zip_eq_some.mpr ⟨hfirst, List.getElem?_tail.symm ▸ hnext⟩

namespace Planned.Step
variable {p : Planned} {before after : List Commit} {stale : Bool} {c : Commit}

theorem isPrefix (h : p.Step before stale c after) : before <+: after := by
  cases h with
  | write => exact List.prefix_append ..
  | latest | stale => exact List.prefix_rfl

theorem mem_after (h : p.Step before stale c after) : c ∈ after := by
  cases h with
  | write => exact List.mem_concat_self
  | latest _ hlast => exact List.mem_of_getLast? hlast
  | stale _ hold =>
    obtain ⟨i, hfirst, -⟩ := mem_superseded.mp hold
    exact List.mem_of_getElem? hfirst

theorem version_of_write (h : p.Step before stale c after) (haction : p.action = .write) :
    c.version = before.length + 1 := by
  cases h with
  | write _ hversion => exact hversion
  | latest hread | stale hread => cases haction.symm.trans hread

theorem length_of_write (h : p.Step before stale c after) (haction : p.action = .write) :
    after.length = before.length + 1 := by
  cases h with
  | write => rw [List.length_append, List.length_singleton]
  | latest hread | stale hread => cases haction.symm.trans hread

theorem eq_of_ne_write (h : p.Step before stale c after) (haction : p.action ≠ .write) :
    after = before := by
  cases h with
  | write hwrite => exact absurd hwrite haction
  | latest | stale => rfl

theorem numbered (h : p.Step before stale c after) (hn : Numbered before) : Numbered after := by
  cases h with
  | write _ hversion => exact hn.concat hversion
  | latest | stale => exact hn

theorem length_le_version (h : p.Step before false c after) (hn : Numbered before) :
    before.length ≤ c.version := by
  cases h with
  | write _ hversion => omega
  | latest _ hlast => exact Nat.le_of_eq (hn.version_eq_length hlast).symm

/-- What is there after a step was there before, or the step is a write of it. -/
theorem mem_before_or_write (h : p.Step before stale c after) {x : Commit} (hx : x ∈ after) :
    x ∈ before ∨ x = c ∧ stale = false ∧ p.action = .write ∧ p.finish = x.finish := by
  cases h with
  | write haction _ hfinish =>
    rw [List.mem_append, List.mem_singleton] at hx
    exact hx.imp_right fun hx => ⟨hx, rfl, haction, hx ▸ hfinish.symm⟩
  | latest | stale => exact .inl hx

/-- The successor of the commit that a stale read returns was over before the read started. -/
theorem exists_successor (h : p.Step before true c after) (hn : Numbered before) :
    ∃ next ∈ before, next.version = c.version + 1 ∧ next.finish < p.start := by
  cases h with
  | stale _ hold =>
    obtain ⟨i, hfirst, next, hnext, hfinish⟩ := mem_superseded.mp hold
    exact ⟨next, List.mem_of_getElem? hnext, by rw [hn _ _ hnext, hn _ _ hfirst], hfinish⟩

end Planned.Step

theorem commitsOf_set {registers : List (List Commit)} {k : Nat} (hk : k < registers.length)
    (commits : List Commit) (key : Nat) : commitsOf (registers.set k commits) key =
      if k = key then commits else commitsOf registers key := by
  simp only [commitsOf, List.getD_eq_getElem?_getD, List.getElem?_set]
  split_ifs <;> rfl

theorem Planned.Step.numbered_set {p : Planned} {registers : List (List Commit)} {stale : Bool}
    {c : Commit} {after : List Commit} (h : p.Step (commitsOf registers p.key) stale c after)
    (hkey : p.key < registers.length) (hn : ∀ key, Numbered (commitsOf registers key)) (key : Nat) :
    Numbered (commitsOf (registers.set p.key after) key) := by
  rw [commitsOf_set hkey]
  split_ifs
  · exact h.numbered (hn p.key)
  · exact hn key

namespace Run
variable {planned : List Planned} {registers final : List (List Commit)}
  {done : List Executed}

theorem commitsOf_isPrefix (h : Run planned registers done final) (key : Nat) :
    commitsOf registers key <+: commitsOf final key := by
  induction h with
  | nil => exact List.prefix_rfl
  | @step p rest registers done final stale c after hkey hstep hrun ih =>
    rw [commitsOf_set hkey] at ih
    split_ifs at ih with hp
    · rw [← hp] at ih ⊢
      exact hstep.isPrefix.trans ih
    · exact ih
  | absent _ ih => exact ih

theorem numbered (h : Run planned registers done final)
    (hn : ∀ key, Numbered (commitsOf registers key)) (key : Nat) :
    Numbered (commitsOf final key) := by
  induction h with
  | nil => exact hn key
  | step hkey hstep _ ih => exact ih (hstep.numbered_set hkey hn)
  | absent _ ih => exact ih hn

/-- What is carried out was planned, and was a step on what the register of its key held between the
start and the end. -/
theorem exists_step (h : Run planned registers done final) {e : Executed} (he : e ∈ done) :
    ∃ q ∈ planned, ∃ c before after, e = q.execute e.stale c ∧ q.Step before e.stale c after ∧
      commitsOf registers q.key <+: before ∧ after <+: commitsOf final q.key := by
  induction h with
  | nil => exact absurd he List.not_mem_nil
  | @step p rest registers done final stale c after hkey hstep hrun ih =>
    rcases List.mem_cons.mp he with rfl | he
    · have hafter := hrun.commitsOf_isPrefix p.key
      rw [commitsOf_set hkey, if_pos rfl] at hafter
      exact ⟨p, List.mem_cons_self .., c, _, after, rfl, hstep, List.prefix_rfl, hafter⟩
    · obtain ⟨q, hq, c', before, after', heq, hstep', hbefore, hafter⟩ := ih he
      refine ⟨q, List.mem_cons_of_mem p hq, c', before, after', heq, hstep', ?_, hafter⟩
      rw [commitsOf_set hkey] at hbefore
      split_ifs at hbefore with hp
      · exact hp ▸ hstep.isPrefix.trans hbefore
      · exact hbefore
  | @absent p _ _ _ _ _ ih =>
    obtain ⟨q, hq, hstep⟩ := ih he
    exact ⟨q, List.mem_cons_of_mem p hq, hstep⟩

theorem exists_commit (h : Run planned registers done final) {e : Executed} (he : e ∈ done) :
    ∃ q ∈ planned, ∃ c ∈ commitsOf final q.key, e = q.execute e.stale c := by
  obtain ⟨q, hq, c, before, after, heq, hstep, -, hafter⟩ := h.exists_step he
  exact ⟨q, hq, c, hafter.subset hstep.mem_after, heq⟩

theorem isRead_of_stale (h : Run planned registers done final) {e : Executed} (he : e ∈ done)
    (hstale : e.stale) : e.operation.isRead := by
  obtain ⟨q, -, c, before, after, heq, hstep, -⟩ := h.exists_step he
  rw [hstale] at heq hstep
  cases hstep with
  | stale haction =>
    rw [heq]
    exact beq_iff_eq.mpr haction

/-- A stale operation returns a commit whose successor was over before it started. -/
theorem exists_successor (h : Run planned registers done final)
    (hn : ∀ key, Numbered (commitsOf registers key)) {e : Executed} (he : e ∈ done)
    (hstale : e.stale) : ∃ q : Planned, ∃ c, e = q.execute true c ∧
      ∃ next ∈ commitsOf final q.key, next.version = c.version + 1 ∧ next.finish < q.start := by
  obtain ⟨q, -, c, before, after, heq, hstep, -, hafter⟩ := h.exists_step he
  rw [hstale] at heq hstep
  have hbefore := hstep.isPrefix.trans hafter
  obtain ⟨next, hnext, hversion⟩ :=
    hstep.exists_successor ((h.numbered hn q.key).of_isPrefix hbefore)
  exact ⟨q, c, heq, next, hbefore.subset hnext, hversion⟩

/-- Unless it is stale, an operation returns no older commit than any at the start. -/
theorem length_le_version (h : Run planned registers done final)
    (hn : ∀ key, Numbered (commitsOf registers key)) {e : Executed} (he : e ∈ done)
    (hfresh : e.stale = false) {key : Nat} (hkey : e.operation.key = [key]) :
    (commitsOf registers key).length ≤ e.operation.version.getD 0 := by
  obtain ⟨q, -, c, before, after, heq, hstep, hstart, hafter⟩ := h.exists_step he
  rw [hfresh] at heq hstep
  rw [heq] at hkey ⊢
  obtain rfl : q.key = key := List.singleton_inj.mp hkey
  have hbefore := (h.numbered hn q.key).of_isPrefix (hstep.isPrefix.trans hafter)
  exact Nat.le_trans hstart.length_le (hstep.length_le_version hbefore)

/-- Every commit that was not there at the start was made by a write that was carried out. -/
theorem exists_write (h : Run planned registers done final) {key : Nat} {c : Commit}
    (hc : c ∈ commitsOf final key) : c ∈ commitsOf registers key ∨
      ∃ q : Planned, q.action = .write ∧ q.key = key ∧ q.finish = c.finish ∧
        q.execute false c ∈ done := by
  induction h with
  | nil => exact .inl hc
  | @step p rest registers done final stale c' after hkey hstep hrun ih =>
    rcases ih hc with hc | ⟨q, hq, hqkey, hfinish, hmem⟩
    · rw [commitsOf_set hkey] at hc
      split_ifs at hc with hp
      · rcases hstep.mem_before_or_write hc with hc | ⟨rfl, rfl, haction, hfinish⟩
        · exact .inl (hp ▸ hc)
        · exact .inr ⟨p, haction, hp, hfinish, List.mem_cons_self ..⟩
      · exact .inl hc
    · exact .inr ⟨q, hq, hqkey, hfinish, List.mem_cons_of_mem _ hmem⟩
  | absent _ ih => exact ih hc

/-- Later operations on a key return no older commits unless they are stale. -/
theorem pairwise_version_le (h : Run planned registers done final)
    (hn : ∀ key, Numbered (commitsOf registers key)) : done.Pairwise fun e f =>
      f.stale = false → e.operation.key = f.operation.key →
        e.operation.version.getD 0 ≤ f.operation.version.getD 0 := by
  induction h with
  | nil => exact .nil
  | @step p rest registers done final stale c after hlt hstep hrun ih =>
    have hset := hstep.numbered_set hlt hn
    refine List.pairwise_cons.mpr ⟨fun f hf hfresh hkey => ?_, ih hset⟩
    have hversion := hrun.length_le_version hset hf hfresh hkey.symm
    rw [commitsOf_set hlt, if_pos rfl] at hversion
    have hafter := hstep.numbered (hn p.key)
    exact Nat.le_trans (hafter.version_le_length hstep.mem_after) hversion
  | absent _ ih => exact ih hn

/-- What is carried out later was not over before. -/
theorem pairwise_start_le_finish (h : Run planned registers done final)
    (hplanned : planned.Pairwise fun q r => q.start ≤ r.finish) :
    done.Pairwise fun e f => e.operation.start ≤ f.operation.finish := by
  induction h with
  | nil => exact .nil
  | step _ _ hrun ih =>
    obtain ⟨hhead, htail⟩ := List.pairwise_cons.mp hplanned
    refine List.pairwise_cons.mpr ⟨fun f hf => ?_, ih htail⟩
    obtain ⟨q, hq, c, -, hf⟩ := hrun.exists_commit hf
    rw [hf]
    exact hhead q hq
  | absent _ ih => exact ih (List.pairwise_cons.mp hplanned).2

end Run
end StoreAudit.Generate
