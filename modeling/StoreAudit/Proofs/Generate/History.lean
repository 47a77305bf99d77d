import StoreAudit.Proofs.Consistency.Verdict
import StoreAudit.Proofs.Generate.Completion
import StoreAudit.Proofs.Generate.Register
import StoreAudit.Proofs.Generate.Schedule
import StoreAudit.Proofs.Random

/-! Generated histories as an audit sees them: their operations are backed by the registers, and the
stale ones are those that an older version shows. -/
namespace StoreAudit.Generate
open StoreAudit.Random StoreAudit.Consistency

/-- The operations return what registers hold, and made every commit in them. The stale ones are the
reads that follow a newer version. -/
structure Backed (registers : List (List Commit)) (done : List Executed) : Prop where
  numbered : ∀ key, Numbered (commitsOf registers key)
  ordered : ∀ e ∈ done, e.operation.start ≤ e.operation.finish
  observed : ∀ e ∈ done, e.operation.succeeded ∧ ∃ key, e.operation.key = [key] ∧
    ∃ c ∈ commitsOf registers key,
      e.operation.value = [c.value] ∧ e.operation.version = some c.version
  written : ∀ key, ∀ c ∈ commitsOf registers key, ∃ w ∈ done, w.operation.isWrite ∧
    w.operation.succeeded ∧ w.operation.key = [key] ∧ w.operation.value = [c.value] ∧
    w.operation.version = some c.version
  isRead_of_stale : ∀ e ∈ done, e.stale → e.operation.isRead
  stale_iff : ∀ e ∈ done, e.stale ↔ ∃ w ∈ done, Backwards w.operation e.operation

/-- Ids and the order of the operations play no part. -/
theorem Backed.number_mergeSort {registers : List (List Commit)} {done : List Executed}
    (h : Backed registers done) : Backed registers (number (done.mergeSort Executed.le)) := by
  refine ⟨h.numbered, ?_, ?_, ?_, ?_, ?_⟩
  · intro e he
    obtain ⟨f, hf, i, rfl⟩ := exists_eq_withId he
    exact h.ordered f hf
  · intro e he
    obtain ⟨f, hf, i, rfl⟩ := exists_eq_withId he
    exact h.observed f hf
  · intro key c hc
    obtain ⟨w, hw, hfields⟩ := h.written key c hc
    obtain ⟨i, hi⟩ := exists_withId_mem hw
    exact ⟨w.withId i, hi, hfields⟩
  · intro e he
    obtain ⟨f, hf, i, rfl⟩ := exists_eq_withId he
    exact h.isRead_of_stale f hf
  · intro e he
    obtain ⟨f, hf, i, rfl⟩ := exists_eq_withId he
    refine (h.stale_iff f hf).trans ⟨?_, ?_⟩
    · rintro ⟨w, hw, hback⟩
      obtain ⟨j, hj⟩ := exists_withId_mem hw
      exact ⟨w.withId j, hj, hback⟩
    · rintro ⟨x, hx, hback⟩
      obtain ⟨w, hw, j, rfl⟩ := exists_eq_withId hx
      exact ⟨w, hw, hback⟩

theorem Backed.sound {registers : List (List Commit)} {done : List Executed}
    (h : Backed registers done) (matchVersion : Bool) : Sound (done.map (·.operation))
      (.ofOperations (done.map (·.operation))) matchVersion := by
  refine sound_of_exists_write matchVersion ?_ ?_
  · intro t ht u hu ⟨_, _, hkey, _, hver, hval⟩
    obtain ⟨e, he, rfl⟩ := List.mem_map.mp ht
    obtain ⟨f, hf, rfl⟩ := List.mem_map.mp hu
    obtain ⟨-, k, hk, c, hc, hcval, hcver⟩ := h.observed e he
    obtain ⟨-, k', hk', c', hc', hcval', hcver'⟩ := h.observed f hf
    rw [hk, hk', List.singleton_inj] at hkey
    subst hkey
    rw [hcver, hcver', Option.some.injEq] at hver
    rw [hcval, hcval', (h.numbered k).eq_of_version_eq hc hc' hver] at hval
    exact hval rfl
  · intro op hop _ _
    obtain ⟨e, he, rfl⟩ := List.mem_map.mp hop
    obtain ⟨-, key, hkey, c, hc, hval, hver⟩ := h.observed e he
    obtain ⟨w, hw, hww, hws, hwkey, hwval, hwver⟩ := h.written key c hc
    exact ⟨w.operation, List.mem_map_of_mem hw, hws, hww, hwkey.trans hkey.symm,
      hwval.trans hval.symm, hwver.trans hver.symm⟩

theorem Backed.verdict_eq_strong_iff {registers : List (List Commit)} {done : List Executed}
    (h : Backed registers done) (matchVersion : Bool) :
    (audit (done.map (·.operation)) (.ofOperations (done.map (·.operation))) matchVersion).verdict
      = .strong ↔ ∀ e ∈ done, e.operation.isRead → e.stale = false := by
  rw [verdict_audit_eq_strong_iff, and_iff_right (h.sound matchVersion),
    rankedPairs_backwards_eq_empty_iff (List.forall_mem_map.mpr h.ordered)]
  simp only [List.forall_mem_map]
  constructor
  · intro hback e he _
    refine Bool.eq_false_iff.mpr fun hstale => ?_
    obtain ⟨w, hw, hwe⟩ := (h.stale_iff e he).mp hstale
    exact hback w hw e he hwe
  · intro hfresh w hw e he hwe
    have hstale := (h.stale_iff e he).mpr ⟨w, hw, hwe⟩
    exact Bool.eq_false_iff.mp (hfresh e he (h.isRead_of_stale e he hstale)) hstale

section Run
variable {planned : List Planned} {registers final : List (List Commit)} {done : List Executed}

/-- The successor of a commit that a stale read returned was written before the read began. -/
theorem Run.exists_backwards (h : Run planned registers done final)
    (hempty : ∀ key, commitsOf registers key = []) {e : Executed} (he : e ∈ done)
    (hstale : e.stale) : ∃ w ∈ done, Backwards w.operation e.operation := by
  have hn : ∀ key, Numbered (commitsOf registers key) := fun key => hempty key ▸ .nil
  obtain ⟨q, c, rfl, next, hnext, hversion, hfinish⟩ := h.exists_successor hn he hstale
  rcases h.exists_write hnext with hnext | ⟨w, -, hkey, hwfinish, hw⟩
  · exact absurd (hempty q.key ▸ hnext) List.not_mem_nil
  · refine ⟨_, hw, rfl, rfl, congrArg (fun key => [key]) hkey, hwfinish.trans_lt hfinish,
      next.version, rfl, c.version, rfl, ?_⟩
    rw [hversion]
    exact Nat.lt_succ_self _

/-- Unless it is stale, no operation follows one with a newer version. -/
theorem Run.stale_of_backwards (h : Run planned registers done final)
    (hempty : ∀ key, commitsOf registers key = [])
    (hplanned : planned.Pairwise fun q r => q.start ≤ r.finish) {w e : Executed} (hw : w ∈ done)
    (he : e ∈ done) (hback : Backwards w.operation e.operation) : e.stale := by
  have hn : ∀ key, Numbered (commitsOf registers key) := fun key => hempty key ▸ .nil
  -- Carried out after `w`, a fresh `e` has no older version; before `w`, it is not preceded by it.
  have hforth : done.Pairwise fun w e => Backwards w.operation e.operation → e.stale := by
    refine (h.pairwise_version_le hn).imp fun hle hback => ?_
    obtain ⟨-, -, hkey, -, v, hv, v', hv', hlt⟩ := hback
    by_contra hfresh
    have hle := hle (Bool.eq_false_iff.mpr hfresh) hkey
    rw [Option.mem_def.mp hv, Option.mem_def.mp hv', Option.getD_some, Option.getD_some] at hle
    exact absurd hlt (Nat.not_lt_of_le hle)
  have hflip : done.Pairwise fun e w => Backwards w.operation e.operation → e.stale :=
    (h.pairwise_start_le_finish hplanned).imp fun hle hback =>
      absurd hback.2.2.2.1 (Nat.not_lt_of_le hle)
  have hself : ∀ e ∈ done, Backwards e.operation e.operation → e.stale := by
    rintro e - ⟨-, -, -, -, v, hv, v', hv', hlt⟩
    exact absurd (Option.mem_unique hv' hv) (Nat.ne_of_lt hlt)
  exact hforth.forall_of_forall_of_flip hself hflip hw he hback

theorem Run.backed (h : Run planned registers done final)
    (hempty : ∀ key, commitsOf registers key = [])
    (hordered : ∀ q ∈ planned, q.start ≤ q.finish)
    (hplanned : planned.Pairwise fun q r => q.start ≤ r.finish) : Backed final done := by
  have hn : ∀ key, Numbered (commitsOf registers key) := fun key => hempty key ▸ .nil
  constructor
  case numbered => exact h.numbered hn
  case ordered =>
    intro e he
    obtain ⟨q, hq, c, -, he⟩ := h.exists_commit he
    rw [he]
    exact hordered q hq
  case observed =>
    intro e he
    obtain ⟨q, -, c, hc, he⟩ := h.exists_commit he
    rw [he]
    exact ⟨rfl, q.key, rfl, c, hc, rfl, rfl⟩
  case written =>
    intro key c hc
    rcases h.exists_write hc with hc | ⟨q, haction, hkey, -, hq⟩
    · exact absurd (hempty key ▸ hc) List.not_mem_nil
    · exact ⟨_, hq, beq_iff_eq.mpr haction, rfl, congrArg (fun key => [key]) hkey, rfl, rfl⟩
  case isRead_of_stale => exact fun e he => h.isRead_of_stale he
  case stale_iff =>
    intro e he
    exact ⟨h.exists_backwards hempty he, fun ⟨w, hw, hback⟩ =>
      h.stale_of_backwards hempty hplanned hw he hback⟩

end Run

variable {σ : Type} {d : Draws σ}

theorem key_lt_length_of_mem_schedule (hd : d.InRange) {p : Params} (hkeys : 0 < p.keys) (s : σ) :
    ∀ q ∈ (schedule d p s).1, q.key < (List.replicate p.keys ([] : List Commit)).length :=
  fun q hq => List.length_replicate.symm ▸ (schedule_within hd hkeys s q hq).key_lt

theorem exists_run (hd : d.InRange) {p : Params} (hkeys : 0 < p.keys) (s : σ) :
    ∃ final, Run (schedule d p s).1 (List.replicate p.keys []) (carriedOut d p s) final :=
  execute_run d p.staleChance (schedule d p s).1 0 (List.replicate p.keys []) (schedule d p s).2
    (key_lt_length_of_mem_schedule hd hkeys s)

theorem exists_backed (hd : d.InRange) (p : Params) (s : σ) :
    ∃ registers, Backed registers (executed d p s) := by
  by_cases hkeys : p.keys = 0
  · refine ⟨[], ?_⟩
    rw [executed, if_pos hkeys]
    exact ⟨fun _ => .nil, by simp, by simp, by simp [commitsOf], by simp, by simp⟩
  · have hpos := Nat.pos_of_ne_zero hkeys
    have hwithin := schedule_within hd hpos s
    obtain ⟨final, hrun⟩ := exists_run hd hpos s
    have hbacked := hrun.backed (commitsOf_replicate p.keys)
      (fun q hq => (hwithin q hq).start_le_point.trans (hwithin q hq).point_le_finish)
      (pairwise_schedule_start_le_finish hd hpos s)
    refine ⟨final, ?_⟩
    rw [executed_eq_number d s hpos]
    exact hbacked.number_mergeSort

theorem executed_never (hnever : ∀ s, (d.happens (.outOf64 0) s).1 = false) {p : Params}
    (hchance : p.staleChance = .outOf64 0) (s : σ) : ∀ e ∈ executed d p s, e.stale = false := by
  intro e he
  by_cases hkeys : p.keys = 0
  · rw [executed, if_pos hkeys] at he
    exact absurd he List.not_mem_nil
  · rw [executed, if_neg hkeys, hchance] at he
    obtain ⟨f, hf, i, rfl⟩ := exists_eq_withId he
    exact execute_never d hnever _ _ _ _ f hf

/-- The verdict on a generated history. -/
def verdict (d : Draws σ) (p : Params) (s : σ) (matchVersion : Bool) : Verdict :=
  let ops := (operations d p s).map (·.operation)
  (audit ops (.ofOperations ops) matchVersion).verdict

/-- A generated history is strong without stale reads and eventual with any. If what has no chance
never happens, it is without them as soon as the ratio of staleness is no finite number or not
positive. -/
theorem verdict_iff_stale (d : Draws σ) (hd : d.InRange) (p : Params) (s : σ)
    (matchVersion : Bool) :
    verdict d p s matchVersion ≠ .neither ∧
    (verdict d p s matchVersion = .strong ↔
      ∀ e ∈ executed d p s, e.operation.isRead → e.stale = false) ∧
    (verdict d p s matchVersion = .eventual ↔
      ∃ e ∈ executed d p s, e.operation.isRead ∧ e.stale) ∧
    ((∀ s, (d.happens (.outOf64 0) s).1 = false) →
      p.staleRatio.isFinite = false ∨ p.staleRatio ≤ 0 → verdict d p s matchVersion = .strong) := by
  obtain ⟨registers, hbacked⟩ := exists_backed hd p s
  have hops : (operations d p s).map (·.operation) = (executed d p s).map (·.operation) := by
    simp [operations]
  have hneither : verdict d p s matchVersion ≠ .neither := by
    rw [verdict, hops]
    exact verdict_audit_ne_neither_iff.mpr (hbacked.sound matchVersion)
  have hstrong : verdict d p s matchVersion = .strong ↔
      ∀ e ∈ executed d p s, e.operation.isRead → e.stale = false := by
    rw [verdict, hops]
    exact hbacked.verdict_eq_strong_iff matchVersion
  have hstale : (∃ e ∈ executed d p s, e.operation.isRead ∧ e.stale) ↔
      verdict d p s matchVersion ≠ .strong := by
    rw [ne_eq, hstrong]
    simp
  refine ⟨hneither, hstrong, ?_, fun hnever hratio => ?_⟩
  · rw [hstale]
    cases hv : verdict d p s matchVersion with
    | neither => exact absurd hv hneither
    | eventual | strong => simp
  · have hfresh := executed_never hnever (Chance.ofRatio_eq_never hratio) s
    exact hstrong.mpr fun e he _ => hfresh e he

/-- Two clients of one key that read a superseded value whenever there is one. -/
def contested : Params := { clients := 2, keys := 1, operations := 2, staleRatio := 1 }

theorem schedule_contested : (schedule Stream.draws contested (Stream.ofSeed 19)).1 =
    [firstWrite 0, ⟨0, 150, 319, 216, .write, 0⟩, ⟨1, 56, 284, 274, .write, 0⟩,
      ⟨1, 335, 365, 344, .read, 0⟩, ⟨0, 409, 644, 446, .read, 0⟩] := by
  have hplans : (planClients Stream.draws contested [0, 1] (Stream.ofSeed 19)).1 =
      [⟨0, 150, 319, 216, .write, 0⟩, ⟨0, 409, 644, 446, .read, 0⟩,
        ⟨1, 56, 284, 274, .write, 0⟩, ⟨1, 335, 365, 344, .read, 0⟩] := by
    decide +kernel
  show List.mergeSort ([firstWrite 0] ++
    (planClients Stream.draws contested [0, 1] (Stream.ofSeed 19)).1) Planned.le = _
  rw [hplans]
  exact mergeSort_eq_of_perm Planned.le_iff (by decide) (by decide)

/-- The two writes that race end in the other order than they take effect. -/
theorem executed_contested : executed Stream.draws contested (Stream.ofSeed 19) =
    [⟨0, false, ⟨0, .write, [0], [1], 0, 1, some 1, .success⟩⟩,
      ⟨1, false, ⟨1, .write, [0], [3], 56, 284, some 3, .success⟩⟩,
      ⟨0, false, ⟨2, .write, [0], [2], 150, 319, some 2, .success⟩⟩,
      ⟨1, true, ⟨3, .read, [0], [2], 335, 365, some 2, .success⟩⟩,
      ⟨0, true, ⟨4, .read, [0], [1], 409, 644, some 1, .success⟩⟩] := by
  have hsorted : (carriedOut Stream.draws contested (Stream.ofSeed 19)).mergeSort Executed.le =
      [⟨0, false, ⟨0, .write, [0], [1], 0, 1, some 1, .success⟩⟩,
        ⟨1, false, ⟨0, .write, [0], [3], 56, 284, some 3, .success⟩⟩,
        ⟨0, false, ⟨0, .write, [0], [2], 150, 319, some 2, .success⟩⟩,
        ⟨1, true, ⟨0, .read, [0], [2], 335, 365, some 2, .success⟩⟩,
        ⟨0, true, ⟨0, .read, [0], [1], 409, 644, some 1, .success⟩⟩] := by
    refine mergeSort_eq_of_perm Executed.le_iff ?_ (by decide)
    rw [carriedOut, schedule_contested]
    decide +kernel
  rw [executed_eq_number _ _ (by decide), hsorted]
  rfl

theorem verdict_seeded :
    verdict Stream.draws { clients := 3, keys := 2, operations := 5 } (Stream.ofSeed 7) true =
      .strong ∧
    ∀ matchVersion, verdict Stream.draws contested (Stream.ofSeed 19) matchVersion = .eventual := by
  have hverdict := verdict_iff_stale Stream.draws Stream.draws_inRange
  refine ⟨(hverdict _ _ _).2.2.2 Stream.draws_never (.inr (by decide)), fun matchVersion => ?_⟩
  refine (hverdict contested _ matchVersion).2.2.1.mpr ?_
  rw [executed_contested]
  decide

end StoreAudit.Generate
