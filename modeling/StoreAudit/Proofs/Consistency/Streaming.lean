import StoreAudit.Consistency.Streaming
import StoreAudit.Proofs.Consistency.Acknowledgement

/-! What one message does to a check in one pass. It has refuted the properties that its counts speak
against. After a log the check holds the acknowledged writes, and it has refuted eventual
consistency exactly if some read was acknowledged ahead of all the writes that support it. -/
namespace StoreAudit.Consistency.Stream

section Step
variable (s : Stream) (m : Message)

/-- A successful read of a key without a write so far. -/
def Unwritten : Prop := m.Reports .read ∧ ¬ s.history.isWritten m.key

/-- A successful read of a written key whose writes so far do not support it. -/
def Unknown : Prop := m.Reports .read ∧ s.history.isWritten m.key ∧
  ¬ s.history.supports s.matchVersion m.key m.value m.version

/-- A successful read of what was written, but not of the value written last. -/
def Stale : Prop := m.Reports .read ∧ s.history.isWritten m.key ∧
  s.history.supports s.matchVersion m.key m.value m.version ∧ s.history.latest? m.key ≠ some m.value

instance : Decidable (Unwritten s m) := inferInstanceAs (Decidable (_ ∧ _))
instance : Decidable (Unknown s m) := inferInstanceAs (Decidable (_ ∧ _))
instance : Decidable (Stale s m) := inferInstanceAs (Decidable (_ ∧ _))

/-- The state after a message: it records a write, or counts a read as one of four kinds and refutes
what that kind speaks against, or leaves the state as it is. -/
def after : Stream where
  matchVersion := s.matchVersion
  history := if m.Reports .write then s.history.record m.key m.value m.version else s.history
  strong := s.strong && decide (¬ s.Unwritten m ∧ ¬ s.Unknown m ∧ ¬ s.Stale m)
  eventual := s.eventual && decide (¬ s.Unwritten m ∧ ¬ s.Unknown m)
  counts :=
    { readsChecked := s.counts.readsChecked + if m.Reports .read then 1 else 0
      writesRecorded := s.counts.writesRecorded + if m.Reports .write then 1 else 0
      unwrittenReads := s.counts.unwrittenReads + if s.Unwritten m then 1 else 0
      unknownValues := s.counts.unknownValues + if s.Unknown m then 1 else 0
      staleReads := s.counts.staleReads + if s.Stale m then 1 else 0 }

variable {m} in
/-- A message that is no successful response leaves the state as it is. -/
theorem observe_of_not_reports (h : ∀ a, ¬ m.Reports a) : s.observe m = (s, none) := by
  unfold observe
  split_ifs with hok
  · split
    case h_1 hpurpose => exact absurd ⟨hok, hpurpose⟩ (h .write)
    case h_2 hpurpose => exact absurd ⟨hok, hpurpose⟩ (h .read)
    case h_3 => rfl
  · rfl

theorem observe_eq :
    s.observe m = (s.after m, if s.Unwritten m then some .unwrittenRead else none) := by
  by_cases hwrite : m.Reports .write
  · have hread : ¬ m.Reports .read := fun h => nomatch hwrite.action_eq h
    simp [observe, hwrite.1, hwrite.2, recordWrite, after, hwrite, Unwritten, Unknown, Stale, hread]
  by_cases hread : m.Reports .read
  · have hobserve : s.observe m = s.checkRead m := by simp [observe, hread.1, hread.2]
    rw [hobserve]
    unfold checkRead after
    by_cases hkey : s.history.isWritten m.key
    · by_cases hsup : s.history.supports s.matchVersion m.key m.value m.version
      · by_cases hlast : s.history.latest? m.key = some m.value <;>
          simp [Unwritten, Unknown, Stale, hread, hwrite, hkey, hsup, hlast]
      · simp [Unwritten, Unknown, Stale, hread, hwrite, hkey, hsup]
    · simp [Unwritten, Unknown, Stale, hread, hwrite, hkey]
  · have hsilent (a : Action) : ¬ m.Reports a := by cases a <;> assumption
    rw [observe_of_not_reports s hsilent]
    simp [after, Unwritten, Unknown, Stale, hread, hwrite]

theorem observe_fst : (s.observe m).1 = s.after m := congrArg Prod.fst (observe_eq s m)

theorem observe_snd :
    (s.observe m).2 = if s.Unwritten m then some .unwrittenRead else none :=
  congrArg Prod.snd (observe_eq s m)

/-- The verdict is weaker where fewer properties are left. -/
theorem verdict_le_verdict {s t : Stream} (hstrong : t.strong → s.strong)
    (heventual : t.eventual → s.eventual) : t.verdict ≤ s.verdict := by
  unfold verdict
  revert hstrong heventual
  cases s.strong <;> cases s.eventual <;> cases t.strong <;> cases t.eventual <;> decide

theorem verdict_observe_le : (s.observe m).1.verdict ≤ s.verdict := by
  rw [observe_fst]
  exact verdict_le_verdict (fun h => (Bool.and_eq_true_iff.mp h).1)
    (fun h => (Bool.and_eq_true_iff.mp h).1)

/-- A property is refuted exactly if a kind of read that speaks against it was counted. -/
structure Coherent : Prop where
  strong_iff : s.strong ↔ s.counts.unwrittenReads = 0 ∧ s.counts.unknownValues = 0 ∧
    s.counts.staleReads = 0
  eventual_iff : s.eventual ↔ s.counts.unwrittenReads = 0 ∧ s.counts.unknownValues = 0

theorem coherent_start (matchVersion : Bool) : Coherent { matchVersion } :=
  ⟨by simp, by simp⟩

variable {s}

theorem Coherent.observe (h : s.Coherent) : (s.observe m).1.Coherent := by
  have hzero (n : Nat) (p : Prop) [Decidable p] : n + (if p then 1 else 0) = 0 ↔ n = 0 ∧ ¬ p := by
    split_ifs with hp <;> simp [hp]
  rw [observe_fst]
  constructor
  · simp only [after, Bool.and_eq_true, decide_eq_true_eq, h.strong_iff, hzero]
    tauto
  · simp only [after, Bool.and_eq_true, decide_eq_true_eq, h.eventual_iff, hzero]
    tauto

/-- What refutes eventual consistency refutes strong consistency as well. -/
theorem Coherent.eventual_of_strong (h : s.Coherent) (hs : s.strong) : s.eventual :=
  h.eventual_iff.mpr ⟨(h.strong_iff.mp hs).1, (h.strong_iff.mp hs).2.1⟩

theorem Coherent.verdict_eq_strong_iff (h : s.Coherent) : s.verdict = .strong ↔
    s.counts.unwrittenReads = 0 ∧ s.counts.unknownValues = 0 ∧ s.counts.staleReads = 0 := by
  rw [← h.strong_iff]
  unfold verdict
  split_ifs with hstrong heventual <;> simp [hstrong]

theorem Coherent.verdict_eq_neither_iff (h : s.Coherent) :
    s.verdict = .neither ↔ 0 < s.counts.unwrittenReads + s.counts.unknownValues := by
  have heventual : s.verdict = .neither ↔ ¬ s.eventual := by
    unfold verdict
    split_ifs with hstrong heventual
    · simp [h.eventual_of_strong hstrong]
    all_goals simp [heventual]
  rw [heventual, h.eventual_iff]
  omega

theorem Coherent.verdict_eq_eventual_iff (h : s.Coherent) : s.verdict = .eventual ↔
    s.counts.unwrittenReads + s.counts.unknownValues = 0 ∧ 0 < s.counts.staleReads := by
  cases hverdict : s.verdict with
  | neither =>
    have hrefuted := h.verdict_eq_neither_iff.mp hverdict
    simp only [reduceCtorEq, false_iff]
    omega
  | eventual =>
    have hneither := h.verdict_eq_neither_iff.not.mp (by simp [hverdict])
    have hstrong := h.verdict_eq_strong_iff.not.mp (by simp [hverdict])
    simp only [true_iff]
    omega
  | strong =>
    have hnone := h.verdict_eq_strong_iff.mp hverdict
    simp only [reduceCtorEq, false_iff]
    omega

/-- A read refutes eventual consistency if the writes so far do not support it. -/
theorem Coherent.verdict_observe_eq_neither_iff (h : s.Coherent) :
    (s.observe m).1.verdict = .neither ↔ s.verdict = .neither ∨
      m.Reports .read ∧ ¬ s.history.supports s.matchVersion m.key m.value m.version := by
  have hkinds : s.Unwritten m ∨ s.Unknown m ↔
      m.Reports .read ∧ ¬ s.history.supports s.matchVersion m.key m.value m.version := by
    rw [WriteHistory.not_supports_iff, Unwritten, Unknown, ← and_or_left]
  rw [(h.observe m).verdict_eq_neither_iff, h.verdict_eq_neither_iff, observe_fst, ← hkinds]
  unfold after
  by_cases hunwritten : s.Unwritten m <;> by_cases hunknown : s.Unknown m
  all_goals simp only [hunwritten, hunknown, reduceIte, or_self, or_false, or_true, iff_true]
  all_goals omega

end Step

section Run

/-- The writes that the messages report, as they are recorded. -/
def reportedWrites (ms : List Message) : List RecordedWrite :=
  (ms.filter fun m => m.Reports .write).map fun m => ⟨m.key, m.value, m.version⟩

variable (matchVersion : Bool) (ms : List Message)

theorem observeAll_concat (s : Stream) (m : Message) :
    s.observeAll (ms ++ [m]) = ((s.observeAll ms).observe m).1 := by
  simp [observeAll]

theorem matchVersion_observeAll :
    (observeAll { matchVersion } ms).matchVersion = matchVersion := by
  induction ms using List.reverseRecOn with
  | nil => rfl
  | append_singleton ms m ih =>
    rw [observeAll_concat, observe_fst]
    exact ih

theorem coherent_observeAll : (observeAll { matchVersion } ms).Coherent := by
  induction ms using List.reverseRecOn with
  | nil => exact coherent_start matchVersion
  | append_singleton ms m ih =>
    rw [observeAll_concat]
    exact ih.observe m

theorem reflects_observeAll :
    (observeAll { matchVersion } ms).history.Reflects (reportedWrites ms) := by
  induction ms using List.reverseRecOn with
  | nil => exact WriteHistory.reflects_empty
  | append_singleton ms m ih =>
    rw [observeAll_concat, observe_fst]
    unfold after
    dsimp only
    split_ifs with hwrite
    · have hconcat : reportedWrites (ms ++ [m]) =
          reportedWrites ms ++ [⟨m.key, m.value, m.version⟩] := by simp [reportedWrites, hwrite]
      rw [hconcat]
      exact ih.record ⟨m.key, m.value, m.version⟩
    · have hsame : reportedWrites (ms ++ [m]) = reportedWrites ms := by
        simp [reportedWrites, hwrite]
      rw [hsame]
      exact ih

theorem holds_observeAll :
    (observeAll { matchVersion } ms).history.Holds (ms.filterMap Message.acknowledged?) := by
  have hwrites : Acknowledgement.recordedWrites (ms.filterMap Message.acknowledged?) =
      reportedWrites ms := by
    refine Acknowledgement.recordedWrites_filterMap (fun m => ?_) ms
    cases hack : m.acknowledged? with
    | none =>
      have hsilent := Message.not_reports_of_acknowledged?_eq_none hack .write
      rw [decide_eq_false hsilent]
      rfl
    | some a =>
      obtain ⟨hreports, ha⟩ := Message.acknowledged?_eq_some_iff.mp hack
      cases haction : a.action with
      | read =>
        have hwrite : ¬ m.Reports .write := fun h =>
          nomatch haction.symm.trans (hreports.action_eq h)
        rw [ha, haction, decide_eq_false hwrite]
        rfl
      | write =>
        rw [ha, haction, decide_eq_true (haction ▸ hreports)]
        rfl
  refine WriteHistory.Reflects.holds ?_
  rw [hwrites]
  exact reflects_observeAll matchVersion ms

/-- The check refutes eventual consistency exactly if a read is acknowledged ahead of every write
that supports it. -/
theorem verdict_observeAll_eq_neither_iff :
    (observeAll { matchVersion } ms).verdict = .neither ↔
      Acknowledgement.ReadsAhead matchVersion (ms.filterMap Message.acknowledged?) := by
  induction ms using List.reverseRecOn with
  | nil =>
    have hstart : (observeAll { matchVersion } []).verdict = .strong := rfl
    simp [hstart, Acknowledgement.not_readsAhead_nil]
  | append_singleton ms m ih =>
    have hholds := holds_observeAll matchVersion ms
    have hcoherent := coherent_observeAll matchVersion ms
    rw [observeAll_concat, hcoherent.verdict_observe_eq_neither_iff, ih, matchVersion_observeAll,
      List.filterMap_append]
    cases hack : m.acknowledged? with
    | none =>
      have hsilent := Message.not_reports_of_acknowledged?_eq_none hack
      rw [List.filterMap_cons_none hack, List.filterMap_nil, List.append_nil]
      exact or_iff_left fun h => hsilent .read h.1
    | some a =>
      obtain ⟨hreports, ha⟩ := Message.acknowledged?_eq_some_iff.mp hack
      have hread : m.Reports .read ↔ a.action = .read :=
        ⟨fun h => hreports.action_eq h, fun h => h ▸ hreports⟩
      have hsupports := hholds.supports_iff matchVersion a
      rw [List.filterMap_cons_some hack, List.filterMap_nil, Acknowledgement.readsAhead_concat,
        hread]
      rw [ha] at hsupports ⊢
      simp only at hsupports ⊢
      rw [hsupports]
      simp only [not_exists, not_and]

end Run

end StoreAudit.Consistency.Stream
