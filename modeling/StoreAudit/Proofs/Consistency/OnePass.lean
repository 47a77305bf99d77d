import StoreAudit.Proofs.Consistency.Streaming
import StoreAudit.Proofs.Correlation.Answered

/-! A check of a log in one pass beside an audit of the operations that the log correlates to. Both
hold the same writes unless a response left a value out. What the check lets pass, the audit
supports. But the check also refutes a log for a read that was answered ahead of the write it saw,
which the audit does not mind. -/
namespace StoreAudit.Consistency
open Correlation

/-- `w` is a successful write of what `read` returned, with `matchVersion` at its version. -/
def Supports (matchVersion : Bool) (w read : Operation) : Prop :=
  w.succeeded ∧ w.isWrite ∧ w.key = read.key ∧ w.value = read.value ∧
    (matchVersion → w.version = read.version)

instance (matchVersion : Bool) : DecidableRel (Supports matchVersion) :=
  fun _ _ => inferInstanceAs (Decidable (_ ∧ _))

section Operations
variable {matchVersion : Bool} {ops : List Operation} {w read : Operation}

theorem supports_iff_exists_acknowledged? : Supports matchVersion w read ↔
    ∃ a ∈ w.acknowledged?,
      a.Supports matchVersion ⟨read.action, read.key, read.value, read.version⟩ := by
  simp [Supports, Operation.acknowledged?, Acknowledgement.Supports, Operation.isWrite]

/-- Some read was answered ahead of every write that supports it, with the operations given in the
order of their answers. -/
theorem readsAhead_filterMap_iff :
    Acknowledgement.ReadsAhead matchVersion (ops.filterMap Operation.acknowledged?) ↔
      ∃ before read after, ops = before ++ read :: after ∧ read.succeeded ∧ read.isRead ∧
        ∀ w ∈ before, ¬ Supports matchVersion w read := by
  constructor
  · rintro ⟨before, ack, after, heq, haction, hnone⟩
    obtain ⟨front, rest, rfl, hfront, hrest⟩ := List.filterMap_eq_append_iff.mp heq
    obtain ⟨silent, read, back, rfl, hsilent, hread, -⟩ := List.filterMap_eq_cons_iff.mp hrest
    obtain ⟨hsucc, rfl⟩ := Operation.acknowledged?_eq_some_iff.mp hread
    refine ⟨front ++ silent, read, back, by simp, hsucc, beq_iff_eq.mpr haction, ?_⟩
    intro w hw hsup
    obtain ⟨a, ha, hsup⟩ := supports_iff_exists_acknowledged?.mp hsup
    rcases List.mem_append.mp hw with hw | hw
    · exact hnone a (hfront ▸ List.mem_filterMap.mpr ⟨w, hw, ha⟩) hsup
    · exact absurd ha (hsilent w hw ▸ nofun)
  · rintro ⟨before, read, after, rfl, hsucc, hread, hnone⟩
    have hack : read.acknowledged? = some ⟨read.action, read.key, read.value, read.version⟩ :=
      Operation.acknowledged?_eq_some_iff.mpr ⟨hsucc, rfl⟩
    have haction : read.action = .read := beq_iff_eq.mp hread
    refine ⟨before.filterMap Operation.acknowledged?, _, after.filterMap Operation.acknowledged?,
      by rw [List.filterMap_append, List.filterMap_cons_some hack], haction, ?_⟩
    intro a ha hsup
    obtain ⟨w, hw, hwa⟩ := List.mem_filterMap.mp ha
    exact hnone w hw (supports_iff_exists_acknowledged?.mpr ⟨a, hwa, hsup⟩)

/-- An audit of operations against their own writes misses no value exactly if some write supports
each successful read. -/
theorem missingValues_ofOperations_eq_nil_iff :
    (audit ops (.ofOperations ops) matchVersion).missingValues = [] ↔
      ∀ read ∈ ops, read.succeeded → read.isRead → ∃ w ∈ ops, Supports matchVersion w read := by
  have hsupports (read : Operation) :
      (WriteHistory.ofOperations ops).supports matchVersion read.key read.value read.version ↔
        ∃ w ∈ ops, Supports matchVersion w read := by
    have hacks := (WriteHistory.holds_ofOperations ops).supports_iff matchVersion
      ⟨read.action, read.key, read.value, read.version⟩
    simp only [hacks, supports_iff_exists_acknowledged?, List.mem_filterMap, Option.mem_def]
    constructor
    · rintro ⟨a, ⟨w, hw, ha⟩, hsup⟩
      exact ⟨w, hw, a, ha, hsup⟩
    · rintro ⟨w, hw, a, ha, hsup⟩
      exact ⟨a, ⟨w, hw, ha⟩, hsup⟩
  rw [missingValues_eq_nil_iff]
  refine forall₂_congr fun read _ => ?_
  rw [unsupported_iff, hsupports, not_and, not_and, not_not]

theorem exists_supports_of_strong
    (hstrong : (audit ops (.ofOperations ops) matchVersion).verdict = .strong)
    (hmem : read ∈ ops) (hsucc : read.succeeded) (hread : read.isRead) :
    ∃ w ∈ ops, Supports matchVersion w read := by
  have hmissing : (audit ops (.ofOperations ops) matchVersion).missingValues = [] := by
    by_contra hne
    exact nomatch hstrong.symm.trans (verdict_audit_eq_neither_iff.mpr (.inr hne))
  exact missingValues_ofOperations_eq_nil_iff.mp hmissing read hmem hsucc hread

end Operations

/-- The check holds the writes as the responses give them. -/
theorem entries_observeAll (matchVersion : Bool) (ms : List Message) (key : Words) :
    (Stream.observeAll { matchVersion } ms).history.entries key =
      ((acknowledgedAt ms).filter fun p => p.2.writes key).map fun p => p.2.written := by
  have hholds := Stream.holds_observeAll matchVersion ms key
  rw [filterMap_acknowledged?_eq, List.filter_map, List.map_map] at hholds
  exact hholds

/-- The operations hold the same writes, each with the value of its operation. -/
theorem entries_ofOperations_finish {ms : List Message} (h : Regular ms) (key : Words) :
    (WriteHistory.ofOperations (({} : Correlator).observeAll ms).finish.operations).entries key =
      ((acknowledgedAt ms).filter fun p => p.2.writes key).map
        fun p => ⟨valueAt ms p.1, p.2.version⟩ := by
  have hholds := WriteHistory.holds_ofOperations
    (({} : Correlator).observeAll ms).finish.operations key
  rw [h.filterMap_acknowledged?_finish, List.filter_map, List.map_map] at hholds
  exact hholds

/-- The writes that a check in one pass holds and those that the log correlates to have the same
versions in the same order. They have the same values exactly if every successful response to a
write that leaves the value out answers a request without a value. -/
theorem entries_observeAll_eq_iff {ms : List Message} (h : Regular ms) (matchVersion : Bool) :
    let checked := (Stream.observeAll { matchVersion } ms).history
    let correlated := WriteHistory.ofOperations (({} : Correlator).observeAll ms).finish.operations
    (∀ key, (checked.entries key).map (·.version) = (correlated.entries key).map (·.version)) ∧
      ((∀ key, checked.entries key = correlated.entries key) ↔
        ∀ i j, (ms.get j).Reports .write → (ms.get j).value = [] →
          opener? ms (.write, (ms.get j).id) j = some i → (ms.get i).value = []) := by
  intro checked correlated
  have hchecked := entries_observeAll matchVersion ms
  have hcorrelated := entries_ofOperations_finish h
  constructor
  · intro key
    rw [hchecked, hcorrelated, List.map_map, List.map_map]
    rfl
  · constructor
    · intro hsame i j hreports hempty hi
      have hsame := hsame (ms.get j).key
      rw [hchecked, hcorrelated, List.map_inj_left] at hsame
      have hack : (ms.get j).acknowledged? =
          some ⟨.write, (ms.get j).key, (ms.get j).value, (ms.get j).version⟩ :=
        Message.acknowledged?_eq_some_iff.mpr ⟨hreports, rfl⟩
      have hj := hsame _ (List.mem_filter.mpr
        ⟨mem_acknowledgedAt.mpr hack, by simp [Acknowledgement.writes]⟩)
      have hvalue : (ms.get j).value = valueAt ms j := congrArg WrittenValue.value hj
      exact (h.valueAt_eq_value_iff hreports.2).mp hvalue.symm rfl hempty i hi
    · intro hempty key
      rw [hchecked, hcorrelated, List.map_inj_left]
      intro p hp
      obtain ⟨hmem, hwrites⟩ := List.mem_filter.mp hp
      obtain ⟨hreports, ha⟩ := Message.acknowledged?_eq_some_iff.mp (mem_acknowledgedAt.mp hmem)
      have hwrite : p.2.action = .write := by
        unfold Acknowledgement.writes at hwrites
        exact beq_iff_eq.mp (Bool.and_eq_true_iff.mp hwrites).1
      rw [hwrite] at hreports
      have hvalue : valueAt ms p.1 = (ms.get p.1).value :=
        (h.valueAt_eq_value_iff hreports.2).mpr fun _ hleft i hi =>
          hempty i p.1 hreports hleft hi
      rw [hvalue, Acknowledgement.written, ha]

/-- A write of the empty value. -/
def clearing : List Message :=
  [⟨3, 4, 5, 9, .request .write, [1], [], none, true⟩,
    ⟨8, 4, 9, 5, .response .write, [1], [], some 2, true⟩]

theorem entries_observeAll_clearing :
    Regular clearing ∧ ∀ key, (Stream.observeAll {} clearing).history.entries key =
      (WriteHistory.ofOperations
        (({} : Correlator).observeAll clearing).finish.operations).entries key := by
  have hregular : Regular clearing := ⟨by decide, by decide⟩
  exact ⟨hregular, (entries_observeAll_eq_iff hregular false).2.mpr (by decide)⟩

/-- A write whose response leaves the value out. -/
def silentWrite : List Message :=
  [⟨3, 4, 5, 9, .request .write, [1], [7], none, true⟩,
    ⟨8, 4, 9, 5, .response .write, [1], [], some 2, true⟩]

theorem entries_silentWrite_ne :
    Regular silentWrite ∧
      (Stream.observeAll {} silentWrite).history.entries [1] = [⟨[], some 2⟩] ∧
      (WriteHistory.ofOperations
        (({} : Correlator).observeAll silentWrite).finish.operations).entries [1] =
          [⟨[7], some 2⟩] := by
  have hoperations : (({} : Correlator).observeAll silentWrite).finish.operations =
      [⟨4, .write, [1], [7], 3, 8, some 2, .success⟩] :=
    (operations_finish_of_waiting_eq_nil (by decide)).trans (by decide)
  rw [hoperations]
  exact ⟨⟨by decide, by decide⟩, by decide, by decide⟩

/-- What a check in one pass does not refute, an audit supports: it can only find that versions
conflict. -/
theorem missingValues_eq_nil_of_observeAll {ms : List Message} (h : Regular ms) (hecho : Echoes ms)
    (matchVersion : Bool)
    (hpass : (Stream.observeAll { matchVersion } ms).verdict ≠ .neither) :
    let ops := (({} : Correlator).observeAll ms).finish.operations
    let report := audit ops (.ofOperations ops) matchVersion
    report.missingValues = [] ∧ (report.verdict = .neither → report.conflicts ≠ []) := by
  intro ops report
  have hahead : ¬ Acknowledgement.ReadsAhead matchVersion
      (ops.filterMap Operation.acknowledged?) := by
    rw [h.filterMap_acknowledged?_finish_of_echoes hecho]
    exact (Stream.verdict_observeAll_eq_neither_iff matchVersion ms).not.mp hpass
  have hmissing : report.missingValues = [] := by
    refine missingValues_ofOperations_eq_nil_iff.mpr fun read hmem hsucc hread => ?_
    by_contra hnone
    obtain ⟨before, after, hsplit⟩ := List.append_of_mem hmem
    refine hahead (readsAhead_filterMap_iff.mpr ⟨before, read, after, hsplit, hsucc, hread, ?_⟩)
    intro w hw hsup
    exact hnone ⟨w, hsplit ▸ List.mem_append_left _ hw, hsup⟩
  refine ⟨hmissing, fun hneither => ?_⟩
  rcases verdict_audit_eq_neither_iff.mp hneither with hconflicts | hne
  · exact hconflicts
  · exact absurd hmissing hne

/-- Two writes with one version, and a read of the second. -/
def sameVersion : List Message :=
  [⟨0, 1, 5, 9, .request .write, [1], [7], none, true⟩,
    ⟨1, 1, 9, 5, .response .write, [1], [7], some 2, true⟩,
    ⟨2, 2, 5, 9, .request .write, [1], [8], none, true⟩,
    ⟨3, 2, 9, 5, .response .write, [1], [8], some 2, true⟩,
    ⟨4, 1, 5, 9, .request .read, [1], [], none, true⟩,
    ⟨5, 1, 9, 5, .response .read, [1], [8], some 2, true⟩]

theorem missingValues_sameVersion :
    let ops := (({} : Correlator).observeAll sameVersion).finish.operations
    let report := audit ops (.ofOperations ops) true
    Regular sameVersion ∧ Echoes sameVersion ∧
      (Stream.observeAll { matchVersion := true } sameVersion).verdict ≠ .neither ∧
      report.verdict = .neither ∧ report.missingValues = [] ∧ report.conflicts ≠ [] := by
  intro ops report
  have hregular : Regular sameVersion := ⟨by decide, by decide⟩
  have hpass : (Stream.observeAll { matchVersion := true } sameVersion).verdict ≠ .neither := by
    decide
  have hconflict : Conflict ⟨1, .write, [1], [7], 0, 1, some 2, .success⟩
      ⟨2, .write, [1], [8], 2, 3, some 2, .success⟩ := by decide
  have hops : ops = _ := operations_finish_of_waiting_eq_nil (by decide)
  have hneither : report.verdict = .neither := by
    by_contra hne
    have hsound := verdict_audit_ne_neither_iff.mp hne
    refine hsound.noConflict _ ?_ _ ?_ hconflict <;> rw [hops] <;> decide
  have hresult := missingValues_eq_nil_of_observeAll hregular (by decide) true hpass
  exact ⟨hregular, by decide, hpass, hneither, hresult.1, hresult.2 hneither⟩

/-- A check in one pass refutes a log that an audit finds strong exactly for a read that was
answered ahead of every write of what it returned, and so was not over after any of these. -/
theorem verdict_observeAll_eq_neither_iff_of_strong {ms : List Message} (h : Regular ms)
    (hecho : Echoes ms) (hsorted : ms.Pairwise (·.time ≤ ·.time)) (matchVersion : Bool) :
    let ops := (({} : Correlator).observeAll ms).finish.operations
    (audit ops (.ofOperations ops) matchVersion).verdict = .strong →
      ((Stream.observeAll { matchVersion } ms).verdict = .neither ↔
        ∃ before read after, ops = before ++ read :: after ∧ read.succeeded ∧ read.isRead ∧
          (∀ w ∈ before, ¬ Supports matchVersion w read) ∧
          (∃ w ∈ after, Supports matchVersion w read) ∧
          ∀ w ∈ after, Supports matchVersion w read → read.finish ≤ w.finish) := by
  intro ops hstrong
  rw [Stream.verdict_observeAll_eq_neither_iff, ← h.filterMap_acknowledged?_finish_of_echoes hecho,
    readsAhead_filterMap_iff]
  constructor
  · rintro ⟨before, read, after, hsplit, hsucc, hread, hnone⟩
    have hsplit : ops = before ++ read :: after := hsplit
    refine ⟨before, read, after, hsplit, hsucc, hread, hnone, ?_, ?_⟩
    · have hmem : read ∈ ops := hsplit ▸ List.mem_append_right _ (List.mem_cons_self ..)
      obtain ⟨w, hw, hsup⟩ := exists_supports_of_strong hstrong hmem hsucc hread
      rw [hsplit, List.mem_append, List.mem_cons] at hw
      rcases hw with hw | rfl | hw
      · exact absurd hsup (hnone w hw)
      · exact absurd hsup.2.1 (not_isWrite_iff.mpr hread)
      · exact ⟨w, hw, hsup⟩
    · intro w hw _
      have hfinish : ops.Pairwise (·.finish ≤ ·.finish) := pairwise_finish_le hsorted
      rw [hsplit, List.pairwise_append, List.pairwise_cons] at hfinish
      exact hfinish.2.1.1 w hw
  · rintro ⟨before, read, after, hsplit, hsucc, hread, hnone, -⟩
    exact ⟨before, read, after, hsplit, hsucc, hread, hnone⟩

/-- A read that is answered before the write of what it returned is. -/
def earlyRead : List Message :=
  [⟨0, 1, 5, 9, .request .write, [1], [7], none, true⟩,
    ⟨1, 1, 6, 9, .request .read, [1], [], none, true⟩,
    ⟨2, 1, 9, 6, .response .read, [1], [7], some 1, true⟩,
    ⟨3, 1, 9, 5, .response .write, [1], [7], some 1, true⟩]

theorem operations_earlyRead : (({} : Correlator).observeAll earlyRead).finish.operations =
    [⟨1, .read, [1], [7], 1, 2, some 1, .success⟩, ⟨1, .write, [1], [7], 0, 3, some 1, .success⟩] :=
  (operations_finish_of_waiting_eq_nil (by decide)).trans (by decide)

theorem verdict_audit_earlyRead (matchVersion : Bool) :
    let ops := (({} : Correlator).observeAll earlyRead).finish.operations
    (audit ops (.ofOperations ops) matchVersion).verdict = .strong := by
  rw [operations_earlyRead]
  cases matchVersion <;>
    exact verdict_audit_eq_strong_iff.mpr
      ⟨⟨by decide, by decide, by decide⟩, rankedPairs_backwards_eq_empty (by decide)⟩

theorem verdict_observeAll_earlyRead :
    let ops := (({} : Correlator).observeAll earlyRead).finish.operations
    Regular earlyRead ∧ Echoes earlyRead ∧ earlyRead.Pairwise (·.time ≤ ·.time) ∧
      (audit ops (.ofOperations ops) true).verdict = .strong ∧
      ∃ before read after, ops = before ++ read :: after ∧ read.succeeded ∧ read.isRead ∧
        (∀ w ∈ before, ¬ Supports true w read) ∧ (∃ w ∈ after, Supports true w read) ∧
        ∀ w ∈ after, Supports true w read → read.finish ≤ w.finish := by
  intro ops
  have hregular : Regular earlyRead := ⟨by decide, by decide⟩
  have hecho : Echoes earlyRead := by decide
  have hsorted : earlyRead.Pairwise (·.time ≤ ·.time) := by decide
  have hstrong : (audit ops (.ofOperations ops) true).verdict = .strong :=
    verdict_audit_earlyRead true
  have hresult := verdict_observeAll_eq_neither_iff_of_strong hregular hecho hsorted true hstrong
  exact ⟨hregular, hecho, hsorted, hstrong, hresult.mp (by decide)⟩

theorem earlyRead_strong_neither :
    Regular earlyRead ∧ Echoes earlyRead ∧ earlyRead.Pairwise (·.time ≤ ·.time) ∧
      ∀ matchVersion,
        let ops := (({} : Correlator).observeAll earlyRead).finish.operations
        (audit ops (.ofOperations ops) matchVersion).verdict = .strong ∧
          (Stream.observeAll { matchVersion } earlyRead).verdict = .neither :=
  ⟨⟨by decide, by decide⟩, by decide, by decide,
    fun matchVersion => ⟨verdict_audit_earlyRead matchVersion, by cases matchVersion <;> decide⟩⟩

end StoreAudit.Consistency
