import StoreAudit.Proofs.Consistency.Deletion
import StoreAudit.Proofs.Consistency.Streaming

/-! Holding reads against the versions of writes as well. An audit then finds more unknown values
and nothing else, and a check in one pass counts reads as unknown that it would have counted as
stale or not at all. Neither comes to a better verdict. -/
namespace StoreAudit

/-- What supports a read at its version supports it. -/
theorem WriteHistory.supports_of_strict {h : WriteHistory} {strict lenient : Bool}
    (hstrict : lenient → strict) {key value : Words} {version : Option Nat}
    (hsup : h.supports strict key value version) : h.supports lenient key value version := by
  rw [Consistency.supports_iff] at hsup ⊢
  obtain ⟨w, hw, hvalue, hversion⟩ := hsup
  exact ⟨w, hw, hvalue, fun hlenient => hversion (hstrict hlenient)⟩

namespace Consistency

section Batch
variable (h : WriteHistory)

/-- The read of a value that was written to its key, though at none of the versions that it was
written at. -/
def MissesVersion (v : Violation) : Prop :=
  ∃ read, v = .unknownValue read ∧ h.contains read.key read.value

theorem missesVersion_unknownValue {read : Operation} :
    MissesVersion h (.unknownValue read) ↔ h.contains read.key read.value :=
  ⟨fun ⟨_, heq, hcontains⟩ => Violation.unknownValue.inj heq ▸ hcontains,
    fun hcontains => ⟨read, rfl, hcontains⟩⟩

instance : DecidablePred (MissesVersion h)
  | .unknownValue _ => decidable_of_iff _ (missesVersion_unknownValue h).symm
  | .writeConflict .. | .unwrittenRead _ | .staleOrder .. => isFalse fun ⟨_, heq, _⟩ => nomatch heq

theorem not_missesVersion_of_mem_conflicts {key : Words} {ops : List Operation} {v : Violation}
    (hv : v ∈ conflicts key ops) : ¬ MissesVersion h v := by
  rintro ⟨read, rfl, -⟩
  obtain ⟨version, -, hv⟩ := List.mem_flatMap.mp hv
  obtain ⟨⟨first, second⟩, -, hpair⟩ := List.mem_filterMap.mp hv
  dsimp only at hpair
  split_ifs at hpair
  cases hpair

theorem not_missesVersion_of_mem_staleOrders {key : Words} {ops : List Operation} {v : Violation}
    (hv : v ∈ staleOrders key ops) : ¬ MissesVersion h v := by
  rintro ⟨read, rfl, -⟩
  obtain ⟨⟨earlier, later⟩, -, hpair⟩ := List.mem_filterMap.mp hv
  simp only [stale?] at hpair
  split at hpair
  · split_ifs at hpair
    cases hpair
  · cases hpair

theorem unsupported?_false (read : Operation) :
    unsupported? h false read = (unsupported? h true read).filter fun v => ¬ MissesVersion h v := by
  by_cases hkey : h.isWritten read.key
  · have hlenient : h.supports false read.key read.value read.version =
        h.contains read.key read.value := rfl
    by_cases hversion : h.supports true read.key read.value read.version
    · have hvalue : h.supports false read.key read.value read.version :=
        WriteHistory.supports_of_strict (fun hfalse => absurd hfalse Bool.false_ne_true) hversion
      simp [unsupported?, hkey, hversion, hvalue]
    · by_cases hvalue : h.contains read.key read.value <;>
        simp [unsupported?, hkey, hversion, hlenient, hvalue, missesVersion_unknownValue,
          Option.filter_some]
  · have hother : ¬ MissesVersion h (.unwrittenRead read) := fun ⟨_, heq, _⟩ => nomatch heq
    simp [unsupported?, hkey, hother, Option.filter_some]

theorem keyViolations_false (key : Words) (ops : List Operation) :
    keyViolations key ops h false =
      (keyViolations key ops h true).filter fun v => ¬ MissesVersion h v := by
  have hconflicts : (conflicts key (versioned ops)).filter (fun v => ¬ MissesVersion h v) =
      conflicts key (versioned ops) :=
    List.filter_eq_self.mpr fun v hv => decide_eq_true (not_missesVersion_of_mem_conflicts h hv)
  have hreads : unsupportedReads ops h false =
      (unsupportedReads ops h true).filter fun v => ¬ MissesVersion h v := by
    rw [unsupportedReads, unsupportedReads, List.filter_filterMap]
    exact List.filterMap_congr fun read _ => unsupported?_false h read
  have hstale : (staleOrders key (versioned ops)).filter (fun v => ¬ MissesVersion h v) =
      staleOrders key (versioned ops) :=
    List.filter_eq_self.mpr fun v hv => decide_eq_true (not_missesVersion_of_mem_staleOrders h hv)
  rw [keyViolations, keyViolations, List.filter_append, List.filter_append, hconflicts, hstale,
    hreads]

/-- Without regard to versions, an audit reports all but the values that only miss their version. -/
theorem violations_false (ops : List Operation) : violations ops h false =
    (violations ops h true).filter fun v => ¬ MissesVersion h v := by
  rw [violations, violations, List.filter_flatMap]
  exact List.flatMap_congr fun key _ => keyViolations_false h key _

end Batch

namespace Stream

theorem ite_le_ite_of_imp {p q : Prop} [Decidable p] [Decidable q] (h : p → q) :
    (if p then 1 else 0) ≤ if q then 1 else 0 := by
  by_cases hp : p
  · rw [if_pos hp, if_pos (h hp)]
  · rw [if_neg hp]
    exact Nat.zero_le _

/-- Two checks that have seen the same messages, the first of which holds reads against versions if
the second does. It counts every read as unknown that the other does, and a read that it does not
count as stale for once it counts as unknown. -/
structure Stricter (s t : Stream) : Prop where
  matchVersion : t.matchVersion → s.matchVersion
  history : s.history = t.history
  readsChecked : s.counts.readsChecked = t.counts.readsChecked
  writesRecorded : s.counts.writesRecorded = t.counts.writesRecorded
  unwrittenReads : s.counts.unwrittenReads = t.counts.unwrittenReads
  unknownValues : t.counts.unknownValues ≤ s.counts.unknownValues
  staleReads : s.counts.staleReads ≤ t.counts.staleReads
  strong : s.strong → t.strong
  eventual : s.eventual → t.eventual

namespace Stricter
variable {s t : Stream}

theorem start : Stricter { matchVersion := true } { matchVersion := false } := by
  constructor <;> simp

section Read
variable (h : Stricter s t) (m : Message)
include h

theorem unwritten_iff : s.Unwritten m ↔ t.Unwritten m := by
  rw [Unwritten, Unwritten, h.history]

theorem unknown_of_unknown (hunknown : t.Unknown m) : s.Unknown m := by
  obtain ⟨hread, hkey, hsup⟩ := hunknown
  rw [Unknown, h.history]
  exact ⟨hread, hkey, fun hstrict => hsup (WriteHistory.supports_of_strict h.matchVersion hstrict)⟩

theorem stale_of_stale (hstale : s.Stale m) : t.Stale m := by
  obtain ⟨hread, hkey, hsup, hlatest⟩ := hstale
  rw [h.history] at hkey hsup hlatest
  exact ⟨hread, hkey, WriteHistory.supports_of_strict h.matchVersion hsup, hlatest⟩

/-- The stricter check does not let a stale read pass. -/
theorem stale_or_unknown_of_stale (hstale : t.Stale m) : s.Stale m ∨ s.Unknown m := by
  obtain ⟨hread, hkey, -, hlatest⟩ := hstale
  rw [Stale, Unknown, h.history]
  by_cases hsup : t.history.supports s.matchVersion m.key m.value m.version
  · exact .inl ⟨hread, hkey, hsup, hlatest⟩
  · exact .inr ⟨hread, hkey, hsup⟩

theorem observe_snd_eq : (s.observe m).2 = (t.observe m).2 := by
  rw [observe_snd, observe_snd]
  simp only [h.unwritten_iff m]

theorem observe : Stricter (s.observe m).1 (t.observe m).1 := by
  have hunwritten := h.unwritten_iff m
  have hunknown := h.unknown_of_unknown m
  have hstale := h.stale_of_stale m
  have hcaught := h.stale_or_unknown_of_stale m
  rw [observe_fst, observe_fst]
  constructor
  case matchVersion => exact h.matchVersion
  case history => simp only [after, h.history]
  case readsChecked => simp only [after, h.readsChecked]
  case writesRecorded => simp only [after, h.writesRecorded]
  case unwrittenReads => simp only [after, h.unwrittenReads, hunwritten]
  case unknownValues => exact Nat.add_le_add h.unknownValues (ite_le_ite_of_imp hunknown)
  case staleReads => exact Nat.add_le_add h.staleReads (ite_le_ite_of_imp hstale)
  case strong =>
    have hflag := h.strong
    simp only [after, Bool.and_eq_true, decide_eq_true_eq]
    tauto
  case eventual =>
    have hflag := h.eventual
    simp only [after, Bool.and_eq_true, decide_eq_true_eq]
    tauto

end Read

theorem observeAll (h : Stricter s t) (ms : List Message) :
    Stricter (s.observeAll ms) (t.observeAll ms) := by
  induction ms using List.reverseRecOn with
  | nil => exact h
  | append_singleton ms m ih =>
    rw [observeAll_concat, observeAll_concat]
    exact ih.observe m

end Stricter
end Stream

/-- Whoever regards versions is stricter. An audit reports all that one without regard to versions
does, in the same order, and further only values that were written at other versions. A check in one
pass tells the same, records the same, and at every place of a log has counted no fewer unknown
values and no more stale reads. Neither verdict is better. -/
theorem matchVersion_stricter :
    (∀ (ops : List Operation) (h : WriteHistory),
      let strict := audit ops h true
      let lenient := audit ops h false
      lenient.violations.Sublist strict.violations ∧
        lenient.violations = strict.violations.filter (fun v => ¬ MissesVersion h v) ∧
        strict.verdict ≤ lenient.verdict) ∧
    ∀ (ms : List Message) (j : Nat),
      let strict := Stream.observeAll { matchVersion := true } (ms.take j)
      let lenient := Stream.observeAll { matchVersion := false } (ms.take j)
      strict.counts.readsChecked = lenient.counts.readsChecked ∧
        strict.counts.writesRecorded = lenient.counts.writesRecorded ∧
        strict.counts.unwrittenReads = lenient.counts.unwrittenReads ∧
        (∀ m, (strict.observe m).2 = (lenient.observe m).2) ∧
        lenient.counts.unknownValues ≤ strict.counts.unknownValues ∧
        strict.counts.staleReads ≤ lenient.counts.staleReads ∧
        strict.verdict ≤ lenient.verdict := by
  constructor
  · intro ops h strict lenient
    have hfilter : lenient.violations = strict.violations.filter fun v => ¬ MissesVersion h v :=
      violations_false h ops
    have hsublist : lenient.violations.Sublist strict.violations :=
      hfilter ▸ List.filter_sublist
    exact ⟨hsublist, hfilter, Verdict.ofViolations_le_of_subset hsublist.subset⟩
  · intro ms j strict lenient
    have hrun : Stream.Stricter strict lenient := Stream.Stricter.start.observeAll (ms.take j)
    exact ⟨hrun.readsChecked, hrun.writesRecorded, hrun.unwrittenReads, hrun.observe_snd_eq,
      hrun.unknownValues, hrun.staleReads, Stream.verdict_le_verdict hrun.strong hrun.eventual⟩

end Consistency
end StoreAudit
