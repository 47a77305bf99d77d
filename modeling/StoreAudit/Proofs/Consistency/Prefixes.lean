import Mathlib.Algebra.BigOperators.Fin
import StoreAudit.Proofs.Consistency.Streaming

/-! What a check in one pass finds is a matter of each message and the messages before it. Its counts
and its verdict say at how many places of the log a read has no write before it, none that supports
it, or a newer one. -/
namespace StoreAudit.Consistency

/-- The successful responses to writes of the key, in the order of the log. -/
def writesTo (key : Words) (ms : List Message) : List Message :=
  ms.filter fun m => m.Reports .write ∧ m.key = key

section Place
variable (matchVersion : Bool) (before : List Message) (m : Message)

/-- A write before the message was of its value, and with `matchVersion` at its version. -/
def SupportedAfter : Prop :=
  ∃ w ∈ writesTo m.key before, w.value = m.value ∧ (matchVersion → w.version = m.version)

/-- A successful read of a key that was not written before. -/
def UnwrittenAfter : Prop := m.Reports .read ∧ writesTo m.key before = []

/-- A successful read of a key whose writes before do not support it. -/
def UnknownAfter : Prop :=
  m.Reports .read ∧ writesTo m.key before ≠ [] ∧ ¬ SupportedAfter matchVersion before m

/-- A successful read that is supported, while the last write to its key was of another value. -/
def StaleAfter : Prop :=
  m.Reports .read ∧ SupportedAfter matchVersion before m ∧
    ∃ w ∈ (writesTo m.key before).getLast?, w.value ≠ m.value

instance : Decidable (SupportedAfter matchVersion before m) :=
  inferInstanceAs (Decidable (∃ w ∈ _, _))
instance : Decidable (UnwrittenAfter before m) := inferInstanceAs (Decidable (_ ∧ _))
instance : Decidable (UnknownAfter matchVersion before m) := inferInstanceAs (Decidable (_ ∧ _))
instance : Decidable (StaleAfter matchVersion before m) := inferInstanceAs (Decidable (_ ∧ _ ∧ _))

end Place

/-- The places of a log at which the message is such after the messages before it. -/
def placesAfter (p : List Message → Message → Prop) [∀ before, DecidablePred (p before)]
    (ms : List Message) : Finset (Fin ms.length) :=
  Finset.univ.filter fun j => p (ms.take j) (ms.get j)

/-- What counts the places one after the other counts them all. -/
theorem eq_card_filter {n : Nat} (f : Nat → Nat) (p : Fin n → Prop) [DecidablePred p]
    (hzero : f 0 = 0) (hsucc : ∀ j : Fin n, f (j + 1) = f j + if p j then 1 else 0) :
    f n = (Finset.univ.filter p).card := by
  rw [Finset.card_filter]
  induction n with
  | zero => exact hzero
  | succ n ih =>
    rw [Fin.sum_univ_castSucc, ← ih _ fun j => hsucc j.castSucc]
    exact hsucc (Fin.last n)

namespace Stream

section State
variable (matchVersion : Bool) (ms : List Message) (m : Message)

theorem entries_history_observeAll (key : Words) :
    (observeAll { matchVersion } ms).history.entries key =
      (writesTo key ms).map fun w => ⟨w.value, w.version⟩ := by
  rw [(reflects_observeAll matchVersion ms).entries_eq, WriteHistory.writtenTo, reportedWrites,
    List.filter_map, List.map_map, List.filter_filter]
  refine congrArg (List.map _) (List.filter_congr fun m _ => ?_)
  have hkey : (m.key == key) = decide (m.key = key) := Bool.beq_eq_decide_eq m.key key
  rw [Bool.decide_and, ← hkey]
  exact Bool.and_comm _ _

theorem isWritten_observeAll (key : Words) :
    (observeAll { matchVersion } ms).history.isWritten key ↔ writesTo key ms ≠ [] := by
  have hkept := (reflects_observeAll matchVersion ms).kept key
  rw [hkept, entries_history_observeAll, ne_eq, List.map_eq_nil_iff]

theorem supports_observeAll :
    (observeAll { matchVersion } ms).history.supports
        (observeAll { matchVersion } ms).matchVersion m.key m.value m.version ↔
      SupportedAfter matchVersion ms m := by
  have hentries := entries_history_observeAll matchVersion ms m.key
  rw [matchVersion_observeAll, Consistency.supports_iff, hentries, SupportedAfter]
  simp only [List.mem_map, exists_exists_and_eq_and]

theorem unwritten_observeAll_iff :
    (observeAll { matchVersion } ms).Unwritten m ↔ UnwrittenAfter ms m := by
  rw [Unwritten, UnwrittenAfter, isWritten_observeAll, not_not]

theorem unknown_observeAll_iff :
    (observeAll { matchVersion } ms).Unknown m ↔ UnknownAfter matchVersion ms m := by
  rw [Unknown, UnknownAfter, isWritten_observeAll, supports_observeAll]

theorem stale_observeAll_iff :
    (observeAll { matchVersion } ms).Stale m ↔ StaleAfter matchVersion ms m := by
  have hentries := entries_history_observeAll matchVersion ms m.key
  rw [Stale, StaleAfter, isWritten_observeAll, supports_observeAll, WriteHistory.latest?, hentries,
    List.getLast?_map, Option.map_map]
  refine and_congr_right fun _ => ?_
  cases hlast : (writesTo m.key ms).getLast? with
  | none =>
    rw [List.getLast?_eq_none_iff] at hlast
    simp [SupportedAfter, hlast]
  | some w =>
    have hwritten : writesTo m.key ms ≠ [] := List.ne_nil_of_mem (List.mem_of_getLast? hlast)
    simp [hwritten]

theorem verdict_observeAll_le (s : Stream) : (s.observeAll ms).verdict ≤ s.verdict := by
  induction ms using List.reverseRecOn with
  | nil => exact Nat.le_refl _
  | append_singleton ms m ih =>
    rw [observeAll_concat]
    exact Nat.le_trans (verdict_observe_le _ m) ih

end State

section Run
variable (matchVersion : Bool) (ms : List Message)

/-- What goes up by one exactly at such messages ends as the number of their places. -/
theorem eq_card_placesAfter (count : Stream → Nat) (p : List Message → Message → Prop)
    [∀ before, DecidablePred (p before)] (hstart : count { matchVersion } = 0)
    (hstep : ∀ before m, count ((observeAll { matchVersion } before).after m) =
      count (observeAll { matchVersion } before) + if p before m then 1 else 0) :
    count (observeAll { matchVersion } ms) = (placesAfter p ms).card := by
  have hcount := eq_card_filter (fun j => count (observeAll { matchVersion } (ms.take j)))
    (fun j : Fin ms.length => p (ms.take j) (ms.get j)) hstart fun j => by
      rw [← hstep, List.take_succ_eq_append_getElem j.isLt, observeAll_concat, observe_fst]
      rfl
  rw [List.take_length] at hcount
  exact hcount

theorem unwrittenReads_observeAll : (observeAll { matchVersion } ms).counts.unwrittenReads =
    (placesAfter UnwrittenAfter ms).card := by
  refine eq_card_placesAfter matchVersion ms (·.counts.unwrittenReads) _ rfl fun before m => ?_
  simp only [after, unwritten_observeAll_iff]

theorem unknownValues_observeAll : (observeAll { matchVersion } ms).counts.unknownValues =
    (placesAfter (UnknownAfter matchVersion) ms).card := by
  refine eq_card_placesAfter matchVersion ms (·.counts.unknownValues) _ rfl fun before m => ?_
  simp only [after, unknown_observeAll_iff]

theorem staleReads_observeAll : (observeAll { matchVersion } ms).counts.staleReads =
    (placesAfter (StaleAfter matchVersion) ms).card := by
  refine eq_card_placesAfter matchVersion ms (·.counts.staleReads) _ rfl fun before m => ?_
  simp only [after, stale_observeAll_iff]

theorem responses_observeAll :
    (observeAll { matchVersion } ms).counts.readsChecked = ms.countP (·.Reports .read) ∧
      (observeAll { matchVersion } ms).counts.writesRecorded = ms.countP (·.Reports .write) := by
  induction ms using List.reverseRecOn with
  | nil => exact ⟨rfl, rfl⟩
  | append_singleton ms m ih =>
    rw [observeAll_concat, observe_fst, List.countP_append, List.countP_append, ← ih.1, ← ih.2]
    simp [after, List.countP_singleton]

/-- The verdict at a place is no stronger than at the places before it. -/
theorem verdict_take_le {i j : Nat} (hij : i ≤ j) :
    (observeAll { matchVersion } (ms.take j)).verdict ≤
      (observeAll { matchVersion } (ms.take i)).verdict := by
  have hsplit : ms.take j = ms.take i ++ (ms.drop i).take (j - i) := by
    rw [← List.take_add, Nat.add_sub_cancel' hij]
  have hlater : observeAll { matchVersion } (ms.take j) =
      (observeAll { matchVersion } (ms.take i)).observeAll ((ms.drop i).take (j - i)) := by
    rw [hsplit]
    exact List.foldl_append
  rw [hlater]
  exact verdict_observeAll_le _ _

end Run

/-- A check in one pass counts each read by the messages before it, tells of the reads of unwritten
keys and of nothing else, and has the verdict that its counts stand for. The verdict never rises. -/
theorem observeAll_eq_prefixwise (matchVersion : Bool) (ms : List Message) :
    let s := observeAll { matchVersion } ms
    let verdictAt (j : Nat) := (observeAll { matchVersion } (ms.take j)).verdict
    s.counts =
        { readsChecked := ms.countP (·.Reports .read)
          writesRecorded := ms.countP (·.Reports .write)
          unwrittenReads := (placesAfter UnwrittenAfter ms).card
          unknownValues := (placesAfter (UnknownAfter matchVersion) ms).card
          staleReads := (placesAfter (StaleAfter matchVersion) ms).card } ∧
      (∀ j : Fin ms.length, ((observeAll { matchVersion } (ms.take j)).observe (ms.get j)).2 =
        if UnwrittenAfter (ms.take j) (ms.get j) then some .unwrittenRead else none) ∧
      (s.verdict = .strong ↔ s.counts.unwrittenReads = 0 ∧ s.counts.unknownValues = 0 ∧
        s.counts.staleReads = 0) ∧
      (s.verdict = .neither ↔ 0 < s.counts.unwrittenReads + s.counts.unknownValues) ∧
      (s.verdict = .eventual ↔ s.counts.unwrittenReads + s.counts.unknownValues = 0 ∧
        0 < s.counts.staleReads) ∧
      ∀ i j, i ≤ j → verdictAt j ≤ verdictAt i := by
  intro s verdictAt
  have hcoherent : s.Coherent := coherent_observeAll matchVersion ms
  refine ⟨?_, fun j => ?_, hcoherent.verdict_eq_strong_iff, hcoherent.verdict_eq_neither_iff,
    hcoherent.verdict_eq_eventual_iff, fun i j => verdict_take_le matchVersion ms⟩
  · have hresponses := responses_observeAll matchVersion ms
    rw [← hresponses.1, ← hresponses.2, ← unwrittenReads_observeAll matchVersion,
      ← unknownValues_observeAll, ← staleReads_observeAll]
  · rw [observe_snd]
    simp only [unwritten_observeAll_iff]

end Stream
end StoreAudit.Consistency
