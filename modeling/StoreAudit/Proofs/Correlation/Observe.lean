import Mathlib.Data.List.Induction
import Mathlib.Data.List.Nodup
import Mathlib.Data.Prod.Lex
import StoreAudit.Correlation
import StoreAudit.Proofs.Sorting
import StoreAudit.Proofs.Stats.Traffic

/-! What one message does to a correlator, in terms of the request that waits for each subject. -/
namespace StoreAudit

/-- What requests and responses that belong together share. -/
abbrev Subject := Action × Nat

/-- What a request or a response is about. -/
def Message.subject? (m : Message) : Option Subject := m.purpose.action?.map (·, m.id)

namespace Message

/-- The message is a request about `s`. -/
def Asks (m : Message) (s : Subject) : Prop := m.purpose = .request s.1 ∧ m.id = s.2

/-- The message is a response about `s`. -/
def Answers (m : Message) (s : Subject) : Prop := m.purpose = .response s.1 ∧ m.id = s.2

instance (s : Subject) : DecidablePred (Asks · s) := fun _ => inferInstanceAs (Decidable (_ ∧ _))
instance (s : Subject) : DecidablePred (Answers · s) := fun _ => inferInstanceAs (Decidable (_ ∧ _))

variable {m : Message} {a : Action} {s t : Subject}

theorem asks_iff (h : m.purpose = .request a) : m.Asks s ↔ s = (a, m.id) := by
  rw [Asks, h, Purpose.request.injEq, Prod.ext_iff, eq_comm, eq_comm (a := m.id)]

theorem answers_iff (h : m.purpose = .response a) : m.Answers s ↔ s = (a, m.id) := by
  rw [Answers, h, Purpose.response.injEq, Prod.ext_iff, eq_comm, eq_comm (a := m.id)]

theorem Asks.not_answers (h : m.Asks s) : ¬ m.Answers t :=
  fun h' => nomatch h.1.symm.trans h'.1

end Message

namespace OpenRequest

def subject (r : OpenRequest) : Subject := (r.action, r.id)

/-- What open requests are sorted by: the start, then reads before writes, then the id. -/
def startKey (r : OpenRequest) : ℕ ×ₗ ℕ ×ₗ ℕ := toLex (r.start, toLex (r.action.rank, r.id))

theorem le_iff (r s : OpenRequest) : r.le s ↔ r.startKey ≤ s.startKey := by
  have hrank : r.action = s.action ↔ r.action.rank = s.action.rank := by
    cases r.action <;> cases s.action <;> decide
  simp only [le, startKey, Prod.Lex.toLex_le_toLex, Bool.or_eq_true, Bool.and_eq_true,
    decide_eq_true_eq, beq_iff_eq, hrank]

theorem pairwise_mergeSort_le (rs : List OpenRequest) :
    (rs.mergeSort le).Pairwise fun r s => r.startKey ≤ s.startKey :=
  pairwise_key_mergeSort le_iff rs

theorem subject_eq_of_startKey_eq {r s : OpenRequest} (h : r.startKey = s.startKey) :
    r.subject = s.subject := by
  have hrank : r.action.rank = s.action.rank ↔ r.action = s.action := by
    cases r.action <;> cases s.action <;> decide
  simp only [startKey, toLex_inj, Prod.mk.injEq, hrank] at h
  exact Prod.ext h.2.1 h.2.2

end OpenRequest

def Operation.subject (op : Operation) : Subject := (op.action, op.id)

/-- What the request or the response was about that does not fit. -/
def Anomaly.subject? : Anomaly → Option Subject
  | .duplicateRequest a id _ | .orphanResponse a id _ => some (a, id)
  | .unexpectedMessage .. => none

namespace Correlator
variable (c : Correlator) (m : Message)

/-- The request that waits for an answer on a subject. -/
def waitingFor? (s : Subject) : Option OpenRequest := c.waiting.find? fun r => r.subject == s

/-- The operation that the message completes. -/
def completed? : Option Operation :=
  match m.purpose with
  | .response a => (c.waitingFor? (a, m.id)).map (·.answer m)
  | _ => none

/-- The anomaly that the message is. -/
def anomaly? : Option Anomaly :=
  match m.purpose with
  | .request a =>
    if (c.waitingFor? (a, m.id)).isSome then some (.duplicateRequest a m.id m.time) else none
  | .response a =>
    if (c.waitingFor? (a, m.id)).isSome then none else some (.orphanResponse a m.id m.time)
  | .other name => some (.unexpectedMessage name m.id m.time)

/-- The requests that wait after the message. -/
def waitingAfter : List OpenRequest :=
  match m.purpose with
  | .request a =>
    if (c.waitingFor? (a, m.id)).isSome then c.waiting else c.waiting ++ [.ofMessage a m]
  | .response a => c.waiting.filter fun r => r.subject != (a, m.id)
  | .other _ => c.waiting

theorem decide_isFor (r : OpenRequest) (a : Action) (id : Nat) :
    decide (r.IsFor a id) = (r.subject == (a, id)) := by
  rw [Bool.eq_iff_iff, decide_eq_true_eq, beq_iff_eq, OpenRequest.IsFor, OpenRequest.subject,
    Prod.mk.injEq]

theorem isSome_waitingFor? (s : Subject) :
    (c.waitingFor? s).isSome = c.waiting.any fun r => r.subject == s := by
  rw [waitingFor?, List.isSome_find?]

theorem filter_subject_ne_of_waitingFor?_eq_none {s : Subject} (h : c.waitingFor? s = none) :
    (c.waiting.filter fun r => r.subject != s) = c.waiting := by
  rw [List.filter_eq_self]
  intro r hr
  exact bne_iff_ne.mpr fun heq => List.find?_eq_none.mp h r hr (beq_iff_eq.mpr heq)

/-- A message adds at most one operation and one anomaly, and changes who waits. -/
theorem observe_eq : (c.observe m).1.waiting = c.waitingAfter m ∧
    (c.observe m).1.operations = c.operations ++ (c.completed? m).toList ∧
    (c.observe m).1.anomalies = c.anomalies ++ (c.anomaly? m).toList := by
  cases hp : m.purpose with
  | request a =>
    simp only [observe, hp, request, decide_isFor, waitingAfter, completed?, anomaly?,
      isSome_waitingFor?]
    split <;> simp
  | response a =>
    simp only [observe, hp, response, decide_isFor, waitingAfter, completed?, anomaly?]
    cases hw : c.waitingFor? (a, m.id) with
    | none =>
      rw [filter_subject_ne_of_waitingFor?_eq_none c hw]
      rw [waitingFor?] at hw
      simp [hw]
    | some r =>
      rw [waitingFor?] at hw
      simp [hw, bne]
  | other name => simp [observe, hp, waitingAfter, completed?, anomaly?]

theorem observe_snd : (c.observe m).2 = c.anomaly? m := by
  cases hp : m.purpose with
  | request a =>
    simp only [observe, hp, request, decide_isFor, anomaly?, isSome_waitingFor?]
    split <;> rfl
  | response a =>
    simp only [observe, hp, response, decide_isFor, anomaly?, waitingFor?]
    split
    case h_1 hnone => simp [hnone]
    case h_2 r hsome => simp [hsome]
  | other name => simp only [observe, hp, anomaly?]

theorem waitingFor?_observe (s : Subject) : (c.observe m).1.waitingFor? s =
    if m.Answers s then none
    else (c.waitingFor? s).or (if m.Asks s then some (.ofMessage s.1 m) else none) := by
  rw [waitingFor?, (observe_eq c m).1, waitingAfter]
  cases hp : m.purpose with
  | request a =>
    have hanswers : ¬ m.Answers s := Message.Asks.not_answers ((Message.asks_iff hp).mpr rfl)
    have hopened : ((OpenRequest.ofMessage a m).subject == s) = decide (s = (a, m.id)) := by
      rw [Bool.eq_iff_iff, beq_iff_eq, decide_eq_true_eq, eq_comm]
      rfl
    simp only [hanswers, if_false, Message.asks_iff hp]
    split
    case isTrue hopen =>
      obtain ⟨r, hr⟩ := Option.isSome_iff_exists.mp hopen
      rw [← waitingFor?]
      split_ifs with hs
      · rw [hs, hr, Option.some_or]
      · rw [Option.or_none]
    case isFalse =>
      rw [List.find?_append, List.find?_singleton, hopened, ← waitingFor?]
      split_ifs with h h' h'
      · rw [of_decide_eq_true h]
      · exact absurd (of_decide_eq_true h) h'
      · exact absurd (decide_eq_true h') h
      · rfl
  | response a =>
    have hasks : ¬ m.Asks s := fun h => h.not_answers ((Message.answers_iff hp).mpr rfl)
    simp only [hasks, if_false, Message.answers_iff hp, Option.or_none, List.find?_filter]
    split_ifs with hs
    · simp [hs]
    · rw [waitingFor?]
      congr 1
      funext r
      by_cases hr : r.subject = s <;> simp [hr, hs]
  | other name =>
    have hasks : ¬ m.Asks s := fun h => nomatch hp.symm.trans h.1
    have hanswers : ¬ m.Answers s := fun h => nomatch hp.symm.trans h.1
    rw [if_neg hasks, if_neg hanswers, Option.or_none]
    rfl

theorem counters_traffic_observe :
    (c.observe m).1.traffic.counters = c.traffic.counters.observe m := by
  rw [← Traffic.counters_observe]
  unfold observe
  cases m.purpose with
  | request a =>
    unfold request
    dsimp only
    split <;> rfl
  | response a =>
    unfold response
    dsimp only
    split
    · rfl
    · exact Traffic.counters_observeLatency ..
  | other name => rfl

/-- No two requests that wait have the same subject. -/
def Distinct : Prop := (c.waiting.map (·.subject)).Nodup

theorem distinct_empty : Distinct {} := List.nodup_nil

variable {c}

theorem Distinct.observe (h : c.Distinct) : (c.observe m).1.Distinct := by
  rw [Distinct, (observe_eq c m).1, waitingAfter]
  cases m.purpose with
  | request a =>
    simp only
    split
    case isTrue => exact h
    case isFalse hnone =>
      rw [isSome_waitingFor?, List.any_eq_true] at hnone
      rw [List.map_append, List.nodup_append]
      refine ⟨h, List.nodup_singleton _, ?_⟩
      rintro s hs t ht rfl
      obtain ⟨r, hr, rfl⟩ := List.mem_map.mp hs
      exact hnone ⟨r, hr, beq_iff_eq.mpr (List.mem_singleton.mp ht)⟩
  | response a => exact h.sublist (List.filter_sublist.map _)
  | other name => exact h

theorem Distinct.eq_of_subject_eq (h : c.Distinct) {r r' : OpenRequest} (hr : r ∈ c.waiting)
    (hr' : r' ∈ c.waiting) (hs : r.subject = r'.subject) : r = r' :=
  List.inj_on_of_nodup_map h hr hr' hs

theorem Distinct.mem_waiting_iff (h : c.Distinct) {r : OpenRequest} :
    r ∈ c.waiting ↔ c.waitingFor? r.subject = some r := by
  constructor
  · intro hr
    have hsome : (c.waitingFor? r.subject).isSome := by
      rw [isSome_waitingFor?, List.any_eq_true]
      exact ⟨r, hr, beq_self_eq_true _⟩
    obtain ⟨r', hr'⟩ := Option.isSome_iff_exists.mp hsome
    have hs := List.find?_some hr'
    rw [hr', h.eq_of_subject_eq (List.mem_of_find?_eq_some hr') hr (beq_iff_eq.mp hs)]
  · exact List.mem_of_find?_eq_some

/-- In whatever order the requests that wait are read out, sorted they are the same list. -/
theorem Distinct.mergeSort_eq (h : c.Distinct) {waiting : List OpenRequest}
    (hperm : waiting.Perm c.waiting) :
    waiting.mergeSort OpenRequest.le = c.waiting.mergeSort OpenRequest.le := by
  have hsorted : (waiting.mergeSort OpenRequest.le).Perm (c.waiting.mergeSort OpenRequest.le) :=
    (List.mergeSort_perm ..).trans (hperm.trans (List.mergeSort_perm ..).symm)
  refine hsorted.eq_of_pairwise ?_ (OpenRequest.pairwise_mergeSort_le _)
    (OpenRequest.pairwise_mergeSort_le _)
  intro r s hr hs hrs hsr
  have hr := hperm.mem_iff.mp (List.mem_mergeSort.mp hr)
  have hsubject := OpenRequest.subject_eq_of_startKey_eq (le_antisymm hrs hsr)
  exact h.eq_of_subject_eq hr (List.mem_mergeSort.mp hs) hsubject

theorem Distinct.pairwise_startKey_lt (h : c.Distinct) :
    (c.waiting.mergeSort OpenRequest.le).Pairwise fun r s => r.startKey < s.startKey := by
  have hnodup : (c.waiting.mergeSort OpenRequest.le).Nodup :=
    (List.mergeSort_perm ..).nodup_iff.mpr h.of_map
  refine ((OpenRequest.pairwise_mergeSort_le _).and hnodup).imp_of_mem ?_
  intro r s hr hs ⟨hle, hne⟩
  refine lt_of_le_of_ne hle fun heq => hne ?_
  have hsubject := OpenRequest.subject_eq_of_startKey_eq heq
  exact h.eq_of_subject_eq (List.mem_mergeSort.mp hr) (List.mem_mergeSort.mp hs) hsubject

variable (c)

theorem observeAll_concat (ms : List Message) :
    c.observeAll (ms ++ [m]) = ((c.observeAll ms).observe m).1 := by
  simp [observeAll]

theorem counters_traffic_observeAll (ms : List Message) :
    (c.observeAll ms).traffic.counters = ms.foldl Traffic.observe c.traffic.counters := by
  induction ms using List.reverseRecOn with
  | nil => rfl
  | append_singleton ms m ih =>
    rw [observeAll_concat, counters_traffic_observe, ih, List.foldl_concat]

theorem distinct_observeAll (ms : List Message) : (observeAll {} ms).Distinct := by
  induction ms using List.reverseRecOn with
  | nil => exact distinct_empty
  | append_singleton ms m ih =>
    rw [observeAll_concat]
    exact ih.observe m

end Correlator
end StoreAudit
