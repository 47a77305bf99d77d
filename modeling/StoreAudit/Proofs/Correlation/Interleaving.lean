import Mathlib.Data.List.Perm.Basic
import StoreAudit.Proofs.Consistency.Verdict
import StoreAudit.Proofs.Correlation.Pairing

/-! What a correlator holds on a subject comes from the messages about that subject. So it does not
show in which order messages about different subjects were logged. -/
namespace StoreAudit

theorem perm_of_filter_perm {α κ : Type} [BEq α] [LawfulBEq α] [BEq κ] [LawfulBEq κ] (label : α → κ)
    {l l' : List α}
    (h : ∀ k, (l.filter fun a => label a == k).Perm (l'.filter fun a => label a == k)) :
    l.Perm l' := by
  rw [List.perm_iff_count]
  intro a
  have hself : (label a == label a) = true := beq_self_eq_true _
  have hcount (as : List α) : (as.filter fun b => label b == label a).count a = as.count a :=
    List.count_filter (p := fun b => label b == label a) hself
  rw [← hcount l, ← hcount l']
  exact (h (label a)).count_eq a

/-- Where no two share a label, only one has the label of a member. -/
theorem filter_label_eq_singleton {α κ : Type} [BEq κ] [LawfulBEq κ] (label : α → κ) {l : List α}
    (h : (l.map label).Nodup) {a : α} (ha : a ∈ l) :
    (l.filter fun b => label b == label a) = [a] := by
  rw [← List.perm_singleton,
    List.perm_ext_iff_of_nodup (h.of_map.filter _) (List.nodup_singleton a)]
  intro b
  rw [List.mem_filter, beq_iff_eq, List.mem_singleton]
  constructor
  · intro ⟨hb, hlabel⟩
    exact List.inj_on_of_nodup_map h hb ha hlabel
  · rintro rfl
    exact ⟨ha, rfl⟩

/-- The anomaly that a message is if it is neither a request nor a response. -/
def Message.unexpected? (m : Message) : Option Anomaly :=
  match m.purpose with
  | .request _ | .response _ => none
  | .other name => some (.unexpectedMessage name m.id m.time)

/-- What a response is about. -/
def Message.answered? (m : Message) : Option Subject :=
  match m.purpose with
  | .response a => some (a, m.id)
  | .request _ | .other _ => none

namespace Correlator
variable {c part : Correlator} {m : Message} {s : Subject}

/-- What a correlator holds on a subject. -/
structure Part (s : Subject) (c part : Correlator) : Prop where
  waiting : part.waiting = c.waiting.filter (·.subject == s)
  operations : part.operations = c.operations.filter (·.subject == s)
  anomalies : part.anomalies = c.anomalies.filter (·.subject? == some s)

theorem subject_of_waitingFor? {r : OpenRequest} (h : c.waitingFor? s = some r) :
    r.subject = s := by
  unfold waitingFor? at h
  have hself := List.find?_some h
  exact beq_iff_eq.mp hself

theorem subject?_of_completed? {op : Operation} (h : c.completed? m = some op) :
    m.subject? = some op.subject := by
  unfold completed? at h
  cases hp : m.purpose with
  | request a => simp [hp] at h
  | other name => simp [hp] at h
  | response a =>
    simp only [hp, Option.map_eq_some_iff] at h
    obtain ⟨r, hr, rfl⟩ := h
    have hsubject : (r.answer m).subject = (a, m.id) := subject_of_waitingFor? hr
    rw [hsubject, Message.subject?, hp]
    rfl

theorem subject?_of_anomaly? {x : Anomaly} (h : c.anomaly? m = some x) :
    x.subject? = m.subject? := by
  unfold anomaly? at h
  unfold Message.subject?
  cases hp : m.purpose <;> simp only [hp] at h
  case other => rw [← Option.some.inj h]; rfl
  all_goals
    split_ifs at h
    rw [← Option.some.inj h]
    rfl

theorem Part.waitingFor?_eq (h : Part s c part) : part.waitingFor? s = c.waitingFor? s := by
  unfold waitingFor?
  simp only [h.waiting, List.find?_filter, and_self, Bool.decide_eq_true]

theorem Part.completed?_eq (h : Part s c part) (hm : m.subject? = some s) :
    part.completed? m = c.completed? m := by
  unfold Message.subject? at hm
  unfold completed?
  cases hp : m.purpose with
  | request a => rfl
  | other name => rfl
  | response a =>
    rw [hp] at hm
    simp only [Option.some.inj hm, h.waitingFor?_eq]

theorem Part.anomaly?_eq (h : Part s c part) (hm : m.subject? = some s) :
    part.anomaly? m = c.anomaly? m := by
  unfold Message.subject? at hm
  unfold anomaly?
  cases hp : m.purpose with
  | request a =>
    rw [hp] at hm
    simp only [Option.some.inj hm, h.waitingFor?_eq]
  | response a =>
    rw [hp] at hm
    simp only [Option.some.inj hm, h.waitingFor?_eq]
  | other name => rfl

theorem Part.waitingAfter_eq (h : Part s c part) (hm : m.subject? = some s) :
    part.waitingAfter m = (c.waitingAfter m).filter (·.subject == s) := by
  unfold Message.subject? at hm
  unfold waitingAfter
  cases hp : m.purpose with
  | request a =>
    rw [hp] at hm
    have hs : (a, m.id) = s := Option.some.inj hm
    have hself : ((OpenRequest.ofMessage a m).subject == s) = true := beq_iff_eq.mpr hs
    simp only [hs, h.waitingFor?_eq]
    split
    · exact h.waiting
    · rw [List.filter_append, ← h.waiting, List.filter_singleton, hself, cond_true]
  | response a =>
    simp only
    rw [h.waiting, List.filter_comm]
  | other name => exact h.waiting

theorem filter_waitingAfter_of_ne (c : Correlator) (hm : m.subject? ≠ some s) :
    (c.waitingAfter m).filter (·.subject == s) = c.waiting.filter (·.subject == s) := by
  unfold Message.subject? at hm
  unfold waitingAfter
  cases hp : m.purpose with
  | request a =>
    rw [hp] at hm
    have hs : (a, m.id) ≠ s := fun hs => hm (congrArg some hs)
    have hother : ((OpenRequest.ofMessage a m).subject == s) = false := beq_false_of_ne hs
    simp only
    split
    · rfl
    · rw [List.filter_append, List.filter_singleton, hother, cond_false, List.append_nil]
  | response a =>
    rw [hp] at hm
    have hs : (a, m.id) ≠ s := fun hs => hm (congrArg some hs)
    simp only [List.filter_filter]
    refine List.filter_congr fun r _ => ?_
    by_cases hr : r.subject = s
    · simp [hr, Ne.symm hs]
    · simp [hr]
  | other name => rfl

/-- A message about the subject does the same to the part as to the whole. -/
theorem Part.observe (h : Part s c part) (hm : m.subject? = some s) :
    Part s (c.observe m).1 (part.observe m).1 := by
  obtain ⟨hw, ho, ha⟩ := observe_eq c m
  obtain ⟨hw', ho', ha'⟩ := observe_eq part m
  constructor
  case waiting => rw [hw, hw', h.waitingAfter_eq hm]
  case operations =>
    rw [ho, ho', h.completed?_eq hm, List.filter_append, ← h.operations]
    congr 1
    refine (List.filter_eq_self.mpr fun op hop => ?_).symm
    have hsubject := subject?_of_completed? (Option.mem_toList.mp hop)
    exact beq_iff_eq.mpr (Option.some.inj (hsubject.symm.trans hm))
  case anomalies =>
    rw [ha, ha', h.anomaly?_eq hm, List.filter_append, ← h.anomalies]
    congr 1
    refine (List.filter_eq_self.mpr fun x hx => ?_).symm
    have hsubject := subject?_of_anomaly? (Option.mem_toList.mp hx)
    exact beq_iff_eq.mpr (hsubject.trans hm)

/-- Any other message leaves the part as it is. -/
theorem Part.observe_of_ne (h : Part s c part) (hm : m.subject? ≠ some s) :
    Part s (c.observe m).1 part := by
  obtain ⟨hw, ho, ha⟩ := observe_eq c m
  constructor
  case waiting => rw [hw, filter_waitingAfter_of_ne c hm, h.waiting]
  case operations =>
    rw [ho, List.filter_append, ← h.operations, List.self_eq_append_right, List.filter_eq_nil_iff]
    intro op hop hs
    have hsubject := subject?_of_completed? (Option.mem_toList.mp hop)
    exact hm (hsubject.trans (congrArg some (beq_iff_eq.mp hs)))
  case anomalies =>
    rw [ha, List.filter_append, ← h.anomalies, List.self_eq_append_right, List.filter_eq_nil_iff]
    intro x hx hs
    have hsubject := subject?_of_anomaly? (Option.mem_toList.mp hx)
    exact hm (hsubject.symm.trans (beq_iff_eq.mp hs))

/-- What the correlator of a log holds on a subject is the correlator of the messages about it. -/
theorem part_observeAll (s : Subject) (ms : List Message) :
    Part s (observeAll {} ms) (observeAll {} (ms.filter (·.subject? == some s))) := by
  induction ms using List.reverseRecOn with
  | nil => exact ⟨rfl, rfl, rfl⟩
  | append_singleton ms m ih =>
    rw [observeAll_concat, List.filter_append, List.filter_singleton]
    by_cases hm : m.subject? = some s
    · rw [beq_iff_eq.mpr hm, cond_true, observeAll_concat]
      exact ih.observe hm
    · rw [beq_false_of_ne hm, cond_false, List.append_nil]
      exact ih.observe_of_ne hm

theorem filter_anomalies_observeAll (ms : List Message) :
    (observeAll {} ms).anomalies.filter (·.subject? == none) =
      ms.filterMap Message.unexpected? := by
  induction ms using List.reverseRecOn with
  | nil => rfl
  | append_singleton ms m ih =>
    rw [observeAll_concat, (observe_eq _ m).2.2, List.filter_append, ih, List.filterMap_append]
    congr 1
    simp only [List.filterMap_cons, List.filterMap_nil]
    unfold anomaly? Message.unexpected?
    cases m.purpose with
    | request a =>
      simp only
      split <;> rfl
    | response a =>
      simp only
      split <;> rfl
    | other name => rfl

/-- Without anomalies every response completes an operation. -/
theorem map_subject_operations {ms : List Message} (h : (observeAll {} ms).anomalies = []) :
    (observeAll {} ms).operations.map (·.subject) = ms.filterMap Message.answered? := by
  induction ms using List.reverseRecOn with
  | nil => rfl
  | append_singleton ms m ih =>
    obtain ⟨-, ho, ha⟩ := observe_eq (observeAll {} ms) m
    rw [observeAll_concat, ha, List.append_eq_nil_iff, Option.toList_eq_nil_iff] at h
    obtain ⟨hms, hm⟩ := h
    rw [observeAll_concat, ho, List.map_append, ih hms, List.filterMap_append]
    congr 1
    simp only [List.filterMap_cons, List.filterMap_nil]
    unfold anomaly? at hm
    unfold completed? Message.answered?
    cases hp : m.purpose with
    | request a => rfl
    | other name => rfl
    | response a =>
      simp only [hp] at hm
      cases hw : (observeAll {} ms).waitingFor? (a, m.id) with
      | none => simp [hw] at hm
      | some r =>
        have hsubject : (r.answer m).subject = (a, m.id) := subject_of_waitingFor? hw
        simp [hw, hsubject]

end Correlator

namespace Correlation
open Consistency
variable {ms ms' : List Message}

/-- The same messages, and those about any one subject in the same order. -/
structure Interleaves (ms ms' : List Message) : Prop where
  perm : ms.Perm ms'
  filter_eq (s : Subject) :
    ms.filter (·.subject? == some s) = ms'.filter (·.subject? == some s)

theorem interleaves_swap (before after : List Message) {m m' : Message}
    (h : m.subject? ≠ m'.subject?) :
    Interleaves (before ++ m :: m' :: after) (before ++ m' :: m :: after) where
  perm := (List.Perm.swap m' m after).append_left before
  filter_eq s := by
    simp only [List.filter_append, List.filter_cons, beq_iff_eq]
    split_ifs with hm hm'
    · exact absurd (hm.trans hm'.symm) h
    all_goals rfl

theorem Interleaves.operations_perm (h : Interleaves ms ms') :
    (({} : Correlator).observeAll ms).operations.Perm
      (({} : Correlator).observeAll ms').operations := by
  refine perm_of_filter_perm Operation.subject fun s => .of_eq ?_
  rw [← (Correlator.part_observeAll s ms).operations, h.filter_eq,
    (Correlator.part_observeAll s ms').operations]

theorem Interleaves.waiting_perm (h : Interleaves ms ms') :
    (({} : Correlator).observeAll ms).waiting.Perm
      (({} : Correlator).observeAll ms').waiting := by
  refine perm_of_filter_perm OpenRequest.subject fun s => .of_eq ?_
  rw [← (Correlator.part_observeAll s ms).waiting, h.filter_eq,
    (Correlator.part_observeAll s ms').waiting]

theorem Interleaves.anomalies_perm (h : Interleaves ms ms') :
    (({} : Correlator).observeAll ms).anomalies.Perm
      (({} : Correlator).observeAll ms').anomalies := by
  refine perm_of_filter_perm Anomaly.subject? fun k => ?_
  cases k with
  | none =>
    rw [Correlator.filter_anomalies_observeAll, Correlator.filter_anomalies_observeAll]
    exact h.perm.filterMap _
  | some s =>
    rw [← (Correlator.part_observeAll s ms).anomalies, h.filter_eq,
      (Correlator.part_observeAll s ms').anomalies]

theorem Interleaves.counters_eq (h : Interleaves ms ms') :
    (({} : Correlator).observeAll ms).traffic.counters =
      (({} : Correlator).observeAll ms').traffic.counters := by
  have : RightCommutative Traffic.observe := ⟨Traffic.observe_right_comm⟩
  rw [Correlator.counters_traffic_observeAll, Correlator.counters_traffic_observeAll,
    h.perm.foldl_eq]

/-- The requests that gave up are the same, in the same order. -/
theorem Interleaves.abandoned_eq (h : Interleaves ms ms') :
    let c := ({} : Correlator).observeAll ms
    let c' := ({} : Correlator).observeAll ms'
    (c.waiting.mergeSort OpenRequest.le).map (·.abandon c.traffic.lastTime) =
      (c'.waiting.mergeSort OpenRequest.le).map (·.abandon c'.traffic.lastTime) := by
  intro c c'
  have hsorted : c.waiting.mergeSort OpenRequest.le = c'.waiting.mergeSort OpenRequest.le :=
    (Correlator.distinct_observeAll ms').mergeSort_eq h.waiting_perm
  have hlast : c.traffic.counters.lastTime = c'.traffic.counters.lastTime :=
    congrArg Traffic.lastTime h.counters_eq
  unfold Traffic.counters at hlast
  rw [hsorted, hlast]

theorem outcome_ne_unknown {op : Operation}
    (hop : op ∈ (({} : Correlator).observeAll ms).operations) : op.outcome ≠ .unknown := by
  rw [operations_observeAll, List.mem_filterMap] at hop
  obtain ⟨j, -, hj⟩ := hop
  obtain ⟨a, i, -, -, rfl⟩ := completedAt?_eq_some_iff.mp hj
  unfold exchange
  dsimp only
  split <;> decide

theorem filter_answered_finish (ms : List Message) :
    (({} : Correlator).observeAll ms).finish.operations.filter (·.outcome != .unknown) =
      (({} : Correlator).observeAll ms).operations := by
  have hanswered : (({} : Correlator).observeAll ms).operations.filter (·.outcome != .unknown) =
      (({} : Correlator).observeAll ms).operations :=
    List.filter_eq_self.mpr fun op hop => bne_iff_ne.mpr (outcome_ne_unknown hop)
  rw [Correlator.finish, List.filter_append, hanswered, List.filter_map]
  simp [OpenRequest.abandon, Function.comp_def]

theorem filter_unknown_finish (ms : List Message) :
    let c := ({} : Correlator).observeAll ms
    c.finish.operations.filter (·.outcome == .unknown) =
      (c.waiting.mergeSort OpenRequest.le).map (·.abandon c.traffic.lastTime) := by
  intro c
  have hanswered : c.operations.filter (·.outcome == .unknown) = [] :=
    List.filter_eq_nil_iff.mpr fun op hop h => outcome_ne_unknown hop (beq_iff_eq.mp h)
  rw [Correlator.finish, List.filter_append, hanswered, List.filter_map, List.nil_append]
  simp [OpenRequest.abandon, Function.comp_def]

theorem orderly_of_pairwise (h : ms.Pairwise (·.time ≤ ·.time)) : Orderly ms := by
  intro s i j _ hi
  have hlt : i < j := (opener?_eq_some_iff.mp hi).1.1
  exact List.pairwise_iff_get.mp h i j hlt

theorem Orderly.start_le_finish (h : Orderly ms) {op : Operation}
    (hop : op ∈ (({} : Correlator).observeAll ms).finish.operations) : op.start ≤ op.finish := by
  rw [Correlator.finish, List.mem_append] at hop
  rcases hop with hop | hop
  · rw [operations_observeAll, List.mem_filterMap] at hop
    obtain ⟨j, -, hj⟩ := hop
    obtain ⟨a, i, ha, hi, rfl⟩ := completedAt?_eq_some_iff.mp hj
    exact h _ i j ⟨ha, rfl⟩ hi
  · obtain ⟨r, -, rfl⟩ := List.mem_map.mp hop
    exact le_max_right ..

/-- It does not show how messages about different subjects were interleaved: the answered operations
and the anomalies are the same up to their order, and the unanswered requests and the counters are
the same. The verdict is the same unless a response is earlier than the request that it answers. -/
theorem finish_observeAll_interleaving (h : Interleaves ms ms') :
    let r := (({} : Correlator).observeAll ms).finish
    let r' := (({} : Correlator).observeAll ms').finish
    (r.operations.filter (·.outcome != .unknown)).Perm
        (r'.operations.filter (·.outcome != .unknown)) ∧
      r.anomalies.Perm r'.anomalies ∧
      r.operations.filter (·.outcome == .unknown) = r'.operations.filter (·.outcome == .unknown) ∧
      r.unanswered = r'.unanswered ∧
      r.traffic.counters = r'.traffic.counters ∧
      (Orderly ms → ∀ matchVersion,
        (audit r.operations (.ofOperations r.operations) matchVersion).verdict =
          (audit r'.operations (.ofOperations r'.operations) matchVersion).verdict) := by
  intro r r'
  refine ⟨?_, h.anomalies_perm, ?_, h.waiting_perm.length_eq, h.counters_eq, ?_⟩
  · rw [filter_answered_finish, filter_answered_finish]
    exact h.operations_perm
  · rw [filter_unknown_finish, filter_unknown_finish, h.abandoned_eq]
  · intro horderly matchVersion
    have hperm : r.operations.Perm r'.operations :=
      h.operations_perm.append (.of_eq h.abandoned_eq)
    exact verdict_audit_eq_of_perm hperm (fun op hop => horderly.start_le_finish hop) matchVersion

/-- A read and a write, which overlap. -/
def overlapping : List Message :=
  [⟨0, 7, 1, 9, .request .write, [1], [5], none, true⟩,
    ⟨1, 7, 2, 9, .request .read, [1], [], none, true⟩,
    ⟨2, 7, 9, 1, .response .write, [], [], some 3, true⟩,
    ⟨4, 7, 9, 2, .response .read, [], [5], some 3, true⟩]

/-- The same log, but the read was logged when the write was over. -/
def oneByOne : List Message :=
  [⟨0, 7, 1, 9, .request .write, [1], [5], none, true⟩,
    ⟨2, 7, 9, 1, .response .write, [], [], some 3, true⟩,
    ⟨1, 7, 2, 9, .request .read, [1], [], none, true⟩,
    ⟨4, 7, 9, 2, .response .read, [], [5], some 3, true⟩]

theorem finish_observeAll_overlapping :
    let r := (({} : Correlator).observeAll overlapping).finish
    let r' := (({} : Correlator).observeAll oneByOne).finish
    Interleaves overlapping oneByOne ∧ Orderly overlapping ∧
      (audit r.operations (.ofOperations r.operations) true).verdict =
        (audit r'.operations (.ofOperations r'.operations) true).verdict := by
  have hswap : Interleaves overlapping oneByOne :=
    interleaves_swap [overlapping[0]] [overlapping[3]] (m := overlapping[1]) (by decide)
  have horderly : Orderly overlapping := orderly_of_pairwise (by decide)
  have hsame := finish_observeAll_interleaving hswap
  exact ⟨hswap, horderly, hsame.2.2.2.2.2 horderly true⟩

end Correlation
end StoreAudit
