import StoreAudit.Proofs.Correlation.Interleaving
import StoreAudit.Proofs.Stats.Workload

/-! Every request is answered, still open or a duplicate, and every response answers a request or is
an orphan. The counters of the traffic agree with that after every message. -/
namespace StoreAudit

namespace Anomaly

/-- A request for the action while one with its id is open. -/
def isDuplicate (a : Action) : Anomaly → Bool
  | .duplicateRequest b _ _ => b == a
  | .orphanResponse .. | .unexpectedMessage .. => false

/-- A response to the action that no open request waits for. -/
def isOrphan (a : Action) : Anomaly → Bool
  | .orphanResponse b _ _ => b == a
  | .duplicateRequest .. | .unexpectedMessage .. => false

end Anomaly

namespace Correlator
variable (c : Correlator) (m : Message) (a : Action)

/-- The operations of the requests that were answered. -/
def answered : List Operation := c.operations.filter (·.action == a)

/-- The requests that were not answered so far. -/
def opened : List OpenRequest := c.waiting.filter (·.action == a)

def duplicates : Nat := c.anomalies.countP (Anomaly.isDuplicate a)

def orphans : Nat := c.anomalies.countP (Anomaly.isOrphan a)

theorem traffic_observe : (c.observe m).1.traffic =
    match c.completed? m with
    | some op => (c.traffic.observe m).observeLatency op.action op.latency
    | none => c.traffic.observe m := by
  cases hp : m.purpose with
  | request b =>
    simp only [observe, hp, request, completed?]
    split <;> rfl
  | other name => simp only [observe, hp, completed?]
  | response b =>
    simp only [observe, hp, response, decide_isFor, completed?]
    cases hw : c.waitingFor? (b, m.id) with
    | none =>
      rw [waitingFor?] at hw
      simp only [hw]
      rfl
    | some r =>
      obtain rfl : r.action = b := congrArg Prod.fst (subject_of_waitingFor? hw)
      rw [waitingFor?] at hw
      simp only [hw]
      rfl

theorem latencies_traffic_observe : (c.observe m).1.traffic.latencies a = c.traffic.latencies a ++
    ((c.completed? m).toList.filter (·.action == a)).map (·.latency) := by
  rw [traffic_observe]
  cases c.completed? m with
  | none => simp [Traffic.latencies_observe]
  | some op =>
    by_cases hop : op.action = a <;>
      simp [Traffic.latencies_observeLatency, Traffic.latencies_observe, hop]

/-- Response times aside, the message does to the traffic what it does without a correlator. -/
theorem counter_traffic_observe (f : Traffic → Nat) (hf : ∀ t, f t.counters = f t) :
    f (c.observe m).1.traffic = f (c.traffic.observe m) := by
  rw [← hf, counters_traffic_observe, ← Traffic.counters_observe, hf]

theorem requests_traffic_observe : (c.observe m).1.traffic.requests a =
    c.traffic.requests a + if m.purpose = .request a then 1 else 0 := by
  rw [← Traffic.requests_observe]
  exact c.counter_traffic_observe m (·.requests a) fun t => t.requests_counters a

theorem responses_traffic_observe : (c.observe m).1.traffic.responses a =
    c.traffic.responses a + if m.purpose = .response a then 1 else 0 := by
  rw [← Traffic.responses_observe]
  exact c.counter_traffic_observe m (·.responses a) fun t => t.responses_counters a

theorem errors_traffic_observe : (c.observe m).1.traffic.errors a =
    c.traffic.errors a + if m.purpose = .response a ∧ m.ok = false then 1 else 0 := by
  rw [← Traffic.errors_observe]
  exact c.counter_traffic_observe m (·.errors a) fun t => t.errors_counters a

theorem answered_observe : (c.observe m).1.answered a =
    c.answered a ++ (c.completed? m).toList.filter (·.action == a) := by
  rw [answered, (observe_eq c m).2.1, List.filter_append, ← answered]

theorem countP_anomalies_observe (p : Anomaly → Bool) : (c.observe m).1.anomalies.countP p =
    c.anomalies.countP p + (c.anomaly? m).toList.countP p := by
  rw [(observe_eq c m).2.2, List.countP_append]

variable {c m a}

/-- An answer takes one request away. -/
theorem Distinct.waiting_perm (h : c.Distinct) {s : Subject} {r : OpenRequest}
    (hr : c.waitingFor? s = some r) :
    c.waiting.Perm (r :: c.waiting.filter fun r => r.subject != s) := by
  have hself := filter_label_eq_singleton OpenRequest.subject h (List.mem_of_find?_eq_some hr)
  rw [subject_of_waitingFor? hr] at hself
  have hperm := (List.filter_append_perm (·.subject == s) c.waiting).symm
  rw [hself] at hperm
  exact hperm

/-- A request opens or is a duplicate, and an answer takes away an open request of its action. -/
theorem length_opened_observe (hd : c.Distinct) (m : Message) (a : Action) :
    ((c.observe m).1.opened a).length + ((c.completed? m).toList.filter (·.action == a)).length +
        (c.anomaly? m).toList.countP (Anomaly.isDuplicate a) =
      (c.opened a).length + if m.purpose = .request a then 1 else 0 := by
  rw [opened, (observe_eq c m).1]
  cases hp : m.purpose with
  | request b =>
    simp only [waitingAfter, completed?, anomaly?, hp]
    rcases eq_or_ne b a with rfl | hb <;> by_cases hopen : (c.waitingFor? (b, m.id)).isSome <;>
      simp [opened, Anomaly.isDuplicate, OpenRequest.ofMessage, *]
  | response b =>
    simp only [waitingAfter, completed?, anomaly?, hp]
    cases hw : c.waitingFor? (b, m.id) with
    | none => simp [opened, Anomaly.isDuplicate, filter_subject_ne_of_waitingFor?_eq_none c hw]
    | some r =>
      have hanswer : (r.answer m).action = r.action := rfl
      have hlength := ((hd.waiting_perm hw).filter (·.action == a)).length_eq
      rw [opened, hlength]
      by_cases hr : r.action = a <;> simp [hanswer, hr]
  | other name => simp [waitingAfter, completed?, anomaly?, hp, opened, Anomaly.isDuplicate]

/-- A response completes an operation of its action or is an orphan. -/
theorem length_completed?_add_orphan (c : Correlator) (m : Message) (a : Action) :
    ((c.completed? m).toList.filter (·.action == a)).length +
        (c.anomaly? m).toList.countP (Anomaly.isOrphan a) =
      if m.purpose = .response a then 1 else 0 := by
  cases hp : m.purpose with
  | request b =>
    by_cases hopen : (c.waitingFor? (b, m.id)).isSome <;>
      simp [completed?, anomaly?, hp, Anomaly.isOrphan, hopen]
  | response b =>
    simp only [completed?, anomaly?, hp]
    cases hw : c.waitingFor? (b, m.id) with
    | none => by_cases hb : b = a <;> simp [Anomaly.isOrphan, hb]
    | some r =>
      have hanswer : (r.answer m).action = b := congrArg Prod.fst (subject_of_waitingFor? hw)
      by_cases hb : b = a <;> simp [hanswer, hb]
  | other name => simp [completed?, anomaly?, hp, Anomaly.isOrphan]

/-- The requests of an action with their responses, and what the counters say of them. -/
structure Accounted (c : Correlator) (a : Action) : Prop where
  requests : c.traffic.requests a = (c.answered a).length + (c.opened a).length + c.duplicates a
  responses : c.traffic.responses a = (c.answered a).length + c.orphans a
  latencies : c.traffic.latencies a = (c.answered a).map (·.latency)
  errors : c.traffic.errors a ≤ c.traffic.responses a

theorem accounted_empty (a : Action) : Accounted {} a := by
  cases a <;> exact ⟨rfl, rfl, rfl, le_rfl⟩

theorem Accounted.observe (hd : c.Distinct) (h : c.Accounted a) (m : Message) :
    (c.observe m).1.Accounted a := by
  constructor
  case requests =>
    have hbefore := h.requests
    have hopened := length_opened_observe hd m a
    rw [requests_traffic_observe, answered_observe, List.length_append, duplicates,
      countP_anomalies_observe, ← duplicates]
    omega
  case responses =>
    have hbefore := h.responses
    have hresponse := length_completed?_add_orphan c m a
    rw [responses_traffic_observe, answered_observe, List.length_append, orphans,
      countP_anomalies_observe, ← orphans]
    omega
  case latencies =>
    rw [latencies_traffic_observe, answered_observe, List.map_append, h.latencies]
  case errors =>
    have hbefore := h.errors
    have himp : m.purpose = .response a ∧ m.ok = false → m.purpose = .response a := And.left
    rw [errors_traffic_observe, responses_traffic_observe]
    split_ifs <;> first | omega | tauto

theorem accounted_observeAll (ms : List Message) (a : Action) :
    (observeAll {} ms).Accounted a := by
  induction ms using List.reverseRecOn with
  | nil => exact accounted_empty a
  | append_singleton ms m ih =>
    rw [observeAll_concat]
    exact ih.observe (distinct_observeAll ms) m

/-- Both statistics summarise the same response times. -/
theorem Accounted.latency?_eq (h : c.Accounted a) :
    (Workload.ofOperations c.operations).latency? a = c.traffic.latency? a := by
  have htallies := Workload.tallies_ofOperations c.operations
  rw [Workload.latency?_eq, Traffic.latency?_eq, htallies.latencies, h.latencies, answered]

theorem Accounted.timeOf_eq (h : c.Accounted a) :
    Workload.timeOf c.operations a = (c.traffic.latencies a).sum := by
  rw [h.latencies, Workload.timeOf, answered]

/-- A build that gets through the statistics of the operations has both summaries. -/
theorem latencyIn?_eq_of_accounted (h : ∀ a, c.Accounted a) {b : Build} {w : Workload}
    (hw : Workload.ofOperationsIn? b c.operations = some w) (a : Action) :
    w.latencyIn? b a = some (c.traffic.latency? a) ∧
      c.traffic.latencyIn? b a = some (c.traffic.latency? a) := by
  rcases Workload.ofOperationsIn?_cases b c.operations with ⟨-, hnone⟩ | ⟨hgoes, hsome⟩
  · cases hnone.symm.trans hw
  · obtain rfl := Option.some.inj (hsome.symm.trans hw)
    have hgoes := hgoes a
    rw [(h a).timeOf_eq] at hgoes
    rw [Workload.latencyIn?_eq, (Workload.tallies_ofOperations _).latencies, ← Workload.timeOf,
      (h a).timeOf_eq, if_neg hgoes, (h a).latency?_eq, Traffic.latencyIn?_eq, if_neg hgoes]
    exact ⟨rfl, rfl⟩

theorem Accounted.balanced_iff (h : c.Accounted a) (hnone : c.anomalies = []) :
    c.traffic.balanced a ↔ c.opened a = [] := by
  have hduplicates : c.duplicates a = 0 := by rw [duplicates, hnone, List.countP_nil]
  have horphans : c.orphans a = 0 := by rw [orphans, hnone, List.countP_nil]
  have hrequests := h.requests
  have hresponses := h.responses
  rw [Traffic.balanced_iff, ← List.length_eq_zero_iff]
  omega

/-- An open request waits for an answer to its read or to its write. -/
theorem length_waiting (c : Correlator) :
    c.waiting.length = (c.opened .read).length + (c.opened .write).length := by
  have hsplit := List.length_eq_length_filter_add (l := c.waiting) (·.action == .read)
  have hwrite : (c.waiting.filter fun r => !(r.action == .read)) = c.opened .write :=
    List.filter_congr fun r _ => by cases r.action <;> rfl
  rw [hsplit, hwrite]
  rfl

end Correlator

namespace Correlation
variable {ms : List Message}

/-- Nobody waits since later than the end of the log. -/
theorem start_le_lastTime {r : OpenRequest}
    (hr : r ∈ (({} : Correlator).observeAll ms).waiting) : r.start ≤ lastTime ms := by
  obtain ⟨i, -, hi⟩ := (mem_waiting_observeAll ms).mp hr
  have hstart : (ms.get i).time = r.start := congrArg OpenRequest.start hi
  rw [← hstart]
  exact time_le_lastTime (List.get_mem ..)

theorem finish_le_lastTime {op : Operation}
    (hop : op ∈ (({} : Correlator).observeAll ms).finish.operations) : op.finish ≤ lastTime ms := by
  rw [Correlator.finish, List.mem_append] at hop
  rcases hop with hop | hop
  · rw [operations_observeAll, List.mem_filterMap] at hop
    obtain ⟨j, -, hj⟩ := hop
    obtain ⟨a, i, -, -, rfl⟩ := completedAt?_eq_some_iff.mp hj
    exact time_le_lastTime (List.get_mem ..)
  · obtain ⟨r, hr, rfl⟩ := List.mem_map.mp hop
    rw [lastTime_observeAll]
    exact max_le le_rfl (start_le_lastTime (List.mem_mergeSort.mp hr))

/-- After every message the requests and the responses of each action add up, and both statistics
have the response times of the answered operations. At the end the requests that are open give up.
If there was no anomaly, an action is balanced exactly if none of its requests is open. A build gets
through the statistics of the operations, and then both summaries, unless it stops at the sum of the
response times to an action. -/
theorem finish_observeAll_accounted (ms : List Message) :
    let c := ({} : Correlator).observeAll ms
    let r := c.finish
    (∀ a, c.Accounted a ∧
      (Workload.ofOperations c.operations).latency? a = c.traffic.latency? a ∧
      (c.anomalies = [] → (c.traffic.balanced a ↔ c.opened a = []))) ∧
    (∃ left, r.operations = c.operations ++ left ∧ left.length = r.unanswered ∧
      (∀ op ∈ c.operations, op.outcome ≠ .unknown) ∧
      ∀ op ∈ left, op.outcome = .unknown ∧ op.start ≤ op.finish) ∧
    r.unanswered = (c.opened .read).length + (c.opened .write).length ∧
    (∀ op ∈ r.operations, op.finish ≤ r.traffic.lastTime) ∧
    ∀ b : Build, (Workload.ofOperationsIn? b c.operations = none ↔
        ∃ a, b.Stops (c.traffic.latencies a).sum) ∧
      ∀ w, Workload.ofOperationsIn? b c.operations = some w → ∀ a,
        w.latencyIn? b a = some (c.traffic.latency? a) ∧
        c.traffic.latencyIn? b a = some (c.traffic.latency? a) := by
  intro c r
  refine ⟨fun a => ?_, ⟨_, rfl, ?_, fun op => outcome_ne_unknown, ?_⟩, ?_, fun op hop => ?_,
    fun b => ⟨?_, fun w hw => ?_⟩⟩
  · have haccounted : c.Accounted a := Correlator.accounted_observeAll ms a
    exact ⟨haccounted, haccounted.latency?_eq, haccounted.balanced_iff⟩
  · rw [List.length_map, List.length_mergeSort]
    rfl
  · intro op hop
    obtain ⟨request, -, rfl⟩ := List.mem_map.mp hop
    exact ⟨rfl, le_max_right ..⟩
  · exact Correlator.length_waiting c
  · have hlast : r.traffic.lastTime = lastTime ms := lastTime_observeAll ms
    rw [hlast]
    exact finish_le_lastTime hop
  · have htime (a : Action) := (Correlator.accounted_observeAll ms a).timeOf_eq
    simp only [Workload.ofOperationsIn?_eq_none_iff, c, htime]
  · exact Correlator.latencyIn?_eq_of_accounted (Correlator.accounted_observeAll ms) hw

/-- A write that was answered, and a read that waits. -/
def halfAnswered : List Message :=
  [⟨0, 7, 1, 9, .request .write, [1], [5], none, true⟩,
    ⟨2, 7, 9, 1, .response .write, [], [], some 3, true⟩,
    ⟨4, 8, 2, 9, .request .read, [1], [], none, true⟩]

theorem balanced_halfAnswered :
    let c := ({} : Correlator).observeAll halfAnswered
    c.anomalies = [] ∧ c.opened .write = [] ∧ c.traffic.balanced .write ∧
      c.opened .read ≠ [] ∧ ¬ c.traffic.balanced .read ∧
      ∃ w, Workload.ofOperationsIn? .checked c.operations = some w ∧
        w.latencyIn? .checked .write = some (c.traffic.latency? .write) := by
  intro c
  have hnone : c.anomalies = [] := by decide
  have hclosed : c.opened .write = [] := by decide
  have hopen : c.opened .read ≠ [] := by decide
  have hbalanced (a : Action) : c.traffic.balanced a ↔ c.opened a = [] :=
    ((finish_observeAll_accounted halfAnswered).1 a).2.2 hnone
  have hbuild : Workload.ofOperationsIn? .checked c.operations =
      some (Workload.ofOperations c.operations) := by decide
  have hlatency := ((finish_observeAll_accounted halfAnswered).2.2.2.2 .checked).2 _ hbuild .write
  exact ⟨hnone, hclosed, (hbalanced .write).mpr hclosed, hopen, (hbalanced .read).not.mpr hopen,
    _, hbuild, hlatency.1⟩

end Correlation
end StoreAudit
