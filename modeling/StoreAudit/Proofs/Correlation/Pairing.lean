import Mathlib.Data.Fintype.Basic
import Mathlib.Data.List.FinRange
import Mathlib.Data.Prod.Lex
import Mathlib.Data.Set.Lattice.Image
import StoreAudit.Proofs.Correlation.Observe

/-! Which request of a log a response answers, by their places: the first of its subject since the
last response to that. The correlation of a log holds one operation for each response that answers a
request and for each request that is left, and every other message is an anomaly. -/
namespace StoreAudit

namespace Correlation
variable (ms : List Message)

/-- The message at place `i` is a request about `s`, and none after it and before place `j` is a
response about `s`. -/
def Waits (s : Subject) (i : Fin ms.length) (j : Nat) : Prop :=
  i < j ∧ (ms.get i).Asks s ∧ ∀ k, i < k → k < j → ¬ (ms.get k).Answers s

instance (s : Subject) (i : Fin ms.length) (j : Nat) : Decidable (Waits ms s i j) :=
  inferInstanceAs (Decidable (_ ∧ _ ∧ _))

/-- The first request about `s` that waits at place `j`. -/
def opener? (s : Subject) (j : Nat) : Option (Fin ms.length) :=
  Fin.find? fun i => decide (Waits ms s i j)

/-- The operation that a request and the response to it make up. The response may leave out the key
and, to a write, the value. -/
def exchange (a : Action) (request response : Message) : Operation where
  id := response.id
  action := a
  key := if response.key = [] then request.key else response.key
  value := if a = .write ∧ response.value = [] then request.value else response.value
  start := request.time
  finish := response.time
  version := response.version
  outcome := if response.ok then .success else .failure

/-- The operation of a request that was not answered before the log ended at `last`. -/
def leftOpen (s : Subject) (request : Message) (last : Nat) : Operation where
  id := s.2
  action := s.1
  key := request.key
  value := request.value
  start := request.time
  finish := last
  version := none
  outcome := .unknown

/-- The operation that the message at place `j` completes. -/
def completedAt? (j : Fin ms.length) : Option Operation :=
  match (ms.get j).purpose with
  | .response a =>
    (opener? ms (a, (ms.get j).id) j).map fun i => exchange a (ms.get i) (ms.get j)
  | _ => none

/-- The anomaly that the message at place `j` is. -/
def anomalyAt? (j : Fin ms.length) : Option Anomaly :=
  let m := ms.get j
  match m.purpose with
  | .request a =>
    if (opener? ms (a, m.id) j).isSome then some (.duplicateRequest a m.id m.time) else none
  | .response a =>
    if (opener? ms (a, m.id) j).isSome then none else some (.orphanResponse a m.id m.time)
  | .other name => some (.unexpectedMessage name m.id m.time)

/-- No response is logged at an earlier time than the request that it answers. -/
def Orderly : Prop :=
  ∀ s i j, (ms.get j).Answers s → opener? ms s j = some i → (ms.get i).time ≤ (ms.get j).time

/-- The largest time in the log. -/
def lastTime : Nat := (ms.map (·.time)).max?.getD 0

/-- By the start, then reads before writes, then the id. -/
def startKey (p : Subject × Fin ms.length) : ℕ ×ₗ ℕ ×ₗ ℕ :=
  toLex ((ms.get p.2).time, toLex (p.1.1.rank, p.1.2))

variable {ms}

theorem opener?_eq_some_iff {s : Subject} {j : Nat} {i : Fin ms.length} :
    opener? ms s j = some i ↔ Waits ms s i j ∧ ∀ k < i, ¬ Waits ms s k j := by
  unfold opener?
  simp only [Fin.find?_eq_some_iff, decide_eq_true_eq, decide_eq_false_iff_not]

theorem opener?_eq_none_iff {s : Subject} {j : Nat} :
    opener? ms s j = none ↔ ∀ i, ¬ Waits ms s i j := by
  unfold opener?
  simp only [Fin.find?_eq_none_iff, decide_eq_false_iff_not]

theorem opener?_zero (s : Subject) : opener? ms s 0 = none :=
  opener?_eq_none_iff.mpr fun i hi => absurd hi.1 (Nat.not_lt_zero i)

theorem waits_succ_iff {s : Subject} {i j : Fin ms.length} : Waits ms s i (j + 1) ↔
    ¬ (ms.get j).Answers s ∧ (Waits ms s i j ∨ i = j ∧ (ms.get j).Asks s) := by
  constructor
  · intro ⟨hlt, hasks, hnone⟩
    rcases Nat.lt_succ_iff_lt_or_eq.mp hlt with hij | hij
    · refine ⟨hnone j hij (Nat.lt_succ_self j), .inl ⟨hij, hasks, fun k hik hkj => ?_⟩⟩
      exact hnone k hik (Nat.lt_succ_of_lt hkj)
    · obtain rfl := Fin.ext hij
      exact ⟨hasks.not_answers, .inr ⟨rfl, hasks⟩⟩
  · intro ⟨hj, hi⟩
    rcases hi with ⟨hlt, hasks, hnone⟩ | ⟨rfl, hasks⟩
    · refine ⟨Nat.lt_succ_of_lt hlt, hasks, fun k hik hkj => ?_⟩
      rcases Nat.lt_succ_iff_lt_or_eq.mp hkj with hkj | hkj
      · exact hnone k hik hkj
      · rw [Fin.ext hkj]
        exact hj
    · refine ⟨Nat.lt_succ_self i, hasks, fun k hik hki => ?_⟩
      have hik : i.val < k.val := hik
      omega

theorem opener?_succ (s : Subject) (j : Fin ms.length) : opener? ms s (j + 1) =
    if (ms.get j).Answers s then none
    else (opener? ms s j).or (if (ms.get j).Asks s then some j else none) := by
  split_ifs with hanswers hasks
  · exact opener?_eq_none_iff.mpr fun i hi => (waits_succ_iff.mp hi).1 hanswers
  · cases ho : opener? ms s j with
    | none =>
      have hnone := opener?_eq_none_iff.mp ho
      rw [Option.none_or, opener?_eq_some_iff, waits_succ_iff]
      refine ⟨⟨hanswers, .inr ⟨rfl, hasks⟩⟩, fun k hk hwaits => ?_⟩
      rcases (waits_succ_iff.mp hwaits).2 with hw | ⟨hkj, -⟩
      · exact hnone k hw
      · exact hk.ne hkj
    | some i =>
      obtain ⟨hw, hfirst⟩ := opener?_eq_some_iff.mp ho
      rw [Option.some_or, opener?_eq_some_iff, waits_succ_iff]
      refine ⟨⟨hanswers, .inl hw⟩, fun k hk hwaits => ?_⟩
      rcases (waits_succ_iff.mp hwaits).2 with hwk | ⟨hkj, -⟩
      · exact hfirst k hk hwk
      · exact absurd hw.1 (by omega)
  · rw [Option.or_none]
    have hiff (i : Fin ms.length) : Waits ms s i (j + 1) ↔ Waits ms s i j := by
      rw [waits_succ_iff, and_iff_right hanswers, or_iff_left fun h => hasks h.2]
    unfold opener?
    simp only [hiff]

theorem completedAt?_eq_some_iff {j : Fin ms.length} {op : Operation} :
    completedAt? ms j = some op ↔ ∃ a i, (ms.get j).purpose = .response a ∧
      opener? ms (a, (ms.get j).id) j = some i ∧ exchange a (ms.get i) (ms.get j) = op := by
  unfold completedAt?
  cases (ms.get j).purpose <;> simp

variable (ms)

/-- The correlator when the messages before place `j` have been taken in. -/
def upTo (j : Nat) : Correlator := ({} : Correlator).observeAll (ms.take j)

theorem upTo_succ (j : Fin ms.length) :
    upTo ms (j + 1) = ((upTo ms j).observe (ms.get j)).1 := by
  unfold upTo
  rw [List.take_succ_eq_append_getElem j.isLt, Correlator.observeAll_concat]
  rfl

theorem upTo_length : upTo ms ms.length = ({} : Correlator).observeAll ms := by
  rw [upTo, List.take_length]

/-- What waits before a place is the first request since the last response. -/
theorem waitingFor?_upTo (s : Subject) {j : Nat} (hj : j ≤ ms.length) :
    (upTo ms j).waitingFor? s = (opener? ms s j).map fun i => .ofMessage s.1 (ms.get i) := by
  induction j with
  | zero =>
    rw [opener?_zero]
    rfl
  | succ j ih =>
    have hstep := upTo_succ ms ⟨j, hj⟩
    have hopener := opener?_succ s ⟨j, hj⟩
    simp only at hstep hopener
    rw [hstep, Correlator.waitingFor?_observe, ih (Nat.le_of_succ_le hj), hopener]
    split_ifs with hanswers hasks
    · rfl
    · rw [Option.map_or]
      rfl
    · rw [Option.or_none, Option.or_none]

theorem answer_ofMessage {a : Action} {request response : Message} (h : request.id = response.id) :
    (OpenRequest.ofMessage a request).answer response = exchange a request response := by
  simp [OpenRequest.ofMessage, OpenRequest.answer, exchange, h]

theorem completed?_upTo (j : Fin ms.length) :
    (upTo ms j).completed? (ms.get j) = completedAt? ms j := by
  unfold Correlator.completed? completedAt?
  cases (ms.get j).purpose with
  | request a => rfl
  | other name => rfl
  | response a =>
    simp only [waitingFor?_upTo ms _ j.isLt.le, Option.map_map]
    refine Option.map_congr fun i hi => ?_
    have hasks := (opener?_eq_some_iff.mp hi).1.2.1
    exact answer_ofMessage hasks.2

theorem anomaly?_upTo (j : Fin ms.length) :
    (upTo ms j).anomaly? (ms.get j) = anomalyAt? ms j := by
  unfold Correlator.anomaly? anomalyAt?
  cases hpurpose : (ms.get j).purpose <;>
    simp only [hpurpose, waitingFor?_upTo ms _ j.isLt.le, Option.isSome_map]

/-- What every place adds to, after all places. -/
theorem eq_filterMap_finRange {α : Type} {n : Nat} (l : Nat → List α) (h : Fin n → Option α)
    (hzero : l 0 = []) (hsucc : ∀ j : Fin n, l (j + 1) = l j ++ (h j).toList) :
    l n = (List.finRange n).filterMap h := by
  have htake : ∀ k ≤ n, l k = ((List.finRange n).take k).filterMap h := by
    intro k hk
    induction k with
    | zero => exact hzero
    | succ k ih =>
      have hlast := hsucc ⟨k, hk⟩
      simp only at hlast
      have hget : (List.finRange n).take (k + 1) = (List.finRange n).take k ++ [⟨k, hk⟩] := by
        rw [List.take_succ_eq_append_getElem (by rw [List.length_finRange]; exact hk),
          List.getElem_finRange]
        rfl
      rw [hget, List.filterMap_append, hlast, ih (Nat.le_of_succ_le hk)]
      cases hlast : h ⟨k, hk⟩ <;> simp [hlast]
  rw [htake n le_rfl, List.take_of_length_le (by simp)]

theorem operations_observeAll : (({} : Correlator).observeAll ms).operations =
    (List.finRange ms.length).filterMap (completedAt? ms) := by
  rw [← upTo_length]
  refine eq_filterMap_finRange (fun j => (upTo ms j).operations) _ rfl fun j => ?_
  rw [upTo_succ, (Correlator.observe_eq _ _).2.1, completed?_upTo]

theorem anomalies_observeAll : (({} : Correlator).observeAll ms).anomalies =
    (List.finRange ms.length).filterMap (anomalyAt? ms) := by
  rw [← upTo_length]
  refine eq_filterMap_finRange (fun j => (upTo ms j).anomalies) _ rfl fun j => ?_
  rw [upTo_succ, (Correlator.observe_eq _ _).2.2, anomaly?_upTo]

theorem mem_waiting_observeAll {r : OpenRequest} :
    r ∈ (({} : Correlator).observeAll ms).waiting ↔
      ∃ i, opener? ms r.subject ms.length = some i ∧ .ofMessage r.action (ms.get i) = r := by
  have hdistinct := Correlator.distinct_observeAll ms
  rw [hdistinct.mem_waiting_iff, ← upTo_length, waitingFor?_upTo ms _ le_rfl,
    Option.map_eq_some_iff]
  rfl

theorem lastTime_foldl_observe (t : Traffic) :
    (ms.foldl Traffic.observe t).lastTime = (ms.map (·.time)).foldl max t.lastTime := by
  induction ms generalizing t with
  | nil => rfl
  | cons m ms ih => rw [List.foldl_cons, ih, List.map_cons, List.foldl_cons, t.lastTime_observe]

theorem lastTime_observeAll :
    (({} : Correlator).observeAll ms).traffic.lastTime = lastTime ms := by
  have hcounters := congrArg Traffic.lastTime (Correlator.counters_traffic_observeAll {} ms)
  have hlast : (({} : Correlator).observeAll ms).traffic.lastTime =
      (ms.map (·.time)).foldl max 0 := hcounters.trans (lastTime_foldl_observe ms _)
  rw [hlast, lastTime]
  cases ms with
  | nil => rfl
  | cons m ms =>
    rw [List.map_cons, List.max?_cons', List.foldl_cons, Nat.zero_max, Option.getD_some]

variable {ms}

theorem time_le_lastTime {m : Message} (hm : m ∈ ms) : m.time ≤ lastTime ms :=
  List.le_max?_getD_of_mem (List.mem_map_of_mem hm)

theorem abandon_ofMessage {s : Subject} {m : Message} (hs : m.id = s.2) (hm : m ∈ ms) :
    (OpenRequest.ofMessage s.1 m).abandon (lastTime ms) = leftOpen s m (lastTime ms) := by
  have hlast : max (lastTime ms) m.time = lastTime ms := max_eq_left (time_le_lastTime hm)
  simp [OpenRequest.ofMessage, OpenRequest.abandon, leftOpen, hs, hlast]

/-- The requests that wait at the end, sorted, by their subjects and places. -/
theorem exists_map_eq_mergeSort_waiting (ms : List Message) :
    ∃ unanswered : List (Subject × Fin ms.length),
      (∀ s i, (s, i) ∈ unanswered ↔ opener? ms s ms.length = some i) ∧
      (unanswered.map fun p => .ofMessage p.1.1 (ms.get p.2)) =
        (({} : Correlator).observeAll ms).waiting.mergeSort OpenRequest.le := by
  let Opened := {p : Subject × Fin ms.length // opener? ms p.1 ms.length = some p.2}
  let request (p : Opened) : OpenRequest := .ofMessage p.1.1.1 (ms.get p.1.2)
  have hsubject (p : Opened) : (request p).subject = p.1.1 := by
    have hasks := (opener?_eq_some_iff.mp p.2).1.2.1
    exact Prod.ext rfl hasks.2
  have hrange : ∀ r ∈ (({} : Correlator).observeAll ms).waiting.mergeSort OpenRequest.le,
      r ∈ Set.range request := by
    intro r hr
    obtain ⟨i, hi, hr⟩ := (mem_waiting_observeAll ms).mp (List.mem_mergeSort.mp hr)
    exact ⟨⟨(r.subject, i), hi⟩, hr⟩
  obtain ⟨opened, hopened⟩ := (Set.ext_iff.mp (Set.range_list_map request) _).mpr hrange
  refine ⟨opened.map Subtype.val, fun s i => ⟨?_, fun hi => ?_⟩, ?_⟩
  · intro hmem
    obtain ⟨p, -, hp⟩ := List.mem_map.mp hmem
    have h := p.2
    rwa [hp] at h
  · have hwaits : request ⟨(s, i), hi⟩ ∈ opened.map request := by
      rw [hopened, List.mem_mergeSort, mem_waiting_observeAll, hsubject]
      exact ⟨i, hi, rfl⟩
    obtain ⟨p, hp, heq⟩ := List.mem_map.mp hwaits
    have hs : p.1.1 = s := by rw [← hsubject p, heq, hsubject]
    have hplace : p.1.2 = i := Option.some.inj (p.2.symm.trans (hs ▸ hi))
    exact List.mem_map.mpr ⟨p, hp, Prod.ext hs hplace⟩
  · rw [← hopened, List.map_map]
    rfl

/-- The correlation of a log holds the operation of each response that answers a request, in the
order of the responses, then that of each request that is left, by start, action and id. Its
anomalies are the other messages in their order. How the open requests are stored does not show. -/
theorem finish_observeAll_exact (ms : List Message) :
    let c := ({} : Correlator).observeAll ms
    (∃ unanswered : List (Subject × Fin ms.length),
      (∀ s i, (s, i) ∈ unanswered ↔ opener? ms s ms.length = some i) ∧
      unanswered.Pairwise (fun p q => startKey ms p < startKey ms q) ∧
      c.finish.operations = (List.finRange ms.length).filterMap (completedAt? ms) ++
        unanswered.map (fun p => leftOpen p.1 (ms.get p.2) (lastTime ms)) ∧
      c.finish.unanswered = unanswered.length) ∧
    c.finish.anomalies = (List.finRange ms.length).filterMap (anomalyAt? ms) ∧
    ∀ waiting, waiting.Perm c.waiting → ({ c with waiting } : Correlator).finish = c.finish := by
  intro c
  have hdistinct : c.Distinct := Correlator.distinct_observeAll ms
  refine ⟨?_, anomalies_observeAll ms, fun waiting hperm => ?_⟩
  · obtain ⟨unanswered, hmem, hmap⟩ := exists_map_eq_mergeSort_waiting ms
    have hid : ∀ p ∈ unanswered, (ms.get p.2).id = p.1.2 := fun p hp =>
      (opener?_eq_some_iff.mp ((hmem p.1 p.2).mp hp)).1.2.1.2
    refine ⟨unanswered, hmem, ?_, ?_, ?_⟩
    · have hsorted := hdistinct.pairwise_startKey_lt
      rw [← hmap, List.pairwise_map] at hsorted
      refine hsorted.imp_of_mem fun {p q} hp hq hlt => ?_
      unfold startKey
      rwa [← hid p hp, ← hid q hq]
    · have hleft : (unanswered.map fun p => leftOpen p.1 (ms.get p.2) (lastTime ms)) =
          (c.waiting.mergeSort OpenRequest.le).map (·.abandon c.traffic.lastTime) := by
        rw [← hmap, List.map_map, lastTime_observeAll]
        refine List.map_congr_left fun p hp => ?_
        exact (abandon_ofMessage (hid p hp) (List.get_mem ..)).symm
      rw [hleft, ← operations_observeAll]
      rfl
    · have hlength := congrArg List.length hmap
      rw [List.length_map, List.length_mergeSort] at hlength
      exact hlength.symm
  · have hsorted := hdistinct.mergeSort_eq hperm
    simp only [Correlator.finish, hsorted, hperm.length_eq]

end Correlation
end StoreAudit
