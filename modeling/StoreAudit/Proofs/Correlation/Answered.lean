import Mathlib.Data.List.Pairwise
import StoreAudit.Proofs.Consistency.Acknowledgement
import StoreAudit.Proofs.Correlation.Interleaving

/-! What the operations of a log without anomalies acknowledge: what its successful responses do, but
that a response to a write may leave the value to the request. -/
namespace StoreAudit.Correlation

/-- Every message names its key, and none is an anomaly. -/
structure Regular (ms : List Message) : Prop where
  keyed : ∀ m ∈ ms, m.key ≠ []
  noAnomaly : (({} : Correlator).observeAll ms).finish.anomalies = []

/-- The responses to successful writes repeat the value. -/
def Echoes (ms : List Message) : Prop := ∀ m ∈ ms, m.Reports .write → m.value ≠ []

instance (ms : List Message) : Decidable (Echoes ms) := inferInstanceAs (Decidable (∀ _ ∈ _, _))

variable {ms : List Message}

theorem Regular.exists_opener? (h : Regular ms) {j : Fin ms.length} {a : Action}
    (hpurpose : (ms.get j).purpose = .response a) :
    ∃ i, opener? ms (a, (ms.get j).id) j = some i := by
  have hnone : (List.finRange ms.length).filterMap (anomalyAt? ms) = [] := by
    rw [← anomalies_observeAll]
    exact h.noAnomaly
  have hj := List.filterMap_eq_nil_iff.mp hnone j (List.mem_finRange j)
  simp only [anomalyAt?, hpurpose] at hj
  refine Option.isSome_iff_exists.mp ?_
  by_contra hclosed
  rw [if_neg hclosed] at hj
  exact Option.some_ne_none _ hj

variable (ms) in
/-- The value of the operation that the response at place `j` completes. -/
def valueAt (j : Fin ms.length) : Words :=
  ((completedAt? ms j).map (·.value)).getD (ms.get j).value

variable (ms) in
/-- The acknowledgements by the places of their responses. -/
def acknowledgedAt : List (Fin ms.length × Acknowledgement) :=
  (List.finRange ms.length).filterMap fun j => (ms.get j).acknowledged?.map (j, ·)

theorem mem_acknowledgedAt {j : Fin ms.length} {a : Acknowledgement} :
    (j, a) ∈ acknowledgedAt ms ↔ (ms.get j).acknowledged? = some a := by
  simp [acknowledgedAt]

variable (ms) in
theorem filterMap_acknowledged?_eq :
    ms.filterMap Message.acknowledged? = (acknowledgedAt ms).map Prod.snd := by
  conv_lhs => rw [← List.map_get_finRange ms, List.filterMap_map]
  rw [acknowledgedAt, List.map_filterMap]
  refine List.filterMap_congr fun j _ => ?_
  rw [Option.map_map]
  exact Option.map_id'.symm

theorem valueAt_eq {i j : Fin ms.length} {a : Action} (hpurpose : (ms.get j).purpose = .response a)
    (hi : opener? ms (a, (ms.get j).id) j = some i) :
    valueAt ms j = (exchange a (ms.get i) (ms.get j)).value := by
  have hcompleted := completedAt?_eq_some_iff.mpr ⟨a, i, hpurpose, hi, rfl⟩
  rw [valueAt, hcompleted, Option.map_some, Option.getD_some]

/-- The operation has the value of its response, unless the response left it to a request that had
one. -/
theorem Regular.valueAt_eq_value_iff (h : Regular ms) {j : Fin ms.length} {a : Action}
    (hpurpose : (ms.get j).purpose = .response a) :
    valueAt ms j = (ms.get j).value ↔ (a = .write → (ms.get j).value = [] →
      ∀ i, opener? ms (a, (ms.get j).id) j = some i → (ms.get i).value = []) := by
  obtain ⟨i, hi⟩ := h.exists_opener? hpurpose
  rw [valueAt_eq hpurpose hi]
  by_cases hleft : a = .write ∧ (ms.get j).value = []
  · have hvalue : (exchange a (ms.get i) (ms.get j)).value = (ms.get i).value := if_pos hleft
    rw [hvalue, hleft.2]
    constructor
    · intro hempty _ _ k hk
      obtain rfl := Option.some_inj.mp (hi.symm.trans hk)
      exact hempty
    · exact fun hempty => hempty hleft.1 rfl i hi
  · have hvalue : (exchange a (ms.get i) (ms.get j)).value = (ms.get j).value := if_neg hleft
    exact iff_of_true hvalue fun hwrite hempty => absurd ⟨hwrite, hempty⟩ hleft

theorem acknowledged?_exchange {a : Action} {request response : Message}
    (hkey : response.key ≠ []) : (exchange a request response).acknowledged? =
      if response.ok then
        some ⟨a, response.key, (exchange a request response).value, response.version⟩
      else none := by
  unfold Operation.acknowledged? Operation.succeeded exchange
  by_cases hok : response.ok <;> simp [hok, hkey]

theorem Regular.bind_completedAt? (h : Regular ms) (j : Fin ms.length) :
    (completedAt? ms j).bind Operation.acknowledged? =
      (ms.get j).acknowledged?.map fun a => { a with value := valueAt ms j } := by
  unfold Message.acknowledged?
  cases hpurpose : (ms.get j).purpose with
  | request a =>
    have hnone : completedAt? ms j = none := by simp only [completedAt?, hpurpose]
    rw [hnone]
    rfl
  | other name =>
    have hnone : completedAt? ms j = none := by simp only [completedAt?, hpurpose]
    rw [hnone]
    rfl
  | response a =>
    obtain ⟨i, hi⟩ := h.exists_opener? hpurpose
    have hkey : (ms.get j).key ≠ [] := h.keyed _ (List.get_mem ..)
    have hcompleted := completedAt?_eq_some_iff.mpr ⟨a, i, hpurpose, hi, rfl⟩
    rw [hcompleted, valueAt_eq hpurpose hi, Option.bind_some, acknowledged?_exchange hkey]
    dsimp only
    split_ifs <;> rfl

theorem acknowledged?_abandon (r : OpenRequest) (last : Nat) :
    (r.abandon last).acknowledged? = none := rfl

/-- Without anomalies the operations acknowledge what the responses do, in the same order, but for
the values that responses left to their requests. -/
theorem Regular.filterMap_acknowledged?_finish (h : Regular ms) :
    (({} : Correlator).observeAll ms).finish.operations.filterMap Operation.acknowledged? =
      (acknowledgedAt ms).map fun p => { p.2 with value := valueAt ms p.1 } := by
  have habandoned (rs : List OpenRequest) (last : Nat) :
      (rs.map (·.abandon last)).filterMap Operation.acknowledged? = [] := by
    rw [List.filterMap_map, List.filterMap_eq_nil_iff]
    exact fun r _ => acknowledged?_abandon r last
  rw [Correlator.finish, List.filterMap_append, habandoned, List.append_nil, operations_observeAll,
    List.filterMap_filterMap, acknowledgedAt, List.map_filterMap]
  refine List.filterMap_congr fun j _ => ?_
  rw [h.bind_completedAt?, Option.map_map]
  rfl

/-- Where the responses to writes repeat the value, the operations acknowledge the same. -/
theorem Regular.filterMap_acknowledged?_finish_of_echoes (h : Regular ms) (hecho : Echoes ms) :
    (({} : Correlator).observeAll ms).finish.operations.filterMap Operation.acknowledged? =
      ms.filterMap Message.acknowledged? := by
  rw [h.filterMap_acknowledged?_finish, filterMap_acknowledged?_eq]
  refine List.map_congr_left fun p hp => ?_
  obtain ⟨hreports, ha⟩ := Message.acknowledged?_eq_some_iff.mp (mem_acknowledgedAt.mp hp)
  have hvalue : valueAt ms p.1 = (ms.get p.1).value := by
    refine (h.valueAt_eq_value_iff hreports.2).mpr fun hwrite hempty => ?_
    exact absurd hempty (hecho _ (List.get_mem ..) (hwrite ▸ hreports))
  rw [hvalue, ha]

theorem operations_finish_of_waiting_eq_nil {c : Correlator} (h : c.waiting = []) :
    c.finish.operations = c.operations := by
  rw [Correlator.finish, h, List.mergeSort_nil, List.map_nil, List.append_nil]

/-- Operations are given by their finish if the messages of the log are given by their time. -/
theorem pairwise_finish_le (h : ms.Pairwise (·.time ≤ ·.time)) :
    (({} : Correlator).observeAll ms).finish.operations.Pairwise (·.finish ≤ ·.finish) := by
  have hfinish {j : Fin ms.length} {op : Operation} (hop : completedAt? ms j = some op) :
      op.finish = (ms.get j).time := by
    obtain ⟨a, i, -, -, rfl⟩ := completedAt?_eq_some_iff.mp hop
    rfl
  -- Whoever gave up did so at the end of the log.
  have hlast {r : OpenRequest} (hr : r ∈ (({} : Correlator).observeAll ms).waiting) :
      (r.abandon (lastTime ms)).finish = lastTime ms := by
    obtain ⟨i, -, hi⟩ := (mem_waiting_observeAll ms).mp hr
    have hstart : r.start = (ms.get i).time := congrArg OpenRequest.start hi.symm
    exact max_eq_left (hstart ▸ time_le_lastTime (List.get_mem ms i))
  rw [Correlator.finish, lastTime_observeAll, operations_observeAll, List.pairwise_append]
  refine ⟨?_, ?_, ?_⟩
  · rw [List.pairwise_filterMap]
    refine (List.pairwise_lt_finRange _).imp fun {i j} hij op hop op' hop' => ?_
    rw [hfinish hop, hfinish hop']
    exact List.pairwise_iff_get.mp h i j hij
  · rw [List.pairwise_map]
    refine List.pairwise_of_forall_mem_list fun r hr r' hr' => ?_
    rw [hlast (List.mem_mergeSort.mp hr), hlast (List.mem_mergeSort.mp hr')]
  · intro op hop op' hop'
    obtain ⟨j, -, hj⟩ := List.mem_filterMap.mp hop
    obtain ⟨r, hr, rfl⟩ := List.mem_map.mp hop'
    rw [hfinish hj, hlast (List.mem_mergeSort.mp hr)]
    exact time_le_lastTime (List.get_mem ..)

end StoreAudit.Correlation
