import Mathlib.Data.Nat.Cast.Basic
import StoreAudit.Proofs.Correlation.Interleaving
import StoreAudit.Proofs.Generate.History
import StoreAudit.Proofs.Log.MessageReader
import StoreAudit.Proofs.Text.Lines

/-! The message log of a history is read back as its operations in the order in which they ended. -/
namespace StoreAudit.Generate
open StoreAudit.Consistency StoreAudit.Random

/-- A history that a message log holds whole. -/
structure Loggable (ops : List ClientOperation) : Prop where
  distinct : (ops.map (·.operation.subject)).Nodup
  ordered : ∀ op ∈ ops, op.operation.start ≤ op.operation.finish
  key : ∀ op ∈ ops, op.operation.key ≠ []
  answered : ∀ op ∈ ops, op.operation.outcome ≠ .unknown
  client : ∀ op ∈ ops, op.client + 1 < wordLimit
  fits : ∀ op ∈ ops, op.operation.Fits

/-- The events of a log in the order of their lines. -/
def sortedEvents (ops : List ClientOperation) : List (String × Message) :=
  (events ops).mergeSort fun e f => decide (e.2.time ≤ f.2.time)

/-- By the finish. -/
def byFinish (ops : List Operation) : List Operation :=
  ops.mergeSort fun op next => decide (op.finish ≤ next.finish)

section Lines
variable {ops : List ClientOperation} {d : Dialect}

theorem carries_of_mem_events (h : Loggable ops) : ∀ e ∈ events ops, d.Carries e.1 e.2 := by
  intro e he
  obtain ⟨op, hop, he⟩ := List.mem_flatMap.mp he
  have hfits := h.fits op hop
  have hzero : 0 < wordLimit := by decide
  have hsent : "sent".toList ≠ [] ∧ ∀ c ∈ "sent".toList, c.isAlpha :=
    ⟨by decide, List.all_eq_true.mp rfl⟩
  have hreceived : "received".toList ≠ [] ∧ ∀ c ∈ "received".toList, c.isAlpha :=
    ⟨by decide, List.all_eq_true.mp rfl⟩
  simp only [List.mem_cons, List.not_mem_nil, or_false] at he
  rcases he with rfl | rfl
  · refine ⟨hsent.1, hsent.2, ?_, h.key op hop, trivial⟩
    refine ⟨hfits.start, hfits.id, h.client op hop, hzero, hfits.key, ?_, nofun⟩
    simp only [ClientOperation.messages]
    split
    · exact hfits.value
    · exact fun _ hn => nomatch hn
  · refine ⟨hreceived.1, hreceived.2, ?_, h.key op hop, trivial⟩
    exact ⟨hfits.finish, hfits.id, hzero, h.client op hop, hfits.key, hfits.value, hfits.version⟩

theorem length_sortedEvents (ops : List ClientOperation) :
    (sortedEvents ops).length = 2 * ops.length := by
  simp [sortedEvents, events, List.length_flatMap, Nat.mul_comm]

theorem lines_messageLog (hd : d ∈ [Dialect.numeric, .named]) (h : Loggable ops) :
    Text.lines (messageLog d ops).toUTF8 =
      ((sortedEvents ops).map fun e => d.render e.1 e.2).map some := by
  have hlines : ∀ l ∈ (sortedEvents ops).map fun e => d.render e.1 e.2,
      '\n' ∉ l.toList ∧ '\r' ∉ l.toList := by
    intro l hl
    obtain ⟨e, he, rfl⟩ := List.mem_map.mp hl
    exact MessageReader.notMem_render hd (carries_of_mem_events h e (List.mem_mergeSort.mp he))
  rw [← Text.lines_join hlines, List.map_map]
  rfl

theorem readAll_messageLog (hd : d ∈ [Dialect.numeric, .named]) (h : Loggable ops) :
    ({} : MessageReader).readAll ((sortedEvents ops).map fun e => d.render e.1 e.2) =
      ((sortedEvents ops).map fun e => .ok (.message e.2),
        { dialect? := if ops = [] then none else some d, line := (sortedEvents ops).length }) := by
  have hcarries : ∀ e ∈ sortedEvents ops, d.Carries e.1 e.2 := fun e he =>
    carries_of_mem_events h e (List.mem_mergeSort.mp he)
  have hempty : sortedEvents ops = [] ↔ ops = [] := by
    rw [← List.length_eq_zero_iff, length_sortedEvents, ← List.length_eq_zero_iff]
    omega
  rw [MessageReader.readAll_render hd hcarries _ (.inl rfl)]
  simp only [hempty, Nat.zero_add]

end Lines

section Correlation
variable {ops : List ClientOperation}

theorem answer_messages {op : ClientOperation} (hkey : op.operation.key ≠ [])
    (hanswered : op.operation.outcome ≠ .unknown) :
    (OpenRequest.ofMessage op.operation.action op.messages.1).answer op.messages.2 =
      op.operation := by
  have hid : op.messages.1.id = op.messages.2.id := rfl
  obtain ⟨client, op⟩ := op
  have hvalue : (if op.action = .write ∧ op.value = [] then if op.isWrite then op.value else []
      else op.value) = op.value := by
    split_ifs with h
    · rfl
    · exact h.2.symm
    · rfl
  have houtcome : (if op.succeeded then .success else .failure) = op.outcome := by
    unfold Operation.succeeded
    cases h : op.outcome with
    | success => rfl
    | failure => rfl
    | unknown => exact absurd h hanswered
  rw [Correlation.answer_ofMessage hid, Correlation.exchange]
  simp only [ClientOperation.messages, if_neg hkey, hvalue, houtcome]

/-- The request and the response of one operation make it up again. -/
theorem observeAll_messages {op : ClientOperation} (hkey : op.operation.key ≠ [])
    (hanswered : op.operation.outcome ≠ .unknown) :
    let c := ({} : Correlator).observeAll [op.messages.1, op.messages.2]
    c.waiting = [] ∧ c.operations = [op.operation] ∧ c.anomalies = [] := by
  have hrequest : op.messages.1.purpose = .request op.operation.action := rfl
  have hresponse : op.messages.2.purpose = .response op.operation.action := rfl
  have hself : (OpenRequest.ofMessage op.operation.action op.messages.1).IsFor
      op.operation.action op.messages.2.id := ⟨rfl, rfl⟩
  simp [Correlator.observeAll, Correlator.observe, Correlator.request, Correlator.response,
    hrequest, hresponse, hself, answer_messages hkey hanswered]

theorem filter_subject_eq (h : Loggable ops) {op : ClientOperation} (hop : op ∈ ops) :
    ops.filter (·.operation.subject == op.operation.subject) = [op] :=
  filter_label_eq_singleton (·.operation.subject) h.distinct hop

theorem filter_events (ops : List ClientOperation) (s : Subject) :
    (events ops).filter (·.2.subject? == some s) =
      events (ops.filter (·.operation.subject == s)) := by
  induction ops with
  | nil => rfl
  | cons op ops ih =>
    have hrequest : op.messages.1.subject? = some op.operation.subject := rfl
    have hresponse : op.messages.2.subject? = some op.operation.subject := rfl
    unfold events at ih ⊢
    rw [List.flatMap_cons, List.filter_append, ih]
    by_cases hs : op.operation.subject = s <;> simp [hs, hrequest, hresponse]

theorem filter_sortedEvents (p : String × Message → Bool) (ops : List ClientOperation) :
    (sortedEvents ops).filter p =
      ((events ops).filter p).mergeSort fun e f => decide (e.2.time ≤ f.2.time) :=
  filter_mergeSort _ p (fun _ _ _ => decide_le_trans _ _ _) fun _ _ => decide_le_total _ _

theorem sortedEvents_singleton {op : ClientOperation}
    (hop : op.operation.start ≤ op.operation.finish) :
    sortedEvents [op] = [("sent", op.messages.1), ("received", op.messages.2)] :=
  List.mergeSort_of_pairwise (List.pairwise_pair.mpr (decide_eq_true hop))

/-- A log has one request and one response to it about each operation, and nothing else. -/
theorem filter_messages (h : Loggable ops) {op : ClientOperation} (hop : op ∈ ops) :
    ((sortedEvents ops).map (·.2)).filter (·.subject? == some op.operation.subject) =
      [op.messages.1, op.messages.2] := by
  have hsorted := filter_sortedEvents (·.2.subject? == some op.operation.subject) ops
  rw [filter_events, filter_subject_eq h hop] at hsorted
  have hone := sortedEvents_singleton (h.ordered op hop)
  unfold sortedEvents at hone
  rw [hone] at hsorted
  rw [List.filter_map]
  exact congrArg (List.map (·.2)) hsorted

theorem filter_messages_of_notMem {s : Subject} (hs : ∀ op ∈ ops, op.operation.subject ≠ s) :
    ((sortedEvents ops).map (·.2)).filter (·.subject? == some s) = [] := by
  have hsorted := filter_sortedEvents (·.2.subject? == some s) ops
  have hnone : ops.filter (·.operation.subject == s) = [] :=
    List.filter_eq_nil_iff.mpr fun op hop h => hs op hop (beq_iff_eq.mp h)
  rw [filter_events, hnone, events, List.flatMap_nil, List.mergeSort_nil] at hsorted
  rw [List.filter_map]
  exact congrArg (List.map (·.2)) hsorted

theorem unexpected?_eq_none {m : Message} (hm : m ∈ (sortedEvents ops).map (·.2)) :
    m.unexpected? = none := by
  obtain ⟨e, he, rfl⟩ := List.mem_map.mp hm
  obtain ⟨op, -, he⟩ := List.mem_flatMap.mp (List.mem_mergeSort.mp he)
  simp only [List.mem_cons, List.not_mem_nil, or_false] at he
  rcases he with rfl | rfl <;> rfl

theorem correlate_messages (h : Loggable ops) :
    let c := ({} : Correlator).observeAll ((sortedEvents ops).map (·.2))
    c.waiting = [] ∧ c.anomalies = [] ∧ ∀ op ∈ c.operations, op ∈ ops.map (·.operation) := by
  intro c
  have hpart (s : Subject) : c.waiting.filter (·.subject == s) = [] ∧
      c.anomalies.filter (·.subject? == some s) = [] ∧
      ∀ op ∈ c.operations.filter (·.subject == s), op ∈ ops.map (·.operation) := by
    obtain ⟨hw, ho, ha⟩ := Correlator.part_observeAll s ((sortedEvents ops).map (·.2))
    rw [← hw, ← ho, ← ha]
    by_cases hs : ∃ op ∈ ops, op.operation.subject = s
    · obtain ⟨op, hop, rfl⟩ := hs
      rw [filter_messages h hop]
      obtain ⟨hw, ho, ha⟩ := observeAll_messages (h.key op hop) (h.answered op hop)
      rw [hw, ho, ha]
      refine ⟨rfl, rfl, fun x hx => ?_⟩
      rw [List.mem_singleton.mp hx]
      exact List.mem_map_of_mem hop
    · push Not at hs
      rw [filter_messages_of_notMem hs]
      exact ⟨rfl, rfl, fun x hx => absurd hx List.not_mem_nil⟩
  refine ⟨?_, ?_, ?_⟩
  · have hperm : c.waiting.Perm [] :=
      perm_of_filter_perm OpenRequest.subject fun s => .of_eq (hpart s).1
    exact hperm.eq_nil
  · have hperm : c.anomalies.Perm [] := by
      refine perm_of_filter_perm Anomaly.subject? fun k => .of_eq ?_
      cases k with
      | some s => exact (hpart s).2.1
      | none =>
        rw [Correlator.filter_anomalies_observeAll, List.filter_nil, List.filterMap_eq_nil_iff]
        exact fun m hm => unexpected?_eq_none hm
    exact hperm.eq_nil
  · intro op hop
    exact (hpart op.subject).2.2 op (List.mem_filter.mpr ⟨hop, beq_iff_eq.mpr rfl⟩)

theorem filter_response (ops : List ClientOperation) :
    (events ops).filter (fun e => e.2.answered?.isSome) =
      ops.map fun op => ("received", op.messages.2) := by
  induction ops with
  | nil => rfl
  | cons op ops ih =>
    unfold events at ih ⊢
    rw [List.flatMap_cons, List.filter_append, ih]
    rfl

/-- The responses come in the order in which the operations ended. -/
theorem filterMap_answered (ops : List ClientOperation) :
    ((sortedEvents ops).map (·.2)).filterMap Message.answered? =
      (byFinish (ops.map (·.operation))).map (·.subject) := by
  let le (op next : ClientOperation) : Bool := decide (op.operation.finish ≤ next.operation.finish)
  have hresponses : ((ops.mergeSort le).map fun op => ("received", op.messages.2)) =
      (sortedEvents ops).filter fun e => e.2.answered?.isSome := by
    rw [filter_sortedEvents, filter_response]
    exact List.map_mergeSort fun _ _ _ _ => rfl
  have hops : (ops.mergeSort le).map (·.operation) = byFinish (ops.map (·.operation)) :=
    List.map_mergeSort fun _ _ _ _ => rfl
  have hanswered : (sortedEvents ops).filterMap (fun e => e.2.answered?) =
      ((sortedEvents ops).filter fun e => e.2.answered?.isSome).filterMap
        fun e => e.2.answered? := by
    rw [List.filterMap_filter]
    refine List.filterMap_congr fun e _ => ?_
    cases e.2.answered? <;> rfl
  rw [List.filterMap_map, ← hops, List.map_map]
  refine hanswered.trans ?_
  rw [← hresponses, List.filterMap_map]
  exact congrFun List.filterMap_eq_map _

theorem eq_of_map_eq {α β : Type} {f : α → β} {l l' : List α} (h : l.map f = l'.map f)
    (hinj : ∀ a ∈ l, ∀ b ∈ l', f a = f b → a = b) : l = l' := by
  have hlength : l.length = l'.length := by
    simpa using congrArg List.length h
  refine List.ext_getElem hlength fun i hi hi' => ?_
  refine hinj _ (List.getElem_mem hi) _ (List.getElem_mem hi') ?_
  have hget := List.getElem_of_eq h (by rwa [List.length_map])
  rwa [List.getElem_map, List.getElem_map] at hget

theorem finish_messages (h : Loggable ops) :
    let c := (({} : Correlator).observeAll ((sortedEvents ops).map (·.2))).finish
    c.operations = byFinish (ops.map (·.operation)) ∧ c.anomalies = [] ∧ c.unanswered = 0 := by
  intro c
  obtain ⟨hw, ha, ho⟩ := correlate_messages h
  have hmap := Correlator.map_subject_operations ha
  rw [filterMap_answered] at hmap
  have hops := eq_of_map_eq hmap fun op hop op' hop' hs => by
    obtain ⟨x, hx, rfl⟩ := List.mem_map.mp (ho op hop)
    obtain ⟨x', hx', rfl⟩ := List.mem_map.mp (List.mem_mergeSort.mp hop')
    rw [List.inj_on_of_nodup_map h.distinct hx hx' hs]
  refine ⟨?_, ha, congrArg List.length hw⟩
  unfold c
  rw [Correlator.finish, hw, List.mergeSort_nil, List.map_nil, List.append_nil, hops]

end Correlation

section Generated
variable {σ : Type} {d : Draws σ} {p : Params} {s : σ}

theorem executed_client (hd : d.InRange) (p : Params) (s : σ) :
    ∀ e ∈ executed d p s, e.client = 0 ∨ e.client < p.clients := by
  intro e he
  by_cases hkeys : p.keys = 0
  · rw [executed, if_pos hkeys] at he
    exact absurd he List.not_mem_nil
  · rw [executed, if_neg hkeys] at he
    obtain ⟨f, hf, i, rfl⟩ := exists_eq_withId he
    obtain ⟨final, hrun⟩ := exists_run hd (Nat.pos_of_ne_zero hkeys) s
    obtain ⟨q, hq, c, -, hexecute⟩ := hrun.exists_commit hf
    have hclient : f.client = q.client := by rw [hexecute]; rfl
    rw [Executed.withId, hclient]
    exact schedule_client d p s q hq

theorem loggable_operations (hd : d.InRange) (hclients : p.clients < wordLimit)
    (hfits : ∀ op ∈ operations d p s, op.operation.Fits) : Loggable (operations d p s) := by
  obtain ⟨registers, hbacked⟩ := exists_backed hd p s
  constructor
  case distinct =>
    have hnodup : (((operations d p s).map (·.operation)).map (·.id)).Nodup := by
      rw [map_id_operations]
      exact List.nodup_range
    have hmap : ((operations d p s).map (·.operation)).map (·.id) =
        ((operations d p s).map (·.operation.subject)).map (·.2) := by
      rw [List.map_map, List.map_map]
      rfl
    rw [hmap] at hnodup
    exact hnodup.of_map
  case ordered =>
    intro op hop
    obtain ⟨e, he, rfl⟩ := List.mem_map.mp hop
    exact hbacked.ordered e he
  case key =>
    intro op hop
    obtain ⟨e, he, rfl⟩ := List.mem_map.mp hop
    obtain ⟨-, key, hkey, -⟩ := hbacked.observed e he
    intro hnil
    cases hkey.symm.trans hnil
  case answered =>
    intro op hop
    obtain ⟨e, he, rfl⟩ := List.mem_map.mp hop
    obtain ⟨hsucceeded, -⟩ := hbacked.observed e he
    have hsuccess : e.operation.outcome = .success := beq_iff_eq.mp hsucceeded
    intro hunknown
    cases hsuccess.symm.trans hunknown
  case client =>
    intro op hop
    obtain ⟨e, he, rfl⟩ := List.mem_map.mp hop
    have hlimit : 1 < wordLimit := by decide
    rcases executed_client hd p s e he with h | h <;> dsimp only <;> omega
  case fits => exact hfits

theorem byFinish_operations (d : Draws σ) (p : Params) (s : σ) :
    byFinish ((operations d p s).map (·.operation)) = (operations d p s).map (·.operation) := by
  refine List.mergeSort_of_pairwise (List.pairwise_map.mpr ?_)
  exact (pairwise_finish_operations d p s).imp fun hle => decide_eq_true hle

end Generated

/-- A reader that knows no dialect takes every line of the log for a message and keeps to the
dialect from the first on, and the messages make up these operations, without anomalies and with
every request answered. -/
def ReadsBack (d : Dialect) (ops : List ClientOperation) (result : List Operation) : Prop :=
  ∃ (lines : List String) (ms : List Message),
    Text.lines (messageLog d ops).toUTF8 = lines.map some ∧
    ({} : MessageReader).readAll lines = (ms.map fun m => .ok (.message m),
      { dialect? := if ops = [] then none else some d, line := lines.length }) ∧
    let c := (({} : Correlator).observeAll ms).finish
    c.operations = result ∧ c.anomalies = [] ∧ c.unanswered = 0

/-- The message log of a history is read back as its operations by their finish, and that of a
generated history as its operations in their order. -/
theorem readsBack_messageLog {d : Dialect} (hd : d ∈ [Dialect.numeric, .named]) :
    (∀ ops, Loggable ops → ReadsBack d ops (byFinish (ops.map (·.operation)))) ∧
      ∀ {σ : Type} (draws : Draws σ) (p : Params) (s : σ), draws.InRange → p.clients < wordLimit →
        (∀ op ∈ operations draws p s, op.operation.Fits) →
        ReadsBack d (operations draws p s) ((operations draws p s).map (·.operation)) := by
  have hlog (ops : List ClientOperation) (h : Loggable ops) :
      ReadsBack d ops (byFinish (ops.map (·.operation))) := by
    refine ⟨_, _, lines_messageLog hd h, ?_, finish_messages h⟩
    rw [readAll_messageLog hd h, List.map_map, List.length_map]
    rfl
  refine ⟨hlog, fun draws p s hdraws hclients hfits => ?_⟩
  have hgenerated := hlog _ (loggable_operations hdraws hclients hfits)
  rwa [byFinish_operations] at hgenerated

/-- A write that takes no time, within a read that has its id and fails. -/
def nested : List ClientOperation :=
  [⟨4, ⟨0, .read, [1, 2], [], 3, 9, none, .failure⟩⟩,
    ⟨0, ⟨0, .write, [1, 2], [7], 5, 5, some 1, .success⟩⟩]

theorem fits_seeded_contested : ∀ op ∈ seeded contested 19, op.operation.Fits := by
  have hmap : seeded contested 19 = (executed Stream.draws contested (Stream.ofSeed 19)).map
      fun e => ⟨e.client, e.operation⟩ := rfl
  simp only [hmap, executed_contested, List.map_cons, List.forall_mem_cons]
  refine ⟨?_, ?_, ?_, ?_, ?_, nofun⟩
  all_goals constructor <;> simp [Words.Fits, wordLimit]

theorem readsBack_nested : ReadsBack .named nested (byFinish (nested.map (·.operation))) ∧
    ReadsBack .named (seeded contested 19) ((seeded contested 19).map (·.operation)) := by
  have hlog : Loggable nested := by
    refine ⟨by decide, by decide, by decide, by decide, by decide, ?_⟩
    simp only [nested, List.forall_mem_cons]
    refine ⟨?_, ?_, nofun⟩
    all_goals constructor <;> simp [Words.Fits, wordLimit]
  have hreads := readsBack_messageLog (d := .named) (by decide)
  exact ⟨hreads.1 nested hlog,
    hreads.2 _ _ _ Stream.draws_inRange (by decide) fits_seeded_contested⟩

end StoreAudit.Generate
