import Mathlib.Data.List.Induction
import StoreAudit.Proofs.Stats.Latency
import StoreAudit.Stats.Workload

/-! The counters of a workload after any operations: what they count, that they agree with each
other and with the report, and that the order of the operations does not show there. -/
namespace StoreAudit.Workload

section Actions
variable (w : Workload)

def total : Action → Nat
  | .read => w.reads
  | .write => w.writes

def successful : Action → Nat
  | .read => w.successfulReads
  | .write => w.successfulWrites

def meanMs : Action → Nat
  | .read => w.meanReadMs
  | .write => w.meanWriteMs

def latencies : Action → List Nat
  | .read => w.readLatencies
  | .write => w.writeLatencies

def latency? : Action → Option LatencySummary
  | .read => w.readLatency?
  | .write => w.writeLatency?

/-- The percentage of the operations that were successful. -/
def percentage (a : Action) : Nat :=
  ratioOrZero (lowWord (100 * w.successful a)) (w.total a)

end Actions

section Step
variable (w : Workload) (op : Operation) (a : Action)

theorem meanMs_eq : w.meanMs a = w.time a / lowWord (1000 * w.total a) := by cases a <;> rfl

theorem latency?_eq : w.latency? a = LatencySummary.ofLatencies? (w.latencies a) := by
  cases a <;> rfl

theorem latencyIn?_eq (b : Build) :
    w.latencyIn? b a = if b.Stops (w.latencies a).sum then none else some (w.latency? a) := by
  rw [latency?_eq, ← LatencySummary.ofLatenciesIn?_eq]
  cases a <;> rfl

theorem render_eq : w.render = String.join (
    ["Total time taken (milliseconds): " ++ toString (w.totalTime / 1000),
      toString (w.total .read) ++ " reads and " ++ toString (w.total .write) ++
        " writes processed",
      "Average read response time (ms): " ++ toString (w.meanMs .read),
      "Average write response time (ms): " ++ toString (w.meanMs .write),
      toString (w.successful .read) ++ " (" ++ toString (w.percentage .read) ++ "%)" ++
        " reads were successful",
      toString (w.successful .write) ++ " (" ++ toString (w.percentage .write) ++ "%)" ++
        " writes were successful",
      toString w.unknownWrites ++ " writes have unknown response"].map (· ++ "\n")) := rfl

theorem observe_eq : w.observe op =
    { reads := w.reads + one op.isRead
      writes := w.writes + one op.isWrite
      successfulReads := w.successfulReads + one (op.isRead && op.succeeded)
      successfulWrites := w.successfulWrites + one (op.isWrite && op.succeeded)
      failedWrites := w.failedWrites + one (op.isWrite && op.outcome == .failure)
      totalTime := max w.totalTime op.finish
      readTime := if op.isRead then lowWord (w.readTime + op.latency) else w.readTime
      writeTime := if op.isWrite then lowWord (w.writeTime + op.latency) else w.writeTime
      readLatencies := w.readLatencies ++ if op.isRead then [op.latency] else []
      writeLatencies := w.writeLatencies ++ if op.isWrite then [op.latency] else [] } := by
  unfold observe extend count time Operation.isRead Operation.isWrite Operation.succeeded
  cases op.action <;> simp [one]

theorem total_observe : (w.observe op).total a = w.total a + one (op.action == a) := by
  rw [observe_eq]
  cases a <;> rfl

theorem successful_observe :
    (w.observe op).successful a = w.successful a + one (op.action == a && op.succeeded) := by
  rw [observe_eq]
  cases a <;> rfl

theorem time_observe : (w.observe op).time a =
    if op.action == a then lowWord (w.time a + op.latency) else w.time a := by
  rw [observe_eq]
  cases a <;> rfl

theorem latencies_observe :
    (w.observe op).latencies a = w.latencies a ++ if op.action == a then [op.latency] else [] := by
  rw [observe_eq]
  cases a <;> rfl

theorem totalTime_observe : (w.observe op).totalTime = max w.totalTime op.finish := rfl

end Step

/-- The sum of the response times to the action. -/
def timeOf (ops : List Operation) (a : Action) : Nat :=
  ((ops.filter (·.action == a)).map (·.latency)).sum

theorem timeOf_concat (ops : List Operation) (op : Operation) (a : Action) :
    timeOf (ops ++ [op]) a = timeOf ops a + if op.action == a then op.latency else 0 := by
  rw [timeOf, List.filter_append, List.map_append, List.sum_append, ← timeOf]
  by_cases ha : op.action == a <;> simp [ha]

theorem timeOf_perm {ops ops' : List Operation} (h : ops.Perm ops') (a : Action) :
    timeOf ops a = timeOf ops' a :=
  ((h.filter _).map _).sum_nat

variable {w w' : Workload} {ops ops' : List Operation}

/-- What each counter counts. The latest finish of no operations is zero. -/
structure Tallies (w : Workload) (ops : List Operation) : Prop where
  total : ∀ a, w.total a = ops.countP fun op => op.action == a
  successful : ∀ a, w.successful a = ops.countP fun op => op.action == a && op.succeeded
  failed : w.failedWrites = ops.countP fun op => op.isWrite && op.outcome == .failure
  latencies : ∀ a, w.latencies a = (ops.filter (·.action == a)).map (·.latency)
  time : ∀ a, w.time a = lowWord (timeOf ops a)
  finish_le : ∀ op ∈ ops, op.finish ≤ w.totalTime
  finish_eq : (∃ op ∈ ops, op.finish = w.totalTime) ∨ ops = [] ∧ w.totalTime = 0

theorem tallies_empty : Tallies {} [] where
  total a := by cases a <;> rfl
  successful a := by cases a <;> rfl
  failed := rfl
  latencies a := by cases a <;> rfl
  time a := by cases a <;> rfl
  finish_le := List.forall_mem_nil _
  finish_eq := .inr ⟨rfl, rfl⟩

theorem countP_concat (ops : List Operation) (op : Operation) (p : Operation → Bool) :
    (ops ++ [op]).countP p = ops.countP p + one (p op) := by
  rw [List.countP_append, List.countP_singleton, one]

theorem Tallies.observe (h : w.Tallies ops) (op : Operation) :
    (w.observe op).Tallies (ops ++ [op]) where
  total a := by rw [total_observe, h.total, countP_concat]
  successful a := by rw [successful_observe, h.successful, countP_concat]
  failed := by rw [countP_concat, ← h.failed, observe_eq]
  latencies a := by
    rw [latencies_observe, h.latencies, List.filter_append, List.map_append]
    by_cases ha : op.action == a <;> simp [ha]
  time a := by
    rw [time_observe, h.time, timeOf_concat]
    by_cases ha : op.action == a <;> simp [ha]
  finish_le := by
    rw [totalTime_observe, List.forall_mem_append, List.forall_mem_singleton]
    exact ⟨fun o ho => (h.finish_le o ho).trans (Nat.le_max_left ..), Nat.le_max_right ..⟩
  finish_eq := by
    left
    rw [totalTime_observe]
    rcases h.finish_eq with ⟨last, hlast, hfinish⟩ | ⟨rfl, hzero⟩
    · rcases le_total op.finish w.totalTime with hle | hle
      · exact ⟨last, by simp [hlast], by rw [Nat.max_eq_left hle, hfinish]⟩
      · exact ⟨op, by simp, by rw [Nat.max_eq_right hle]⟩
    · exact ⟨op, by simp, by rw [hzero, Nat.zero_max]⟩

theorem ofOperations_concat (ops : List Operation) (op : Operation) :
    ofOperations (ops ++ [op]) = (ofOperations ops).observe op := List.foldl_append

theorem tallies_ofOperations (ops : List Operation) : (ofOperations ops).Tallies ops := by
  induction ops using List.reverseRecOn with
  | nil => exact tallies_empty
  | append_singleton ops op ih =>
    rw [ofOperations_concat]
    exact ih.observe op

section Builds
variable {b : Build} {op : Operation}

theorem ofOperationsIn?_concat (b : Build) (ops : List Operation) (op : Operation) :
    ofOperationsIn? b (ops ++ [op]) = (ofOperationsIn? b ops).bind fun w => w.observeIn? b op := by
  rw [ofOperationsIn?, List.foldlM_append]
  simp [ofOperationsIn?]

/-- A build that has not stopped so far stops at the whole sum or goes on like any other. -/
theorem observeIn?_ofOperations (h : ¬ b.Stops (timeOf ops op.action)) :
    (ofOperations ops).observeIn? b op = if b.Stops (timeOf (ops ++ [op]) op.action) then none
      else some (ofOperations (ops ++ [op])) := by
  have htime := (tallies_ofOperations ops).time op.action
  have hsum : timeOf (ops ++ [op]) op.action = timeOf ops op.action + op.latency := by
    rw [timeOf_concat, if_pos (beq_self_eq_true _)]
  rw [observeIn?, ofOperations_concat, observe, htime, Build.word?_lowWord_add h, Build.word?, hsum,
    lowWord_lowWord_add]
  split_ifs <;> rfl

/-- A build stops on the way exactly if it stops at the sum of the response times to an action. -/
theorem ofOperationsIn?_cases (b : Build) (ops : List Operation) :
    (∃ a, b.Stops (timeOf ops a)) ∧ ofOperationsIn? b ops = none ∨
      (∀ a, ¬ b.Stops (timeOf ops a)) ∧ ofOperationsIn? b ops = some (ofOperations ops) := by
  induction ops using List.reverseRecOn with
  | nil => exact .inr ⟨fun _ => Build.not_stops_of_lt (by decide : 0 < wordLimit), rfl⟩
  | append_singleton ops op ih =>
    rw [ofOperationsIn?_concat]
    rcases ih with ⟨⟨a, hstops⟩, hnone⟩ | ⟨hgoes, hsome⟩
    · have hwhole : b.Stops (timeOf (ops ++ [op]) a) :=
        hstops.mono (by rw [timeOf_concat]; exact Nat.le_add_right ..)
      exact .inl ⟨⟨a, hwhole⟩, by rw [hnone, Option.bind_none]⟩
    · rw [hsome, Option.bind_some, observeIn?_ofOperations (hgoes _)]
      by_cases hstops : b.Stops (timeOf (ops ++ [op]) op.action)
      · exact .inl ⟨⟨_, hstops⟩, if_pos hstops⟩
      · refine .inr ⟨fun a => ?_, if_neg hstops⟩
        rcases eq_or_ne op.action a with rfl | ha
        · exact hstops
        · rw [timeOf_concat, if_neg (by simpa using ha), Nat.add_zero]
          exact hgoes a

theorem ofOperationsIn?_eq_none_iff :
    ofOperationsIn? b ops = none ↔ ∃ a, b.Stops (timeOf ops a) := by
  rcases ofOperationsIn?_cases b ops with ⟨hstops, hnone⟩ | ⟨hgoes, hsome⟩
  · exact iff_of_true hnone hstops
  · simp [hsome, hgoes]

example :
    let slow : Operation := ⟨0, .write, [1], [1], 0, 18446744073709551615, some 1, .success⟩
    let quick : Operation := ⟨1, .write, [1], [2], 0, 1, some 2, .success⟩
    ofOperationsIn? .checked [slow, quick] = none ∧ (ofOperations [slow, quick]).writeTime = 0 := by
  decide

theorem ofOperationsIn?_eq_some (h : ∀ a, ¬ b.Stops (timeOf ops a)) :
    ofOperationsIn? b ops = some (ofOperations ops) := by
  rcases ofOperationsIn?_cases b ops with ⟨⟨a, hstops⟩, -⟩ | ⟨-, hsome⟩
  · exact absurd hstops (h a)
  · exact hsome

end Builds

/-- A write succeeds, fails or is one of which nobody knows. -/
theorem countP_write (ops : List Operation) :
    ops.countP (·.action == .write) = ops.countP (fun op => op.action == .write && op.succeeded) +
      ops.countP (fun op => op.isWrite && op.outcome == .failure) +
      ops.countP (fun op => op.isWrite && op.outcome == .unknown) := by
  induction ops with
  | nil => rfl
  | cons op ops ih =>
    simp only [List.countP_cons, ih, Operation.isWrite, Operation.succeeded]
    cases op.action <;> cases op.outcome <;> simp <;> omega

/-- Words hold the sums of the response times and a thousand times the counts. -/
structure Representable (ops : List Operation) : Prop where
  time_lt : ∀ a, timeOf ops a < wordLimit
  count_lt : ∀ a, 1000 * ops.countP (fun op => op.action == a) < wordLimit

/-- The outcomes that are counted are no more than the operations, so that the writes that are left
are those of which nobody knows. The means and the percentages are rounded down, and those of no
operations are zero. The report prints these numbers. -/
structure Consistent (w : Workload) (ops : List Operation) : Prop extends w.Tallies ops where
  known_le : w.successfulWrites + w.failedWrites ≤ w.writes
  unknown : w.unknownWrites = ops.countP fun op => op.isWrite && op.outcome == .unknown
  successful_le : ∀ a, w.successful a ≤ w.total a
  time_eq : ∀ a, w.time a = timeOf ops a
  mean_eq_zero : ∀ a, w.total a = 0 → w.meanMs a = 0
  mean_le : ∀ a, 0 < w.total a → w.meanMs a * 1000 * w.total a ≤ w.time a
  lt_mean : ∀ a, 0 < w.total a → w.time a < (w.meanMs a + 1) * 1000 * w.total a
  percentage_eq : ∀ a, w.percentage a = 100 * w.successful a / w.total a
  percentage_le : ∀ a, w.percentage a ≤ 100
  report : w.render = String.join (
    ["Total time taken (milliseconds): " ++ toString (w.totalTime / 1000),
      toString (w.total .read) ++ " reads and " ++ toString (w.total .write) ++
        " writes processed",
      "Average read response time (ms): " ++ toString (w.meanMs .read),
      "Average write response time (ms): " ++ toString (w.meanMs .write),
      toString (w.successful .read) ++ " (" ++ toString (w.percentage .read) ++ "%)" ++
        " reads were successful",
      toString (w.successful .write) ++ " (" ++ toString (w.percentage .write) ++ "%)" ++
        " writes were successful",
      toString w.unknownWrites ++ " writes have unknown response"].map (· ++ "\n"))

theorem Tallies.successful_le (h : w.Tallies ops) (a : Action) : w.successful a ≤ w.total a := by
  rw [h.successful, h.total]
  refine List.countP_mono_left fun op _ hop => ?_
  exact (Bool.and_eq_true_iff.mp hop).1

theorem Tallies.consistent (h : w.Tallies ops) (hops : Representable ops) : w.Consistent ops := by
  have hwrites : w.writes = w.successfulWrites + w.failedWrites +
      ops.countP fun op => op.isWrite && op.outcome == .unknown := by
    have hcount := countP_write ops
    rw [← h.total .write, ← h.successful .write, ← h.failed] at hcount
    exact hcount
  have hthousand (a : Action) : lowWord (1000 * w.total a) = 1000 * w.total a := by
    rw [h.total]
    exact lowWord_of_lt (hops.count_lt a)
  have hpercentage (a : Action) : w.percentage a = 100 * w.successful a / w.total a := by
    have hle := h.successful_le a
    have hcount := hops.count_lt a
    rw [← h.total] at hcount
    rw [percentage, ratioOrZero, lowWord_of_lt (by omega)]
  constructor
  case toTallies => exact h
  case known_le => omega
  case unknown =>
    rw [unknownWrites]
    omega
  case successful_le => exact h.successful_le
  case time_eq =>
    intro a
    rw [h.time, lowWord_of_lt (hops.time_lt a)]
  case mean_eq_zero =>
    intro a ha
    rw [meanMs_eq, ha, Nat.mul_zero, lowWord_zero, Nat.div_zero]
  case mean_le =>
    intro a _
    rw [meanMs_eq, hthousand, Nat.mul_assoc]
    exact Nat.div_mul_le_self ..
  case lt_mean =>
    intro a ha
    have hlt := Nat.lt_mul_div_succ (w.time a) (Nat.mul_pos (by decide : 0 < 1000) ha)
    rwa [meanMs_eq, hthousand, Nat.mul_assoc, Nat.mul_comm]
  case percentage_eq => exact hpercentage
  case percentage_le =>
    intro a
    have hle := h.successful_le a
    rw [hpercentage]
    exact Nat.div_le_of_le_mul (by omega)
  case report => exact w.render_eq

section Order
variable (h : w.Tallies ops) (h' : w'.Tallies ops')
include h h'

theorem Tallies.totalTime_le (hsub : ops ⊆ ops') : w.totalTime ≤ w'.totalTime := by
  rcases h.finish_eq with ⟨op, hop, hfinish⟩ | ⟨-, hzero⟩
  · rw [← hfinish]
    exact h'.finish_le op (hsub hop)
  · rw [hzero]
    exact Nat.zero_le _

theorem Tallies.latencies_perm (hperm : ops.Perm ops') (a : Action) :
    (w.latencies a).Perm (w'.latencies a) := by
  rw [h.latencies, h'.latencies]
  exact (hperm.filter _).map _

theorem Tallies.latency?_eq_of_perm (hperm : ops.Perm ops') (a : Action) :
    w.latency? a = w'.latency? a := by
  rw [latency?_eq, latency?_eq, LatencySummary.ofLatencies?_perm (h.latencies_perm h' hperm a)]

theorem Tallies.render_eq_of_perm (hperm : ops.Perm ops') : w.render = w'.render := by
  have htotal (a : Action) : w.total a = w'.total a := by
    rw [h.total, h'.total, hperm.countP_eq]
  have hsuccessful (a : Action) : w.successful a = w'.successful a := by
    rw [h.successful, h'.successful, hperm.countP_eq]
  have htime (a : Action) : w.time a = w'.time a := by
    rw [h.time, h'.time, timeOf_perm hperm]
  have hmean (a : Action) : w.meanMs a = w'.meanMs a := by
    rw [meanMs_eq, meanMs_eq, htime, htotal]
  have hpercentage (a : Action) : w.percentage a = w'.percentage a := by
    rw [percentage, hsuccessful, htotal, ← percentage]
  have hunknown : w.unknownWrites = w'.unknownWrites := by
    have hfailed : w.failedWrites = w'.failedWrites := by
      rw [h.failed, h'.failed, hperm.countP_eq]
    unfold unknownWrites
    rw [hfailed]
    exact congrArg (· - w'.failedWrites) (congrArg₂ (· - ·) (htotal .write) (hsuccessful .write))
  have hfinish : w.totalTime = w'.totalTime :=
    Nat.le_antisymm (h.totalTime_le h' hperm.subset) (h'.totalTime_le h hperm.symm.subset)
  simp only [render_eq, htotal, hsuccessful, hmean, hpercentage, hunknown, hfinish]

end Order

theorem Representable.perm (h : Representable ops) (hperm : ops.Perm ops') :
    Representable ops' where
  time_lt a := timeOf_perm hperm a ▸ h.time_lt a
  count_lt a := hperm.countP_eq _ ▸ h.count_lt a

/-- As long as words hold what is computed, every build has the same statistics of the operations.
They agree with each other, with the operations and with the report. In another order the operations
have the same report and the same summaries of their response times. -/
theorem ofOperations_consistent {ops : List Operation} (h : Representable ops) :
    (ofOperations ops).Consistent ops ∧ ∀ shuffled : List Operation, shuffled.Perm ops →
      (∀ b, ofOperationsIn? b shuffled = some (ofOperations shuffled)) ∧
      (ofOperations shuffled).render = (ofOperations ops).render ∧
      ∀ a, (ofOperations shuffled).latency? a = (ofOperations ops).latency? a ∧
        ∀ b, (ofOperations shuffled).latencyIn? b a = some ((ofOperations ops).latency? a) := by
  have htallies := tallies_ofOperations ops
  refine ⟨htallies.consistent h, fun shuffled hperm => ?_⟩
  have htallies' := tallies_ofOperations shuffled
  have hlatency (a : Action) : (ofOperations shuffled).latency? a = (ofOperations ops).latency? a :=
    htallies'.latency?_eq_of_perm htallies hperm a
  have hgoes (b : Build) (a : Action) : ¬ b.Stops (timeOf shuffled a) :=
    Build.not_stops_of_lt ((h.perm hperm.symm).time_lt a)
  refine ⟨fun b => ofOperationsIn?_eq_some (hgoes b), htallies'.render_eq_of_perm htallies hperm,
    fun a => ⟨hlatency a, fun b => ?_⟩⟩
  rw [latencyIn?_eq, htallies'.latencies, ← timeOf, if_neg (hgoes b a), hlatency]

/-- A write of each outcome, one of them inverted, and two reads. -/
def mixed : List Operation :=
  [⟨0, .write, [1], [1], 0, 4000, some 1, .success⟩,
    ⟨1, .write, [1], [2], 1000, 3500, none, .failure⟩,
    ⟨2, .write, [1], [3], 9000, 2000, none, .unknown⟩,
    ⟨3, .read, [1], [1], 5000, 6500, some 1, .success⟩,
    ⟨4, .read, [1], [], 7000, 12999, none, .failure⟩]

theorem ofOperations_consistent_mixed : Representable mixed ∧
    (ofOperations mixed).Consistent mixed ∧ (ofOperations mixed).unknownWrites = 1 ∧
    (ofOperations mixed.reverse).render = String.join (
      ["Total time taken (milliseconds): 12", "2 reads and 3 writes processed",
        "Average read response time (ms): 3", "Average write response time (ms): 2",
        "1 (50%) reads were successful", "1 (33%) writes were successful",
        "1 writes have unknown response"].map (· ++ "\n")) ∧
    (ofOperations mixed.reverse).latency? .read = (ofOperations mixed).latency? .read ∧
    (ofOperations mixed.reverse).readLatencies ≠ (ofOperations mixed).readLatencies := by
  have hops : Representable mixed :=
    ⟨fun a => by cases a <;> decide, fun a => by cases a <;> decide⟩
  obtain ⟨hconsistent, hshuffled⟩ := ofOperations_consistent hops
  obtain ⟨-, hrender, hlatency⟩ := hshuffled mixed.reverse (List.reverse_perm mixed)
  refine ⟨hops, hconsistent, by decide, hrender.trans ?_, (hlatency .read).1, by decide⟩
  rw [hconsistent.report]
  decide +kernel

end StoreAudit.Workload
