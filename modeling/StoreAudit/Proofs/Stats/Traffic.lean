import Mathlib.Order.Lattice
import StoreAudit.Proofs.Stats.Latency
import StoreAudit.Stats.Traffic

/-! The counters of the traffic and its response times, by the action that they are about, and where
a build stops at what a report computes from them. -/
namespace StoreAudit

theorem Action.forall_iff {p : Action → Prop} : (∀ a, p a) ↔ p .read ∧ p .write := by
  constructor
  · exact fun h => ⟨h .read, h .write⟩
  · rintro ⟨hread, hwrite⟩ (_ | _)
    · exact hread
    · exact hwrite

namespace Traffic

/-- The traffic without its response times. -/
def counters (t : Traffic) : Traffic := { t with readLatencies := [], writeLatencies := [] }

theorem counters_observe (t : Traffic) (m : Message) :
    (t.observe m).counters = t.counters.observe m := by
  unfold observe count
  cases m.purpose with
  | request a => cases a <;> rfl
  | response a => cases a <;> rfl
  | other name => rfl

theorem counters_observeLatency (t : Traffic) (a : Action) (latency : Nat) :
    (t.observeLatency a latency).counters = t.counters := by
  cases a <;> rfl

theorem lastTime_observe (t : Traffic) (m : Message) :
    (t.observe m).lastTime = max t.lastTime m.time := rfl

theorem observe_eq (t : Traffic) (m : Message) : t.observe m =
    { t with
      readRequests := t.readRequests + if m.purpose = .request .read then 1 else 0
      writeRequests := t.writeRequests + if m.purpose = .request .write then 1 else 0
      readResponses := t.readResponses + if m.purpose = .response .read then 1 else 0
      writeResponses := t.writeResponses + if m.purpose = .response .write then 1 else 0
      readErrors := t.readErrors + if m.purpose = .response .read ∧ m.ok = false then 1 else 0
      writeErrors := t.writeErrors + if m.purpose = .response .write ∧ m.ok = false then 1 else 0
      lastTime := max t.lastTime m.time } := by
  unfold observe count
  cases m.purpose with
  | request a => cases a <;> simp
  | response a => cases a <;> cases m.ok <;> simp
  | other name => simp

theorem observe_right_comm (t : Traffic) (m m' : Message) :
    (t.observe m).observe m' = (t.observe m').observe m := by
  simp only [observe_eq, Nat.add_right_comm, Nat.max_right_comm]

section Actions
variable (t : Traffic) (m : Message) (a : Action)

def requests : Action → Nat
  | .read => t.readRequests
  | .write => t.writeRequests

def responses : Action → Nat
  | .read => t.readResponses
  | .write => t.writeResponses

def errors : Action → Nat
  | .read => t.readErrors
  | .write => t.writeErrors

def latencies : Action → List Nat
  | .read => t.readLatencies
  | .write => t.writeLatencies

def latency? : Action → Option LatencySummary
  | .read => t.readLatency?
  | .write => t.writeLatency?

def balanced : Action → Bool
  | .read => t.readsBalanced
  | .write => t.writesBalanced

theorem requests_observe : (t.observe m).requests a =
    t.requests a + if m.purpose = .request a then 1 else 0 := by
  cases a <;> rw [observe_eq] <;> rfl

theorem responses_observe : (t.observe m).responses a =
    t.responses a + if m.purpose = .response a then 1 else 0 := by
  cases a <;> rw [observe_eq] <;> rfl

theorem errors_observe : (t.observe m).errors a =
    t.errors a + if m.purpose = .response a ∧ m.ok = false then 1 else 0 := by
  cases a <;> rw [observe_eq] <;> rfl

theorem latencies_observe : (t.observe m).latencies a = t.latencies a := by
  cases a <;> rw [observe_eq] <;> rfl

theorem requests_counters : t.counters.requests a = t.requests a := by cases a <;> rfl
theorem responses_counters : t.counters.responses a = t.responses a := by cases a <;> rfl
theorem errors_counters : t.counters.errors a = t.errors a := by cases a <;> rfl

theorem latencies_observeLatency (b : Action) (latency : Nat) :
    (t.observeLatency b latency).latencies a =
      t.latencies a ++ if b = a then [latency] else [] := by
  cases a <;> cases b <;> simp [observeLatency, latencies]

theorem latency?_eq : t.latency? a = LatencySummary.ofLatencies? (t.latencies a) := by
  cases a <;> rfl

theorem balanced_iff : t.balanced a ↔ t.requests a = t.responses a := by
  cases a <;> exact beq_iff_eq

end Actions

theorem latencyIn?_eq (b : Build) (t : Traffic) (a : Action) :
    t.latencyIn? b a = if b.Stops (t.latencies a).sum then none else some (t.latency? a) := by
  rw [latency?_eq, ← LatencySummary.ofLatenciesIn?_eq]
  cases a <;> rfl

/-- Words hold the sums of the response times and, unless the report is JSON, a hundred times the
errors. -/
structure Representable (t : Traffic) (json : Bool) : Prop where
  latencies_lt : ∀ a, (t.latencies a).sum < wordLimit
  errors_lt : json = false → ∀ a, 100 * t.errors a < wordLimit

instance (t : Traffic) (json : Bool) : Decidable (t.Representable json) :=
  decidable_of_iff (((t.latencies .read).sum < wordLimit ∧ (t.latencies .write).sum < wordLimit) ∧
      (json = false → 100 * t.errors .read < wordLimit ∧ 100 * t.errors .write < wordLimit)) <| by
    rw [← Action.forall_iff (p := fun a => (t.latencies a).sum < wordLimit),
      ← Action.forall_iff (p := fun a => 100 * t.errors a < wordLimit)]
    exact ⟨fun h => ⟨h.1, h.2⟩, fun h => ⟨h.latencies_lt, h.errors_lt⟩⟩

theorem summedIn_iff {b : Build} {t : Traffic} :
    t.summedIn b ↔ ∀ a, ¬ b.Stops (t.latencies a).sum := by
  rw [summedIn, Bool.and_eq_true, Action.forall_iff, latencyIn?_eq, latencyIn?_eq]
  simp

theorem printedIn_iff {b : Build} {t : Traffic} :
    t.printedIn b ↔ ∀ a, ¬ b.Stops (100 * t.errors a) := by
  rw [printedIn, Bool.and_eq_true, Action.forall_iff, Build.word?, Build.word?]
  simp [errors]

end Traffic
end StoreAudit
