import StoreAudit.Message
import StoreAudit.Proofs.Consistency.Membership

/-! What the store has acknowledged, one answer after the other. A write history holds the writes
among the acknowledgements, and a read is supported by those that wrote what it returned. -/
namespace StoreAudit

/-- What a successful answer says was read or written. -/
structure Acknowledgement where
  action : Action
  key : Words
  value : Words
  version : Option Nat
  deriving DecidableEq, Repr

namespace Acknowledgement

/-- A write to the key. -/
def writes (key : Words) (a : Acknowledgement) : Bool := a.action == .write && a.key == key

def written (a : Acknowledgement) : WrittenValue := ⟨a.value, a.version⟩

/-- The writes among the acknowledgements, as they are recorded. -/
def recordedWrites (acks : List Acknowledgement) : List RecordedWrite :=
  (acks.filter (·.action == .write)).map fun a => ⟨a.key, a.written⟩

/-- `w` wrote what `read` returned, and with `matchVersion` at its version. -/
def Supports (matchVersion : Bool) (w read : Acknowledgement) : Prop :=
  w.action = .write ∧ w.key = read.key ∧ w.value = read.value ∧
    (matchVersion → w.version = read.version)

/-- Some read is acknowledged ahead of every write that supports it. -/
def ReadsAhead (matchVersion : Bool) (acks : List Acknowledgement) : Prop :=
  ∃ before read after, acks = before ++ read :: after ∧ read.action = .read ∧
    ∀ w ∈ before, ¬ w.Supports matchVersion read

variable {matchVersion : Bool} {acks : List Acknowledgement} {a : Acknowledgement}

theorem not_readsAhead_nil : ¬ ReadsAhead matchVersion [] := by
  rintro ⟨before, read, after, heq, -⟩
  exact List.append_ne_nil_of_right_ne_nil before (List.cons_ne_nil read after) heq.symm

theorem readsAhead_concat : ReadsAhead matchVersion (acks ++ [a]) ↔
    ReadsAhead matchVersion acks ∨ a.action = .read ∧ ∀ w ∈ acks, ¬ w.Supports matchVersion a := by
  constructor
  · rintro ⟨before, read, after, heq, hread, hnone⟩
    rcases List.eq_nil_or_concat' after with rfl | ⟨init, last, rfl⟩
    · obtain ⟨rfl, hlast⟩ := List.append_inj' heq rfl
      obtain rfl := List.singleton_inj.mp hlast
      exact .inr ⟨hread, hnone⟩
    · rw [← List.cons_append, ← List.append_assoc] at heq
      exact .inl ⟨before, read, init, (List.append_inj' heq rfl).1, hread, hnone⟩
  · rintro (⟨before, read, after, rfl, hread, hnone⟩ | ⟨hread, hnone⟩)
    · exact ⟨before, read, after ++ [a], by simp, hread, hnone⟩
    · exact ⟨acks, a, [], rfl, hread, hnone⟩

/-- The writes among what some of the `xs` acknowledge, where `p` says of which of them it is a
write. -/
theorem recordedWrites_filterMap {α : Type} {f : α → Option Acknowledgement} {p : α → Bool}
    {g : α → RecordedWrite} (h : ∀ x, ((f x).filter (·.action == .write)).map
      (fun a => ⟨a.key, a.written⟩) = if p x then some (g x) else none) (xs : List α) :
    recordedWrites (xs.filterMap f) = (xs.filter p).map g := by
  unfold recordedWrites
  rw [List.filter_filterMap, List.map_filterMap, ← Consistency.filterMap_if]
  exact List.filterMap_congr fun x _ => h x

end Acknowledgement

namespace Message

/-- The message is a successful response to such an action. -/
def Reports (m : Message) (a : Action) : Prop := m.ok ∧ m.purpose = .response a

instance (m : Message) (a : Action) : Decidable (m.Reports a) :=
  inferInstanceAs (Decidable (_ ∧ _))

theorem Reports.action_eq {m : Message} {a b : Action} (h : m.Reports a) (h' : m.Reports b) :
    a = b :=
  Purpose.response.inj (h.2.symm.trans h'.2)

/-- What the message acknowledges, if it is a successful response. -/
def acknowledged? (m : Message) : Option Acknowledgement :=
  match m.purpose with
  | .response a => if m.ok then some ⟨a, m.key, m.value, m.version⟩ else none
  | .request _ | .other _ => none

theorem acknowledged?_eq_some_iff {m : Message} {a : Acknowledgement} :
    m.acknowledged? = some a ↔ m.Reports a.action ∧ a = ⟨a.action, m.key, m.value, m.version⟩ := by
  unfold acknowledged? Reports
  cases hpurpose : m.purpose with
  | request b => simp
  | other name => simp
  | response b =>
    obtain ⟨action, key, value, version⟩ := a
    simp only [Purpose.response.injEq, Acknowledgement.mk.injEq]
    split_ifs with hok
    · simp [hok, eq_comm]
    · simp [hok]

theorem not_reports_of_acknowledged?_eq_none {m : Message} (h : m.acknowledged? = none)
    (a : Action) : ¬ m.Reports a := by
  rintro ⟨hok, hpurpose⟩
  simp [acknowledged?, hok, hpurpose] at h

end Message

/-- What the store acknowledged, if the operation was successful. -/
def Operation.acknowledged? (op : Operation) : Option Acknowledgement :=
  if op.succeeded then some ⟨op.action, op.key, op.value, op.version⟩ else none

theorem Operation.acknowledged?_eq_some_iff {op : Operation} {a : Acknowledgement} :
    op.acknowledged? = some a ↔ op.succeeded ∧ a = ⟨op.action, op.key, op.value, op.version⟩ := by
  unfold acknowledged?
  split_ifs with hsucc
  · simp [hsucc, eq_comm]
  · simp [hsucc]

namespace WriteHistory

/-- The history holds the writes among the acknowledgements, those of each key in their order. -/
def Holds (h : WriteHistory) (acks : List Acknowledgement) : Prop :=
  ∀ key, h.entries key = (acks.filter (·.writes key)).map (·.written)

variable {h : WriteHistory} {acks : List Acknowledgement}

theorem Reflects.holds (hh : h.Reflects (Acknowledgement.recordedWrites acks)) : h.Holds acks := by
  intro key
  rw [hh.entries_eq, writtenTo, Acknowledgement.recordedWrites, List.filter_map, List.map_map,
    List.filter_filter]
  refine congrArg (List.map _) (List.filter_congr fun a _ => ?_)
  exact Bool.and_comm _ _

theorem Holds.supports_iff (hh : h.Holds acks) (matchVersion : Bool) (read : Acknowledgement) :
    h.supports matchVersion read.key read.value read.version ↔
      ∃ w ∈ acks, w.Supports matchVersion read := by
  rw [Consistency.supports_iff, hh]
  simp [Acknowledgement.writes, Acknowledgement.written, Acknowledgement.Supports, and_assoc]

theorem holds_ofOperations (ops : List Operation) :
    (ofOperations ops).Holds (ops.filterMap Operation.acknowledged?) := by
  have hwrites : Acknowledgement.recordedWrites (ops.filterMap Operation.acknowledged?) =
      successfulWrites ops := by
    refine Acknowledgement.recordedWrites_filterMap (fun op => ?_) ops
    cases hsucc : op.succeeded with
    | false =>
      have hack : op.acknowledged? = none := if_neg (Bool.eq_false_iff.mp hsucc)
      rw [hack, Bool.and_false]
      rfl
    | true =>
      have hack : op.acknowledged? = some ⟨op.action, op.key, op.value, op.version⟩ :=
        Operation.acknowledged?_eq_some_iff.mpr ⟨hsucc, rfl⟩
      rw [hack, Option.filter_some, Bool.and_true]
      unfold Operation.isWrite
      split_ifs <;> rfl
  refine Reflects.holds ?_
  rw [hwrites]
  exact reflects_ofOperations ops

end WriteHistory

end StoreAudit
