import StoreAudit.Proofs.Consistency.Exactness
import StoreAudit.Proofs.WriteHistory

/-! What the operations are like if an audit does not refute eventual consistency, and if it finds
nothing. -/
namespace StoreAudit.Consistency

/-- No two operations conflict, and each successful read is of a recorded write. -/
structure Sound (ops : List Operation) (h : WriteHistory) (matchVersion : Bool) : Prop where
  noConflict : ∀ t ∈ ops, ∀ u ∈ ops, ¬ Conflict t u
  written : ∀ op ∈ ops, ¬ Unwritten h op
  known : ∀ op ∈ ops, ¬ Unknown h matchVersion op

theorem Conflict.symm {t u : Operation} (h : Conflict t u) : Conflict u t := by
  obtain ⟨ht, hu, hkey, hv, hvw, hval⟩ := h
  exact ⟨hu, ht, hkey.symm, hvw ▸ hv, hvw.symm, hval.symm⟩

theorem not_isWrite_iff {op : Operation} : ¬ op.isWrite ↔ op.isRead := by
  cases h : op.action <;> simp [Operation.isWrite, Operation.isRead, h]

/-- Operations without conflicts are sound against their own writes if there is one for what each
read returned. -/
theorem sound_of_exists_write {ops : List Operation} (matchVersion : Bool)
    (hconflict : ∀ t ∈ ops, ∀ u ∈ ops, ¬ Conflict t u)
    (hwrite : ∀ op ∈ ops, op.succeeded → op.isRead → ∃ w ∈ ops, w.succeeded ∧ w.isWrite ∧
      w.key = op.key ∧ w.value = op.value ∧ w.version = op.version) :
    Sound ops (.ofOperations ops) matchVersion := by
  refine ⟨hconflict, fun op hop hun => ?_, fun op hop hun => ?_⟩
  · obtain ⟨w, hw, hws, hww, hkey, -⟩ := hwrite op hop hun.1 hun.2.1
    exact hun.2.2 (WriteHistory.isWritten_ofOperations.mpr ⟨w, hw, hww, hws, hkey⟩)
  · obtain ⟨w, hw, hws, hww, hkey, hval, hver⟩ := hwrite op hop hun.1 hun.2.1
    have hentry : ⟨w.value, w.version⟩ ∈ (WriteHistory.ofOperations ops).entries op.key :=
      WriteHistory.mem_entries_ofOperations.mpr ⟨w, hw, hww, hws, hkey, rfl, rfl⟩
    exact hun.2.2.2 ⟨_, hentry, hval, fun _ => hver⟩

variable {ops : List Operation}

theorem places_eq_empty_iff {p : Operation → Prop} [DecidablePred p] :
    places ops p = ∅ ↔ ∀ op ∈ ops, ¬ p op := by
  rw [places, Finset.filter_eq_empty_iff, List.forall_mem_iff_get]
  simp

theorem rankedPairs_conflict_eq_empty_iff :
    rankedPairs ops Conflict = ∅ ↔ ∀ t ∈ ops, ∀ u ∈ ops, ¬ Conflict t u := by
  rw [rankedPairs, Finset.filter_eq_empty_iff]
  constructor
  · intro h t ht u hu hconf
    obtain ⟨i, rfl⟩ := List.get_of_mem ht
    obtain ⟨j, rfl⟩ := List.get_of_mem hu
    rcases lt_trichotomy (rank ops i) (rank ops j) with hij | hij | hij
    · exact h (x := (i, j)) (Finset.mem_univ _) ⟨hij, hconf⟩
    · rw [rank_injective ops hij] at hconf
      exact hconf.2.2.2.2.2 rfl
    · exact h (x := (j, i)) (Finset.mem_univ _) ⟨hij, hconf.symm⟩
  · intro h p _ hp
    exact h _ (List.get_mem _ _) _ (List.get_mem _ _) hp.2

theorem rankedPairs_backwards_eq_empty (h : ∀ t ∈ ops, ∀ u ∈ ops, ¬ Backwards t u) :
    rankedPairs ops Backwards = ∅ :=
  Finset.filter_eq_empty_iff.mpr fun _ _ hp => h _ (List.get_mem _ _) _ (List.get_mem _ _) hp.2

/-- What precedes in real time has the lower rank, as long as it is not over before it starts. -/
theorem rank_lt_of_precedes {i j : Fin ops.length} (hi : (ops.get i).start ≤ (ops.get i).finish)
    (hij : (ops.get i).Precedes (ops.get j)) : rank ops i < rank ops j :=
  (rank_lt_iff ops).mpr (.inl (Nat.lt_of_le_of_lt hi hij))

theorem rankedPairs_backwards_eq_empty_iff (hle : ∀ op ∈ ops, op.start ≤ op.finish) :
    rankedPairs ops Backwards = ∅ ↔ ∀ t ∈ ops, ∀ u ∈ ops, ¬ Backwards t u := by
  refine ⟨fun h t ht u hu hback => ?_, rankedPairs_backwards_eq_empty⟩
  obtain ⟨i, rfl⟩ := List.get_of_mem ht
  obtain ⟨j, rfl⟩ := List.get_of_mem hu
  exact Finset.filter_eq_empty_iff.mp h (x := (i, j)) (Finset.mem_univ _)
    ⟨rank_lt_of_precedes (hle _ ht) hback.2.2.2.1, hback⟩

variable {h : WriteHistory} {matchVersion : Bool}

theorem mem_violations {v : Violation} : v ∈ violations ops h matchVersion ↔
    (∃ p ∈ rankedPairs ops Conflict, .writeConflict (ops.get p.1).key
      ((ops.get p.1).version.getD 0) (ops.get p.1) (ops.get p.2) = v) ∨
    (∃ i ∈ places ops (Unwritten h), .unwrittenRead (ops.get i) = v) ∨
    (∃ i ∈ places ops (Unknown h matchVersion), .unknownValue (ops.get i) = v) ∨
    ∃ p ∈ rankedPairs ops Backwards,
      .staleOrder (ops.get p.1).key (ops.get p.1) (ops.get p.2) = v := by
  rw [← Multiset.mem_coe, coe_violations]
  simp only [Multiset.mem_add, Multiset.mem_map, Finset.mem_val, or_assoc]

/-- Nothing that is found refutes eventual consistency exactly if the operations are sound. -/
theorem forall_violations_iff_sound :
    (∀ v ∈ violations ops h matchVersion, ¬ v.refutesEventual) ↔ Sound ops h matchVersion := by
  constructor
  · intro hno
    refine ⟨rankedPairs_conflict_eq_empty_iff.mp ?_, places_eq_empty_iff.mp ?_,
      places_eq_empty_iff.mp ?_⟩
    all_goals refine Finset.eq_empty_of_forall_notMem fun x hx => ?_
    · exact hno _ (mem_violations.mpr (.inl ⟨x, hx, rfl⟩)) rfl
    · exact hno _ (mem_violations.mpr (.inr (.inl ⟨x, hx, rfl⟩))) rfl
    · exact hno _ (mem_violations.mpr (.inr (.inr (.inl ⟨x, hx, rfl⟩)))) rfl
  · intro hsound v hv
    rcases mem_violations.mp hv with ⟨p, hp, -⟩ | ⟨i, hi, -⟩ | ⟨i, hi, -⟩ | ⟨p, -, rfl⟩
    · rw [rankedPairs_conflict_eq_empty_iff.mpr hsound.noConflict] at hp
      exact absurd hp (Finset.notMem_empty p)
    · rw [places_eq_empty_iff.mpr hsound.written] at hi
      exact absurd hi (Finset.notMem_empty i)
    · rw [places_eq_empty_iff.mpr hsound.known] at hi
      exact absurd hi (Finset.notMem_empty i)
    · exact Bool.false_ne_true

theorem violations_eq_nil_iff : violations ops h matchVersion = [] ↔
    Sound ops h matchVersion ∧ rankedPairs ops Backwards = ∅ := by
  constructor
  · intro hnil
    refine ⟨forall_violations_iff_sound.mp (by simp [hnil]), ?_⟩
    refine Finset.eq_empty_of_forall_notMem fun p hp => ?_
    have hv : _ ∈ violations ops h matchVersion :=
      mem_violations.mpr (.inr (.inr (.inr ⟨p, hp, rfl⟩)))
    simp [hnil] at hv
  · rintro ⟨hsound, hempty⟩
    refine List.eq_nil_iff_forall_not_mem.mpr fun v hv => ?_
    have hno := forall_violations_iff_sound.mpr hsound v hv
    rcases mem_violations.mp hv with ⟨_, _, rfl⟩ | ⟨_, _, rfl⟩ | ⟨_, _, rfl⟩ | ⟨p, hp, -⟩
    · exact hno rfl
    · exact hno rfl
    · exact hno rfl
    · rw [hempty] at hp
      exact absurd hp (Finset.notMem_empty p)

theorem verdict_audit_eq_strong_iff : (audit ops h matchVersion).verdict = .strong ↔
    Sound ops h matchVersion ∧ rankedPairs ops Backwards = ∅ := by
  rw [← violations_eq_nil_iff, audit, Report.ofViolations, Verdict.ofViolations]
  cases violations ops h matchVersion with
  | nil => simp
  | cons v vs => split_ifs <;> simp_all

theorem verdict_audit_ne_neither_iff :
    (audit ops h matchVersion).verdict ≠ .neither ↔ Sound ops h matchVersion := by
  rw [← forall_violations_iff_sound, audit, Report.ofViolations, Verdict.ofViolations]
  split_ifs <;> simp_all

theorem Sound.of_perm {ops' : List Operation} (hperm : ops.Perm ops')
    (hsound : Sound ops (.ofOperations ops) matchVersion) :
    Sound ops' (.ofOperations ops') matchVersion := by
  have hwritten (key : Words) : (WriteHistory.ofOperations ops').isWritten key ↔
      (WriteHistory.ofOperations ops).isWritten key := by
    simp only [WriteHistory.isWritten_ofOperations, hperm.mem_iff]
  have hentries (key : Words) (w : WrittenValue) :
      w ∈ (WriteHistory.ofOperations ops').entries key ↔
        w ∈ (WriteHistory.ofOperations ops).entries key := by
    simp only [WriteHistory.mem_entries_ofOperations, hperm.mem_iff]
  constructor
  case noConflict =>
    intro t ht u hu
    exact hsound.noConflict t (hperm.mem_iff.mpr ht) u (hperm.mem_iff.mpr hu)
  case written =>
    intro op hop hun
    unfold Unwritten at hun
    rw [hwritten] at hun
    exact hsound.written op (hperm.mem_iff.mpr hop) hun
  case known =>
    intro op hop hun
    unfold Unknown at hun
    simp only [hwritten, hentries] at hun
    exact hsound.known op (hperm.mem_iff.mpr hop) hun

/-- In which order operations are given does not show in the verdict on them, as long as none is
over before it starts. -/
theorem verdict_audit_eq_of_perm {ops' : List Operation} (hperm : ops.Perm ops')
    (hordered : ∀ op ∈ ops, op.start ≤ op.finish) (matchVersion : Bool) :
    (audit ops (.ofOperations ops) matchVersion).verdict =
      (audit ops' (.ofOperations ops') matchVersion).verdict := by
  have hordered' : ∀ op ∈ ops', op.start ≤ op.finish := fun op hop =>
    hordered op (hperm.mem_iff.mpr hop)
  have hsound : Sound ops (.ofOperations ops) matchVersion ↔
      Sound ops' (.ofOperations ops') matchVersion := ⟨.of_perm hperm, .of_perm hperm.symm⟩
  have hback : rankedPairs ops Backwards = ∅ ↔ rankedPairs ops' Backwards = ∅ := by
    rw [rankedPairs_backwards_eq_empty_iff hordered, rankedPairs_backwards_eq_empty_iff hordered']
    simp only [hperm.mem_iff]
  have hstrong : (audit ops (.ofOperations ops) matchVersion).verdict = .strong ↔
      (audit ops' (.ofOperations ops') matchVersion).verdict = .strong := by
    rw [verdict_audit_eq_strong_iff, verdict_audit_eq_strong_iff, hsound, hback]
  have hneither : (audit ops (.ofOperations ops) matchVersion).verdict ≠ .neither ↔
      (audit ops' (.ofOperations ops') matchVersion).verdict ≠ .neither := by
    rw [verdict_audit_ne_neither_iff, verdict_audit_ne_neither_iff, hsound]
  cases hv : (audit ops (.ofOperations ops) matchVersion).verdict <;>
    cases hv' : (audit ops' (.ofOperations ops') matchVersion).verdict <;> simp_all

end StoreAudit.Consistency
