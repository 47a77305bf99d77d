import StoreAudit.Proofs.Consistency.Linearization

/-! What an audit that finds nothing says about its operations. They need not fit in a line, since
reads are not held against the time of the write that they observe. As soon as no read is over
before that write begins, they do. -/
namespace StoreAudit.Consistency

/-- Versioned operations on one key that share a value with a version and do not fall along real
time, each read with a write of its version that began before the read was over. -/
structure Alignable (ops : List Operation) : Prop where
  ordered : ∀ op ∈ ops, op.start ≤ op.finish
  versioned : ∀ op ∈ ops, op.version.isSome
  agree : ∀ t ∈ ops, ∀ u ∈ ops, t.version = u.version → t.value = u.value
  rising : ∀ t ∈ ops, ∀ u ∈ ops, t.Precedes u → t.version.getD 0 ≤ u.version.getD 0
  observed : ∀ read ∈ ops, read.isRead →
    ∃ w ∈ ops, w.isWrite ∧ w.version = read.version ∧ ¬ read.Precedes w

section Line
variable (ops : List Operation)

/-- When the first write of a version began. -/
def firstStart (version : Option Nat) : Nat :=
  ((ops.filter fun w => w.isWrite && w.version == version).map (·.start)).min?.getD 0

/-- When an operation may have taken effect: a write at its start, a read at its start or at that of
the first write of its version. -/
def effect (op : Operation) : Nat :=
  if op.isWrite then op.start else max op.start (firstStart ops op.version)

/-- By version, then by the time of the effect, a write in front of the reads. -/
def turn (op : Operation) : ℕ ×ₗ ℕ ×ₗ ℕ :=
  toLex (op.version.getD 0, toLex (effect ops op, if op.isWrite then 0 else 1))

/-- The operations by their turns. -/
def line : List Operation := ops.mergeSort fun t u => turn ops t ≤ turn ops u

theorem turn_le_iff {t u : Operation} : turn ops t ≤ turn ops u ↔
    t.version.getD 0 < u.version.getD 0 ∨ t.version.getD 0 = u.version.getD 0 ∧
      (effect ops t < effect ops u ∨ effect ops t = effect ops u ∧
        (if t.isWrite then 0 else 1) ≤ if u.isWrite then 0 else 1) := by
  simp only [turn, Prod.Lex.toLex_le_toLex]

theorem line_perm : (line ops).Perm ops := List.mergeSort_perm ..

theorem pairwise_line : (line ops).Pairwise fun t u => turn ops t ≤ turn ops u :=
  pairwise_key_mergeSort (fun _ _ => decide_eq_true_iff) ops

/-- The first write of a version that is written at all. -/
theorem exists_start_eq_firstStart {w : Operation} (hw : w ∈ ops) (hwrite : w.isWrite) :
    ∃ first ∈ ops, first.isWrite ∧ first.version = w.version ∧
      first.start = firstStart ops w.version ∧ first.start ≤ w.start := by
  have hmem : w.start ∈ (ops.filter fun x => x.isWrite && x.version == w.version).map (·.start) :=
    List.mem_map_of_mem (List.mem_filter.mpr ⟨hw, by simp [hwrite]⟩)
  obtain ⟨m, hm⟩ := Option.isSome_iff_exists.mp (List.isSome_min?_of_mem hmem)
  obtain ⟨hfrom, hleast⟩ := List.min?_eq_some_iff.mp hm
  obtain ⟨first, hfirst, rfl⟩ := List.mem_map.mp hfrom
  simp only [List.mem_filter, Bool.and_eq_true, beq_iff_eq] at hfirst
  exact ⟨first, hfirst.1, hfirst.2.1, hfirst.2.2, by rw [firstStart, hm, Option.getD_some],
    hleast _ hmem⟩

theorem start_le_effect (op : Operation) : op.start ≤ effect ops op := by
  unfold effect
  split_ifs
  · exact le_rfl
  · exact le_max_left ..

end Line

variable {ops : List Operation}

theorem Alignable.effect_le_finish (h : Alignable ops) {op : Operation} (hop : op ∈ ops) :
    effect ops op ≤ op.finish := by
  by_cases hwrite : op.isWrite
  · rw [effect, if_pos hwrite]
    exact h.ordered op hop
  · obtain ⟨w, hw, hww, hver, hreal⟩ := h.observed op hop (not_isWrite_iff.mp hwrite)
    obtain ⟨first, -, -, -, hfirst, hle⟩ := exists_start_eq_firstStart ops hw hww
    rw [effect, if_neg hwrite, ← hver, ← hfirst]
    exact max_le (h.ordered op hop) (hle.trans (not_lt.mp hreal))

theorem Alignable.pairwise_not_precedes (h : Alignable ops) :
    (line ops).Pairwise fun t u => ¬ u.Precedes t := by
  refine (pairwise_line ops).imp_of_mem fun {t u} ht hu hturn hprec => ?_
  have ht := (line_perm ops).mem_iff.mp ht
  have hu := (line_perm ops).mem_iff.mp hu
  -- The versions are equal, and the effects are as far apart as the operations.
  have hrising := h.rising u hu t ht hprec
  have heffect : effect ops u < effect ops t :=
    (h.effect_le_finish hu).trans_lt (lt_of_lt_of_le hprec (start_le_effect ops t))
  rw [turn_le_iff] at hturn
  omega

theorem Alignable.version_eq (h : Alignable ops) {t u : Operation} (ht : t ∈ ops) (hu : u ∈ ops)
    (heq : t.version.getD 0 = u.version.getD 0) : t.version = u.version := by
  obtain ⟨v, hv⟩ := Option.isSome_iff_exists.mp (h.versioned t ht)
  obtain ⟨w, hw⟩ := Option.isSome_iff_exists.mp (h.versioned u hu)
  rw [hv, hw, Option.getD_some, Option.getD_some] at heq
  rw [hv, hw, heq]

section Split
variable {before after : List Operation} {read : Operation}

theorem Alignable.exists_write_in_front (h : Alignable ops)
    (hsplit : line ops = before ++ read :: after) (hread : read.isRead) :
    ∃ w ∈ before, w.isWrite ∧ w.version = read.version := by
  have hmem : read ∈ ops := (line_perm ops).mem_iff.mp (by simp [hsplit])
  have hnot := not_isWrite_iff.mpr hread
  obtain ⟨w, hw, hww, hver, -⟩ := h.observed read hmem hread
  obtain ⟨first, hfirst, hwrite, hfver, hstart, -⟩ := exists_start_eq_firstStart ops hw hww
  rw [hver] at hfver hstart
  have heffect : effect ops first ≤ effect ops read := by
    rw [effect, if_pos hwrite, effect, if_neg hnot, hstart]
    exact le_max_right ..
  -- Behind the read it would have the later turn.
  have hline := (line_perm ops).mem_iff.mpr hfirst
  rw [hsplit, List.mem_append, List.mem_cons] at hline
  rcases hline with hline | rfl | hline
  · exact ⟨first, hline, hwrite, hfver⟩
  · exact absurd hwrite hnot
  · have hsorted := pairwise_line ops
    rw [hsplit, List.pairwise_append, List.pairwise_cons] at hsorted
    have hturn := (turn_le_iff ops).mp (hsorted.2.1.1 first hline)
    rw [hfver, if_pos hwrite, if_neg hnot] at hturn
    omega

/-- Versions rise along the line, so that the last write in front of a read has its version too. -/
theorem Alignable.exists_lastWrite? (h : Alignable ops)
    (hsplit : line ops = before ++ read :: after) (hread : read.isRead) :
    ∃ w, lastWrite? before = some w ∧ w.version = read.version ∧ w.value = read.value := by
  have hsorted := pairwise_line ops
  rw [hsplit, List.pairwise_append] at hsorted
  obtain ⟨hbefore, -, hcross⟩ := hsorted
  obtain ⟨first, hfirst, hwrite, hfver⟩ := h.exists_write_in_front hsplit hread
  obtain ⟨w, hw, hle⟩ := exists_lastWrite?_of_mem hbefore hfirst hwrite
  have hwbefore := (mem_of_lastWrite?_eq hw).1
  have hlow : read.version.getD 0 ≤ w.version.getD 0 := by
    rw [← hfver]
    rcases hle with rfl | hle
    · exact le_rfl
    · rw [turn_le_iff] at hle
      omega
  have hhigh := (turn_le_iff ops).mp (hcross w hwbefore read (List.mem_cons_self ..))
  have hwops : w ∈ ops := (line_perm ops).mem_iff.mp (by simp [hsplit, hwbefore])
  have hreadops : read ∈ ops := (line_perm ops).mem_iff.mp (by simp [hsplit])
  have hver : w.version = read.version := h.version_eq hwops hreadops (by omega)
  exact ⟨w, hw, hver, h.agree w hwops read hreadops hver⟩

end Split

theorem Alignable.linearizesVersions {all : List Operation} {key : Words} (h : Alignable ops)
    (hops : ops = all.filter fun op => op.succeeded && op.key == key) :
    LinearizesVersions all key (line ops) := by
  refine ⟨⟨hops ▸ line_perm ops, h.pairwise_not_precedes, ?_⟩, ?_⟩
  · intro before read after hsplit hread
    obtain ⟨w, hw, -, hval⟩ := h.exists_lastWrite? hsplit hread
    exact ⟨w, hw, hval⟩
  · intro before read after hsplit hread
    obtain ⟨w, hw, hver, -⟩ := h.exists_lastWrite? hsplit hread
    exact ⟨w, hw, hver⟩

theorem Sound.alignable_filter {h : WriteHistory} {matchVersion : Bool}
    (hsound : Sound ops h matchVersion) (hordered : ∀ op ∈ ops, op.start ≤ op.finish)
    (hversioned : ∀ op ∈ ops, op.succeeded → op.version.isSome)
    (hback : ∀ t ∈ ops, ∀ u ∈ ops, ¬ Backwards t u)
    (hobs : ∀ read ∈ ops, read.succeeded → read.isRead → ∃ w ∈ ops, Observes read w)
    (key : Words) : Alignable (ops.filter fun op => op.succeeded && op.key == key) := by
  have hmem (op : Operation) : op ∈ (ops.filter fun op => op.succeeded && op.key == key) ↔
      op ∈ ops ∧ op.succeeded ∧ op.key = key := by simp
  constructor
  case ordered => exact fun op hop => hordered op ((hmem op).mp hop).1
  case versioned =>
    intro op hop
    exact hversioned op ((hmem op).mp hop).1 ((hmem op).mp hop).2.1
  case agree =>
    intro t ht u hu hver
    obtain ⟨htops, hts, htkey⟩ := (hmem t).mp ht
    obtain ⟨huops, hus, hukey⟩ := (hmem u).mp hu
    by_contra hval
    exact hsound.noConflict t htops u huops
      ⟨hts, hus, htkey.trans hukey.symm, hversioned t htops hts, hver, hval⟩
  case rising =>
    intro t ht u hu hprec
    obtain ⟨htops, hts, htkey⟩ := (hmem t).mp ht
    obtain ⟨huops, hus, hukey⟩ := (hmem u).mp hu
    obtain ⟨v, hv⟩ := Option.isSome_iff_exists.mp (hversioned t htops hts)
    obtain ⟨w, hw⟩ := Option.isSome_iff_exists.mp (hversioned u huops hus)
    by_contra hlt
    rw [hv, hw, Option.getD_some, Option.getD_some, not_le] at hlt
    exact hback t htops u huops ⟨hts, hus, htkey.trans hukey.symm, hprec, v, hv, w, hw, hlt⟩
  case observed =>
    intro read hread hisRead
    obtain ⟨hops, hsucc, hkey⟩ := (hmem read).mp hread
    obtain ⟨w, hw, hws, hww, hwkey, -, hver, hreal⟩ := hobs read hops hsucc hisRead
    exact ⟨w, (hmem w).mpr ⟨hw, hws, hwkey.trans hkey⟩, hww, hver, hreal⟩

/-- The operations of a strong history fit in a line on every key exactly if no read was over
before the write that it observed began. -/
theorem linearizesVersions_iff_exists_observes (ops : List Operation)
    (hordered : ∀ op ∈ ops, op.start ≤ op.finish)
    (hversioned : ∀ op ∈ ops, op.succeeded → op.version.isSome)
    (hstrong : (audit ops (.ofOperations ops) true).verdict = .strong) :
    (∀ key, ∃ order, LinearizesVersions ops key order) ↔
      ∀ read ∈ ops, read.succeeded → read.isRead → ∃ w ∈ ops, Observes read w := by
  constructor
  · intro h read hmem hsucc hread
    obtain ⟨order, hline⟩ := h read.key
    exact hline.exists_observes (hline.mem_iff.mpr ⟨hmem, hsucc, rfl⟩) hread
  · intro hobs key
    obtain ⟨hsound, hempty⟩ := verdict_audit_eq_strong_iff.mp hstrong
    have hback := (rankedPairs_backwards_eq_empty_iff hordered).mp hempty
    have halign := hsound.alignable_filter hordered hversioned hback hobs key
    exact ⟨line _, halign.linearizesVersions rfl⟩

/-- Two writes that overlap, and the reads of both while they last. -/
def overlapping : List Operation :=
  [⟨0, .write, [1], [7], 0, 9, some 1, .success⟩, ⟨1, .write, [1], [8], 2, 12, some 2, .success⟩,
    ⟨2, .read, [1], [8], 4, 10, some 2, .success⟩, ⟨3, .read, [1], [7], 5, 6, some 1, .success⟩]

theorem exists_linearizesVersions_overlapping :
    (audit overlapping (.ofOperations overlapping) true).verdict = .strong ∧
      ∀ key, ∃ order, LinearizesVersions overlapping key order := by
  have hstrong : (audit overlapping (.ofOperations overlapping) true).verdict = .strong :=
    verdict_audit_eq_strong_iff.mpr
      ⟨⟨by decide, by decide, by decide⟩, rankedPairs_backwards_eq_empty (by decide)⟩
  exact ⟨hstrong, (linearizesVersions_iff_exists_observes overlapping (by decide) (by decide)
    hstrong).mpr (by decide)⟩

/-- A read that was over before the only write of what it returned began. -/
def readAhead : List Operation :=
  [⟨0, .read, [1], [7], 0, 1, some 1, .success⟩, ⟨1, .write, [1], [7], 5, 10, some 1, .success⟩]

theorem strong_readAhead_not_linearizes :
    (∀ op ∈ readAhead, op.start ≤ op.finish) ∧
    (∀ op ∈ readAhead, op.succeeded → op.version.isSome) ∧
    (audit readAhead (.ofOperations readAhead) true).verdict = .strong ∧
    ¬ ∃ order, Linearizes readAhead [1] order := by
  refine ⟨by decide, by decide, verdict_audit_eq_strong_iff.mpr
    ⟨⟨by decide, by decide, by decide⟩, rankedPairs_backwards_eq_empty (by decide)⟩, ?_⟩
  rintro ⟨order, hline⟩
  let read : Operation := ⟨0, .read, [1], [7], 0, 1, some 1, .success⟩
  have hmem : read ∈ order := hline.mem_iff.mpr (by decide)
  obtain ⟨before, after, hsplit⟩ := List.append_of_mem hmem
  obtain ⟨w, hw, -⟩ := hline.values before read after hsplit rfl
  obtain ⟨hops, -, hwrite, -, hreal⟩ := hline.of_lastWrite?_eq hsplit hw
  have hnone : ∀ w ∈ readAhead, w.isWrite → read.Precedes w := by decide
  exact hreal (hnone w hops hwrite)

end StoreAudit.Consistency
