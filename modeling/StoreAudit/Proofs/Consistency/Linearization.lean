import StoreAudit.Proofs.Consistency.Verdict

/-! Operations of a key in one line, as if they had taken place one after the other. An audit finds
nothing in a history that can be lined up so that versions rise with the writes. -/
namespace StoreAudit.Consistency

/-- The last write of a list. -/
def lastWrite? (order : List Operation) : Option Operation :=
  (order.filter (·.isWrite)).getLast?

/-- Each read comes after a write, and agrees with the last one in front of it. -/
def ReadsLast (agrees : Operation → Operation → Prop) (order : List Operation) : Prop :=
  ∀ before read after, order = before ++ read :: after → read.isRead →
    ∃ w, lastWrite? before = some w ∧ agrees w read

/-- The successful operations on a key in a line: what is over before another starts stands in front
of it, and each read returns the value of the last write in front of it. -/
structure Linearizes (ops : List Operation) (key : Words) (order : List Operation) : Prop where
  perm : order.Perm (ops.filter fun op => op.succeeded && op.key == key)
  realTime : order.Pairwise fun t u => ¬ u.Precedes t
  values : ReadsLast (fun w read => w.value = read.value) order

/-- As `Linearizes`, and each read carries the version of that write. -/
structure LinearizesVersions (ops : List Operation) (key : Words) (order : List Operation) : Prop
    extends Linearizes ops key order where
  versions : ReadsLast (fun w read => w.version = read.version) order

/-- The versions of the writes strictly increase. -/
def WritesIncrease (order : List Operation) : Prop :=
  (order.filter (·.isWrite)).Pairwise fun w w' => ∃ v ∈ w.version, ∃ v' ∈ w'.version, v < v'

theorem lastWrite?_concat (order : List Operation) (op : Operation) :
    lastWrite? (order ++ [op]) = if op.isWrite then some op else lastWrite? order := by
  cases h : op.isWrite <;> simp [lastWrite?, List.filter_append, h]

theorem mem_of_lastWrite?_eq {order : List Operation} {w : Operation}
    (h : lastWrite? order = some w) : w ∈ order ∧ w.isWrite := by
  exact List.mem_filter.mp (List.mem_of_getLast? h)

theorem exists_lastWrite?_of_mem {r : Operation → Operation → Prop} {order : List Operation}
    (h : order.Pairwise r) {t : Operation} (ht : t ∈ order) (hwrite : t.isWrite) :
    ∃ w, lastWrite? order = some w ∧ (t = w ∨ r t w) := by
  have hmem : t ∈ order.filter (·.isWrite) := List.mem_filter.mpr ⟨ht, hwrite⟩
  have hpair := h.filter (·.isWrite)
  rcases List.eq_nil_or_concat' (order.filter (·.isWrite)) with hnil | ⟨init, w, hinit⟩
  · exact absurd (hnil ▸ hmem) List.not_mem_nil
  · refine ⟨w, by rw [lastWrite?, hinit, List.getLast?_concat], ?_⟩
    rw [hinit, List.mem_append, List.mem_singleton] at hmem
    rw [hinit, List.pairwise_append] at hpair
    exact hmem.symm.imp_right fun hmem => hpair.2.2 t hmem w (List.mem_singleton_self w)

theorem readsLast_iff {agrees : Operation → Operation → Prop} {order : List Operation} :
    ReadsLast agrees order ↔ ∀ i : Fin order.length, (order.get i).isRead →
      ∃ w ∈ lastWrite? (order.take i), agrees w (order.get i) := by
  constructor
  · intro h i hread
    exact h (order.take i) (order.get i) (order.drop (i + 1)) (by simp) hread
  · rintro h before read after rfl hread
    simpa [hread] using h ⟨before.length, by simp⟩

instance {agrees : Operation → Operation → Prop} [DecidableRel agrees] (order : List Operation) :
    Decidable (ReadsLast agrees order) := decidable_of_iff' _ readsLast_iff

instance : DecidablePred WritesIncrease := fun _ => inferInstanceAs (Decidable (List.Pairwise _ _))

theorem ReadsLast.of_append {agrees : Operation → Operation → Prop} {order rest : List Operation}
    (h : ReadsLast agrees (order ++ rest)) : ReadsLast agrees order := by
  rintro before read after rfl hread
  exact h before read (after ++ rest) (by simp) hread

/-- Of two operations in a line, the second has the same version and value or a newer version. -/
def Follows (t u : Operation) : Prop :=
  t.version = u.version ∧ t.value = u.value ∨ ∃ v ∈ t.version, ∃ w ∈ u.version, v < w

theorem Follows.trans {t u s : Operation} (htu : Follows t u) (hus : Follows u s) :
    Follows t s := by
  rcases htu with ⟨hver, hval⟩ | ⟨v, hv, w, hw, hvw⟩
  · rcases hus with ⟨hver', hval'⟩ | ⟨v, hv, w, hw, hvw⟩
    · exact .inl ⟨hver.trans hver', hval.trans hval'⟩
    · exact .inr ⟨v, hver ▸ hv, w, hw, hvw⟩
  · rcases hus with ⟨hver', -⟩ | ⟨v', hv', w', hw', hvw'⟩
    · exact .inr ⟨v, hv, w, hver' ▸ hw, hvw⟩
    · have hww : w = v' := Option.mem_unique hw hv'
      exact .inr ⟨v, hv, w', hw', hvw.trans (hww ▸ hvw')⟩

/-- Along a line whose writes have increasing versions, every operation follows those in front of
it, and the last write follows them all. -/
theorem pairwise_follows {order : List Operation}
    (hvalues : ReadsLast (fun w read => w.value = read.value) order)
    (hversions : ReadsLast (fun w read => w.version = read.version) order)
    (hinc : WritesIncrease order) :
    order.Pairwise Follows ∧ ∀ t ∈ order, ∃ w, lastWrite? order = some w ∧ Follows t w := by
  -- From the right: a new write has a newer version than the last write, a read has that of it.
  induction order using List.reverseRecOn with
  | nil => simp
  | append_singleton order u ih =>
    have hincU := hinc
    rw [WritesIncrease, List.filter_append, List.pairwise_append] at hincU
    obtain ⟨hpair, hlast⟩ := ih hvalues.of_append hversions.of_append hincU.1
    by_cases hu : u.isWrite
    · have hfollows : ∀ t ∈ order, Follows t u := by
        intro t ht
        obtain ⟨w, hw, htw⟩ := hlast t ht
        have hwu := hincU.2.2 w (List.mem_of_getLast? hw) u (by simp [hu])
        exact htw.trans (.inr hwu)
      refine ⟨List.pairwise_append.mpr ⟨hpair, List.pairwise_singleton _ u, by simpa⟩, ?_⟩
      intro t ht
      refine ⟨u, by rw [lastWrite?_concat, if_pos hu], ?_⟩
      rcases List.mem_append.mp ht with ht | ht
      · exact hfollows t ht
      · rw [List.mem_singleton.mp ht]
        exact .inl ⟨rfl, rfl⟩
    · obtain ⟨w, hw, hval⟩ := hvalues order u [] rfl (not_isWrite_iff.mp hu)
      obtain ⟨w', hw', hver⟩ := hversions order u [] rfl (not_isWrite_iff.mp hu)
      obtain rfl : w = w' := Option.some.inj (hw.symm.trans hw')
      have hfollows : ∀ t ∈ order, Follows t u := by
        intro t ht
        obtain ⟨x, hx, htx⟩ := hlast t ht
        obtain rfl : w = x := Option.some.inj (hw.symm.trans hx)
        exact htx.trans (.inl ⟨hver, hval⟩)
      refine ⟨List.pairwise_append.mpr ⟨hpair, List.pairwise_singleton _ u, by simpa⟩, ?_⟩
      intro t ht
      refine ⟨w, by rw [lastWrite?_concat, if_neg hu, hw], ?_⟩
      rcases List.mem_append.mp ht with ht | ht
      · obtain ⟨x, hx, htx⟩ := hlast t ht
        obtain rfl : w = x := Option.some.inj (hw.symm.trans hx)
        exact htx
      · rw [List.mem_singleton.mp ht]
        exact .inl ⟨hver.symm, hval.symm⟩

theorem Follows.not_conflict {t u : Operation} (h : Follows t u) : ¬ Conflict t u := by
  rintro ⟨-, -, -, -, hver, hval⟩
  rcases h with ⟨-, hval'⟩ | ⟨v, hv, w, hw, hvw⟩
  · exact hval hval'
  · exact hvw.ne (Option.mem_unique hv (hver ▸ hw))

theorem Follows.not_backwards {t u : Operation} (h : Follows t u) : ¬ Backwards t u := by
  rintro ⟨-, -, -, -, v, hv, w, hw, hwv⟩
  rcases h with ⟨hver, -⟩ | ⟨v', hv', w', hw', hvw⟩
  · exact hwv.ne (Option.mem_unique hw (hver ▸ hv))
  · rw [Option.mem_unique hv hv', Option.mem_unique hw hw'] at hwv
    exact hwv.not_gt hvw

variable {ops : List Operation} {key : Words} {order : List Operation}

theorem Linearizes.mem_iff (h : Linearizes ops key order) {op : Operation} :
    op ∈ order ↔ op ∈ ops ∧ op.succeeded ∧ op.key = key := by
  rw [h.perm.mem_iff, List.mem_filter, Bool.and_eq_true, beq_iff_eq]

/-- No two operations in a line that versions rise along are evidence against it. -/
theorem LinearizesVersions.not_conflict_not_backwards (h : LinearizesVersions ops key order)
    (hinc : WritesIncrease order) {t u : Operation} (ht : t ∈ order) (hu : u ∈ order) :
    ¬ Conflict t u ∧ ¬ Backwards t u := by
  have hfollows := (pairwise_follows h.values h.versions hinc).1
  have hforth := hfollows.imp fun h => And.intro h.not_conflict h.not_backwards
  have hback : order.Pairwise fun t u => ¬ Conflict u t ∧ ¬ Backwards u t :=
    (hfollows.and h.realTime).imp fun ⟨hf, hreal⟩ =>
      ⟨fun hconf => hf.not_conflict hconf.symm, fun hb => hreal hb.2.2.2.1⟩
  have hself : ∀ t ∈ order, ¬ Conflict t t ∧ ¬ Backwards t t := fun t _ =>
    have hf : Follows t t := .inl ⟨rfl, rfl⟩
    ⟨hf.not_conflict, hf.not_backwards⟩
  exact hforth.forall_of_forall_of_flip hself hback ht hu

/-- The last write in front of a read is one that the read was not over before. -/
theorem Linearizes.of_lastWrite?_eq (h : Linearizes ops key order) {before after : List Operation}
    {read w : Operation} (hsplit : order = before ++ read :: after)
    (hw : lastWrite? before = some w) :
    w ∈ ops ∧ w.succeeded ∧ w.isWrite ∧ w.key = key ∧ ¬ read.Precedes w := by
  obtain ⟨hbefore, hwrite⟩ := mem_of_lastWrite?_eq hw
  have hmem : w ∈ order := hsplit ▸ List.mem_append_left _ hbefore
  obtain ⟨hops, hsucc, hkey⟩ := h.mem_iff.mp hmem
  have hreal := h.realTime
  rw [hsplit, List.pairwise_append] at hreal
  exact ⟨hops, hsucc, hwrite, hkey, hreal.2.2 w hbefore read (List.mem_cons_self ..)⟩

/-- A successful write of the value and the version that a read returned, begun before the read was
over. -/
def Observes (read w : Operation) : Prop :=
  w.succeeded ∧ w.isWrite ∧ w.key = read.key ∧ w.value = read.value ∧ w.version = read.version ∧
    ¬ read.Precedes w

instance : DecidableRel Observes := fun _ _ => inferInstanceAs (Decidable (_ ∧ _))

theorem LinearizesVersions.exists_observes (h : LinearizesVersions ops key order)
    {read : Operation} (hmem : read ∈ order) (hread : read.isRead) :
    ∃ w ∈ ops, Observes read w := by
  obtain ⟨before, after, hsplit⟩ := List.append_of_mem hmem
  obtain ⟨w, hw, hval⟩ := h.values before read after hsplit hread
  obtain ⟨w', hw', hver⟩ := h.versions before read after hsplit hread
  obtain rfl : w = w' := Option.some.inj (hw.symm.trans hw')
  obtain ⟨hops, hsucc, hwrite, hkey, hreal⟩ := h.of_lastWrite?_eq hsplit hw
  exact ⟨w, hops, hsucc, hwrite, hkey.trans (h.mem_iff.mp hmem).2.2.symm, hval, hver, hreal⟩

/-- An audit finds nothing if every key has a line along which the versions of its writes rise and
its reads agree with the last write in value and version. -/
theorem audit_of_linearizesVersions (ops : List Operation) (matchVersion : Bool)
    (h : ∀ key, ∃ order, LinearizesVersions ops key order ∧ WritesIncrease order) :
    audit ops (.ofOperations ops) matchVersion = ⟨.strong, []⟩ := by
  have hclean : ∀ t ∈ ops, ∀ u ∈ ops, ¬ Conflict t u ∧ ¬ Backwards t u := by
    intro t ht u hu
    obtain ⟨order, hline, hinc⟩ := h t.key
    by_cases hsame : t.succeeded ∧ u.succeeded ∧ t.key = u.key
    · obtain ⟨hts, hus, hkey⟩ := hsame
      exact hline.not_conflict_not_backwards hinc (hline.mem_iff.mpr ⟨ht, hts, rfl⟩)
        (hline.mem_iff.mpr ⟨hu, hus, hkey.symm⟩)
    · exact ⟨fun hc => hsame ⟨hc.1, hc.2.1, hc.2.2.1⟩, fun hb => hsame ⟨hb.1, hb.2.1, hb.2.2.1⟩⟩
  have hsound : Sound ops (.ofOperations ops) matchVersion := by
    refine sound_of_exists_write matchVersion (fun t ht u hu => (hclean t ht u hu).1) ?_
    intro op hop hsucc hread
    obtain ⟨order, hline, -⟩ := h op.key
    have hmem := hline.mem_iff.mpr ⟨hop, hsucc, rfl⟩
    obtain ⟨w, hw, hws, hww, hkey, hval, hver, -⟩ := hline.exists_observes hmem hread
    exact ⟨w, hw, hws, hww, hkey, hval, hver⟩
  have hnil : violations ops (.ofOperations ops) matchVersion = [] := violations_eq_nil_iff.mpr
    ⟨hsound, rankedPairs_backwards_eq_empty fun t ht u hu => (hclean t ht u hu).2⟩
  rw [audit, hnil]
  rfl

/-- A write that spans another and the read of that, beside a write that failed. -/
def spanning : List Operation :=
  [⟨0, .write, [1], [8], 0, 10, some 2, .success⟩, ⟨1, .write, [1], [7], 2, 6, some 1, .success⟩,
    ⟨2, .write, [1], [9], 3, 5, none, .failure⟩, ⟨3, .read, [1], [7], 7, 9, some 1, .success⟩]

theorem audit_spanning : audit spanning (.ofOperations spanning) true = ⟨.strong, []⟩ := by
  refine audit_of_linearizesVersions spanning true fun key => ?_
  by_cases hkey : [1] = key
  · subst hkey
    let line : List Operation :=
      [⟨1, .write, [1], [7], 2, 6, some 1, .success⟩, ⟨3, .read, [1], [7], 7, 9, some 1, .success⟩,
        ⟨0, .write, [1], [8], 0, 10, some 2, .success⟩]
    exact ⟨line, ⟨⟨by decide, by decide, by decide⟩, by decide⟩, by decide⟩
  · have hnone : (spanning.filter fun op => op.succeeded && op.key == key) = [] := by
      simp [spanning, hkey]
    exact ⟨[], ⟨⟨hnone ▸ .nil, .nil, by decide⟩, by decide⟩, .nil⟩

end StoreAudit.Consistency
