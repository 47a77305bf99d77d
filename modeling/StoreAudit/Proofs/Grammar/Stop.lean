import StoreAudit.Proofs.Grammar.Phrase

/-! Where grammars stop. What a grammar has taken when it stops is the beginning of a phrase, so
that a text that it reads can be made of it. -/
namespace StoreAudit.Grammar
variable {α β τ σ : Type} {p : Char → Bool} {cs : List Char} {s : Stop}

/-- What `g` takes off the front is the text of a phrase, and what it has taken when it stops is the
beginning of the text of one. -/
structure StopsInPhrase (g : Grammar α) (text : τ → List Char) : Prop where
  taken : ∀ cs a rest, g cs = .ok (a, rest) → ∃ t, cs = text t ++ rest
  stopped : ∀ cs s, g cs = .error s → ∃ front, cs = front ++ s.rest ∧ ∃ t, front <+: text t

instance : Nonempty Gap := ⟨.space⟩

instance : Nonempty Numeral := ⟨.ofNat 0 (by decide)⟩

theorem rest_eq_of_run (h : run p cs = .error s) : s.rest = cs := by
  unfold run at h
  split at h <;> cases h
  rfl

theorem rest_eq_of_gap (h : gap cs = .error s) : s.rest = cs := by
  unfold gap at h
  split at h
  · cases h
  · next hrun =>
    cases h
    exact rest_eq_of_run hrun

theorem rest_eq_of_integer (h : integer cs = .error s) : s.rest = cs := by
  by_cases hzero : cs.head? = some '0'
  · obtain ⟨tail, rfl⟩ := List.head?_eq_some_iff.mp hzero
    cases h
  · rw [integer_eq_run hzero] at h
    cases hrun : run Char.isDigit cs with
    | error s' =>
      rw [hrun] at h
      cases h
      exact rest_eq_of_run hrun
    | ok r =>
      rw [hrun] at h
      simp only [bind, Except.bind] at h
      split_ifs at h
      cases h
      rfl

theorem rest_eq_of_literal {spelling : String} (h : literal spelling cs = .error s) :
    s.rest = cs := by
  unfold literal at h
  split at h <;> cases h
  rfl

theorem rest_eq_of_oneOf {table : List (String × α)} (h : oneOf table cs = .error s) :
    s.rest = cs := by
  unfold oneOf at h
  split at h <;> cases h
  rfl

section Combinators
variable {g : Grammar α} {text : τ → List Char}

/-- Nothing at all is the beginning of any phrase. -/
theorem StopsInPhrase.of_rest_eq [Nonempty τ]
    (htaken : ∀ cs a rest, g cs = .ok (a, rest) → ∃ t, cs = text t ++ rest)
    (hstop : ∀ cs s, g cs = .error s → s.rest = cs) : StopsInPhrase g text where
  taken := htaken
  stopped := by
    intro cs s h
    obtain ⟨t⟩ := ‹Nonempty τ›
    exact ⟨[], (hstop cs s h).symm, t, List.nil_prefix⟩

theorem StopsInPhrase.of_recognises [Nonempty τ] {value : τ → α} {follow : List Char → Prop}
    (h : Recognises g text value follow) (hstop : ∀ cs s, g cs = .error s → s.rest = cs) :
    StopsInPhrase g text := by
  refine .of_rest_eq (fun cs a rest hg => ?_) hstop
  obtain ⟨t, hcs, -⟩ := h.sound cs a rest hg
  exact ⟨t, hcs⟩

theorem StopsInPhrase.pure (a : α) : StopsInPhrase (Pure.pure a : Grammar α) (fun _ : Unit => []) :=
  .of_recognises (.pure a fun _ => True) nofun

theorem stopsInPhrase_literal (spelling : String) :
    StopsInPhrase (literal spelling) (fun _ : Unit => spelling.toList) :=
  .of_rest_eq (fun _ _ _ h => ⟨(), literal_eq_ok_iff.mp h⟩) fun _ _ => rest_eq_of_literal

/-- A phrase that has been begun can be gone on with, whatever phrase follows it. -/
theorem StopsInPhrase.bind [Nonempty σ] {f : α → Grammar β} {text' : σ → List Char}
    (hg : StopsInPhrase g text) (hf : ∀ a, StopsInPhrase (f a) text') :
    StopsInPhrase (g >>= f) (fun t : τ × σ => text t.1 ++ text' t.2) where
  taken := by
    intro cs b rest h
    obtain ⟨a, mid, ha, hb⟩ := bind_eq_ok_iff.mp h
    obtain ⟨t, rfl⟩ := hg.taken cs a mid ha
    obtain ⟨t', rfl⟩ := (hf a).taken mid b rest hb
    exact ⟨(t, t'), (List.append_assoc ..).symm⟩
  stopped := by
    intro cs s h
    cases hcs : g cs with
    | error s' =>
      obtain rfl : s' = s := Except.error.inj ((bind_eq_error hcs).symm.trans h)
      obtain ⟨front, hfront, t, hbegins⟩ := hg.stopped cs s' hcs
      obtain ⟨t'⟩ := ‹Nonempty σ›
      exact ⟨front, hfront, (t, t'), hbegins.trans (List.prefix_append _ _)⟩
    | ok r =>
      obtain ⟨a, mid⟩ := r
      rw [bind_eq hcs] at h
      obtain ⟨t, rfl⟩ := hg.taken cs a mid hcs
      obtain ⟨front, rfl, t', hbegins⟩ := (hf a).stopped mid s h
      refine ⟨text t ++ front, (List.append_assoc ..).symm, (t, t'), ?_⟩
      exact (List.prefix_append_right_inj _).mpr hbegins

/-- Phrases may be named by anything that stands for them. -/
theorem StopsInPhrase.of_map (h : StopsInPhrase g text) (name : τ → σ) {text' : σ → List Char}
    (htext : ∀ t, text t = text' (name t)) : StopsInPhrase g text' where
  taken := by
    intro cs a rest hg
    obtain ⟨t, hcs⟩ := h.taken cs a rest hg
    exact ⟨name t, htext t ▸ hcs⟩
  stopped := by
    intro cs s hg
    obtain ⟨front, hcs, t, hbegins⟩ := h.stopped cs s hg
    exact ⟨front, hcs, name t, htext t ▸ hbegins⟩

theorem StopsInPhrase.map (h : StopsInPhrase g text) (f : α → β) :
    StopsInPhrase (g >>= fun a => Pure.pure (f a)) text :=
  (h.bind fun a => .pure (f a)).of_map Prod.fst fun _ => List.append_nil _

theorem StopsInPhrase.literal_bind [Nonempty τ] (spelling : String) (h : StopsInPhrase g text) :
    StopsInPhrase (literal spelling >>= fun _ => g) (fun t => spelling.toList ++ text t) :=
  ((stopsInPhrase_literal spelling).bind fun _ => h).of_map Prod.snd fun _ => rfl

theorem StopsInPhrase.hinting (h : StopsInPhrase g text) (hint : Hint) :
    StopsInPhrase (hinting hint g) text where
  taken := fun cs a rest hg => h.taken cs a rest (hinting_eq_ok_iff.mp hg)
  stopped := by
    intro cs s hg
    unfold Grammar.hinting at hg
    cases hcs : g cs with
    | ok r =>
      rw [hcs] at hg
      cases hg
    | error s' =>
      rw [hcs] at hg
      cases hg
      exact h.stopped cs s' hcs

theorem StopsInPhrase.enclosed [Nonempty τ] (h : StopsInPhrase g text) (opening closing : String) :
    StopsInPhrase
      (do literal opening; let a ← g; literal closing; return a)
      (fun t => opening.toList ++ (text t ++ closing.toList)) := by
  have hbind := h.bind fun a => (stopsInPhrase_literal closing).map fun _ => a
  exact .literal_bind opening (hbind.of_map Prod.fst fun _ => rfl)

theorem StopsInPhrase.field [Nonempty τ] (h : StopsInPhrase g text) (name : String) :
    StopsInPhrase (field name g) (fun t => fieldPhrase name (text t)) := by
  have hvalue := (h.hinting (.invalid "field value")).literal_bind ":"
  have hname := ((stopsInPhrase_literal name).hinting (.expected [name])).bind fun _ => hvalue
  exact hname.of_map Prod.snd fun _ => rfl

/-- Only the second of two grammars is left to stop. -/
theorem StopsInPhrase.either {g' : Grammar α} (h : StopsInPhrase g text)
    (h' : StopsInPhrase g' text) : StopsInPhrase (either g g') text where
  taken := by
    intro cs a rest hg
    rcases either_eq_ok_iff.mp hg with hg | ⟨-, hg⟩
    · exact h.taken cs a rest hg
    · exact h'.taken cs a rest hg
  stopped := by
    intro cs s hg
    unfold Grammar.either at hg
    split at hg
    · cases hg
    · exact h'.stopped cs s hg

/-- An optional phrase may be missing, so that nothing stops there. -/
theorem StopsInPhrase.optional (h : StopsInPhrase g text) :
    StopsInPhrase (optional g) (optionalText text) where
  taken := by
    intro cs a rest hg
    unfold Grammar.optional at hg
    cases hcs : g cs with
    | ok r =>
      rw [hcs] at hg
      cases hg
      obtain ⟨t, ht⟩ := h.taken cs r.1 r.2 hcs
      exact ⟨some t, ht⟩
    | error s =>
      rw [hcs] at hg
      cases hg
      exact ⟨none, rfl⟩
  stopped := by
    intro cs s hg
    unfold Grammar.optional at hg
    cases hcs : g cs <;> rw [hcs] at hg <;> cases hg

theorem stopsInPhrase_gap : StopsInPhrase gap (Run.text : Gap → List Char) :=
  .of_recognises recognises_gap fun _ _ => rest_eq_of_gap

/-- A phrase, a gap and another phrase. -/
theorem StopsInPhrase.gap_bind [Nonempty σ] {f : α → Grammar β} {text' : σ → List Char}
    (h : StopsInPhrase g text) (hf : ∀ a, StopsInPhrase (f a) text') :
    StopsInPhrase (g >>= fun a => gap >>= fun _ => f a)
      (fun t : (τ × Gap) × σ => text t.1.1 ++ (t.1.2.text ++ text' t.2)) := by
  have hbind := h.bind fun a => stopsInPhrase_gap.bind fun _ => hf a
  exact hbind.of_map (Equiv.prodAssoc τ Gap σ).symm fun _ => rfl

/-- A line that is refused begins like one that is read. -/
theorem StopsInPhrase.readLine {line : String} (h : StopsInPhrase g text)
    (hline : readLine g line = .error s) : ∃ front, line.toList = front ++ s.rest ∧
      ∃ t : Trailed τ, front <+: text t.phrase ++ t.trailing := by
  unfold Grammar.readLine at hline
  cases hg : g line.toList with
  | error s' =>
    rw [hg] at hline
    cases hline
    obtain ⟨front, hfront, t, hbegins⟩ := h.stopped _ _ hg
    exact ⟨front, hfront, ⟨t, [], List.forall_mem_nil _⟩, by rwa [List.append_nil]⟩
  | ok r =>
    obtain ⟨a, rest⟩ := r
    obtain ⟨t, ht⟩ := h.taken _ a rest hg
    simp only [hg, Bind.bind, Except.bind] at hline
    split at hline <;> cases hline
    -- All that can be read has been read, and the blanks behind it have been skipped.
    refine ⟨text t ++ rest.takeWhile isGap, ?_,
      ⟨t, rest.takeWhile isGap, fun c hc => List.mem_takeWhile_imp hc⟩, List.prefix_rfl⟩
    rw [ht, List.append_assoc, List.takeWhile_append_dropWhile]

end Combinators

/-- A gap that is only looked for adds nothing to a phrase. -/
theorem stopsInPhrase_ahead_gap : StopsInPhrase (ahead gap) (fun _ : Unit => []) := by
  refine .of_rest_eq (fun cs _ rest h => ⟨(), (ahead_gap_eq_ok_iff.mp h).2⟩) fun cs s h => ?_
  unfold ahead at h
  split at h <;> cases h
  rfl

theorem stopsInPhrase_integer : StopsInPhrase integer (fun n : Numeral => n.text) :=
  .of_recognises recognises_integer fun _ _ => rest_eq_of_integer

theorem stopsInPhrase_someIntegers : StopsInPhrase someIntegers Numbers.text := by
  have hmore := StopsInPhrase.of_recognises recognises_moreIntegers nofun
  have hcons (n : Nat) := hmore.map fun ns => n :: ns
  exact stopsInPhrase_integer.bind hcons

theorem stopsInPhrase_integers : StopsInPhrase integers (optionalText Numbers.text) := by
  refine .of_recognises recognises_integers fun cs s h => ?_
  unfold integers at h
  cases hsome : someIntegers cs <;> rw [hsome] at h <;> cases h

theorem stopsInPhrase_someWords : StopsInPhrase someWords (fun ns : Numbers => bracketed ns.text) :=
  stopsInPhrase_someIntegers.enclosed "[" "]"

theorem stopsInPhrase_words :
    StopsInPhrase words (fun ns : Option Numbers => bracketed (optionalText Numbers.text ns)) :=
  stopsInPhrase_integers.enclosed "[" "]"

theorem stopsInPhrase_truth : StopsInPhrase truth (fun b : Bool => (toString b).toList) :=
  .of_recognises recognises_truth fun _ _ => rest_eq_of_oneOf

end StoreAudit.Grammar
