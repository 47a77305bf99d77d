import Mathlib.Logic.Equiv.Prod
import StoreAudit.Proofs.Grammar.Leaf

/-! Grammars as descriptions of texts. The phrases of a grammar are the ways in which the text that it
takes may be put together, and a text is put together in one way only. -/
namespace StoreAudit.Grammar
variable {α β τ σ : Type} {p : Char → Bool} {cs rest : List Char}

/-- `g` takes the text of a phrase off the front wherever what stands behind meets `follow`, and
yields its value. It takes nothing else. There a text tells the phrase that stands at its front. -/
structure Recognises (g : Grammar α) (text : τ → List Char) (value : τ → α)
    (follow : List Char → Prop) : Prop where
  sound : ∀ cs a rest, g cs = .ok (a, rest) → ∃ t, cs = text t ++ rest ∧ value t = a
  complete : ∀ t rest, follow rest → g (text t ++ rest) = .ok (value t, rest)
  unique : ∀ t t' rest rest', follow rest → follow rest' → text t ++ rest = text t' ++ rest' →
    t = t' ∧ rest = rest'

section Combinators
variable {g : Grammar α} {text : τ → List Char} {value : τ → α} {follow : List Char → Prop}

/-- What is taken first determines what is left, so that phrases that differ as texts need no more. -/
theorem Recognises.of_injective
    (hsound : ∀ cs a rest, g cs = .ok (a, rest) → ∃ t, cs = text t ++ rest ∧ value t = a)
    (hcomplete : ∀ t rest, follow rest → g (text t ++ rest) = .ok (value t, rest))
    (hinjective : Function.Injective text) : Recognises g text value follow where
  sound := hsound
  complete := hcomplete
  unique := by
    intro t t' rest rest' hrest hrest' heq
    have hg := hcomplete t rest hrest
    rw [heq, hcomplete t' rest' hrest'] at hg
    obtain rfl : rest' = rest := congrArg Prod.snd (Except.ok.inj hg)
    exact ⟨hinjective (List.append_cancel_right heq), rfl⟩

theorem Recognises.pure (a : α) (follow : List Char → Prop) :
    Recognises (Pure.pure a : Grammar α) (fun _ : Unit => []) (fun _ => a) follow := by
  refine .of_injective ?_ (fun _ _ _ => rfl) (fun _ _ _ => rfl)
  intro cs b rest h
  cases h
  exact ⟨(), rfl, rfl⟩

theorem Recognises.bind {f : α → Grammar β} {text' : σ → List Char} {value' : α → σ → β}
    {follow' : List Char → Prop} (hg : Recognises g text value follow)
    (hf : ∀ a, Recognises (f a) text' (value' a) follow')
    (hfollow : ∀ t' rest, follow' rest → follow (text' t' ++ rest)) :
    Recognises (g >>= f) (fun t : τ × σ => text t.1 ++ text' t.2)
      (fun t => value' (value t.1) t.2) follow' where
  sound := by
    intro cs b rest h
    obtain ⟨a, mid, ha, hb⟩ := bind_eq_ok_iff.mp h
    obtain ⟨t, rfl, rfl⟩ := hg.sound cs a mid ha
    obtain ⟨t', rfl, rfl⟩ := (hf _).sound mid b rest hb
    exact ⟨(t, t'), (List.append_assoc ..).symm, rfl⟩
  complete := by
    intro t rest hrest
    rw [List.append_assoc, bind_eq (hg.complete t.1 _ (hfollow t.2 rest hrest))]
    exact (hf _).complete t.2 rest hrest
  unique := by
    intro t s rest rest' hrest hrest' heq
    rw [List.append_assoc, List.append_assoc] at heq
    obtain ⟨hfst, heq⟩ :=
      hg.unique _ _ _ _ (hfollow t.2 rest hrest) (hfollow s.2 rest' hrest') heq
    obtain ⟨hsnd, heq⟩ := (hf (value t.1)).unique _ _ _ _ hrest hrest' heq
    exact ⟨Prod.ext hfst hsnd, heq⟩

/-- A fixed text adds nothing to a phrase but itself. -/
theorem Recognises.literal_bind (s : String) (h : Recognises g text value follow) :
    Recognises (literal s >>= fun _ => g) (fun t => s.toList ++ text t) value follow where
  sound := by
    intro cs a rest hg
    obtain ⟨_, mid, hs, ha⟩ := bind_eq_ok_iff.mp hg
    obtain rfl := literal_eq_ok_iff.mp hs
    obtain ⟨t, rfl, rfl⟩ := h.sound mid a rest ha
    exact ⟨t, (List.append_assoc ..).symm, rfl⟩
  complete := by
    intro t rest hrest
    rw [List.append_assoc, bind_eq (literal_append s)]
    exact h.complete t rest hrest
  unique := by
    intro t t' rest rest' hrest hrest' heq
    rw [List.append_assoc, List.append_assoc] at heq
    exact h.unique _ _ _ _ hrest hrest' (List.append_cancel_left heq)

theorem Recognises.hinting (h : Recognises g text value follow) (hint : Hint) :
    Recognises (hinting hint g) text value follow where
  sound := fun cs a rest hg => h.sound cs a rest (hinting_eq_ok_iff.mp hg)
  complete := fun t rest hrest => hinting_eq_ok_iff.mpr (h.complete t rest hrest)
  unique := h.unique

theorem Recognises.weaken (h : Recognises g text value follow) {follow' : List Char → Prop}
    (hfollow : ∀ rest, follow' rest → follow rest) : Recognises g text value follow' where
  sound := h.sound
  complete := fun t rest hrest => h.complete t rest (hfollow rest hrest)
  unique := fun t t' rest rest' hrest hrest' =>
    h.unique t t' rest rest' (hfollow rest hrest) (hfollow rest' hrest')

/-- Phrases may be named by anything that stands for them one to one. -/
theorem Recognises.of_equiv (e : σ ≃ τ) (h : Recognises g text value follow)
    {text' : σ → List Char} {value' : σ → α} (htext : ∀ s, text' s = text (e s))
    (hvalue : ∀ s, value' s = value (e s)) : Recognises g text' value' follow where
  sound := by
    intro cs a rest hg
    obtain ⟨t, hcs, ha⟩ := h.sound cs a rest hg
    refine ⟨e.symm t, ?_, ?_⟩
    · rwa [htext, e.apply_symm_apply]
    · rwa [hvalue, e.apply_symm_apply]
  complete := by
    intro s rest hrest
    rw [htext, hvalue]
    exact h.complete (e s) rest hrest
  unique := by
    intro s s' rest rest' hrest hrest' heq
    rw [htext, htext] at heq
    obtain ⟨hs, heq⟩ := h.unique _ _ _ _ hrest hrest' heq
    exact ⟨e.injective hs, heq⟩

theorem Recognises.map (h : Recognises g text value follow) (f : α → β) :
    Recognises (g >>= fun a => Pure.pure (f a)) text (fun t => f (value t)) follow := by
  have hbind := h.bind (fun a => .pure (f a) follow) fun _ _ hrest => hrest
  exact hbind.of_equiv (Equiv.prodPUnit τ).symm (fun _ => (List.append_nil _).symm) fun _ => rfl

/-- Between two fixed texts nothing has to be known of what stands behind. -/
theorem Recognises.enclosed (h : Recognises g text value follow) (opening closing : String)
    (hfollow : ∀ rest, follow (closing.toList ++ rest)) :
    Recognises (do literal opening; let a ← g; literal closing; return a)
      (fun t => opening.toList ++ (text t ++ closing.toList)) value fun _ => True := by
  have hclosing (a : α) : Recognises (literal closing >>= fun _ => Pure.pure a)
      (fun _ : Unit => closing.toList ++ []) (fun _ => a) fun _ => True :=
    .literal_bind closing (.pure a _)
  have hbind := h.bind hclosing fun _ rest _ => by
    rw [List.append_nil]
    exact hfollow rest
  refine .literal_bind opening (hbind.of_equiv (Equiv.prodPUnit τ).symm (fun t => ?_) fun _ => rfl)
  exact congrArg (text t ++ ·) (List.append_nil _).symm

/-- The text of an optional phrase. -/
def optionalText (text : τ → List Char) : Option τ → List Char
  | none => []
  | some t => text t

theorem Recognises.optional (h : Recognises g text value follow) :
    Recognises (optional g) (optionalText text) (fun t => t.map value)
      fun rest => follow rest ∧ ∀ t rest', rest ≠ text t ++ rest' where
  sound := by
    intro cs a rest hg
    unfold Grammar.optional at hg
    cases hcs : g cs with
    | ok r =>
      rw [hcs] at hg
      cases hg
      obtain ⟨t, ht, hvalue⟩ := h.sound cs r.1 r.2 hcs
      exact ⟨some t, ht, congrArg some hvalue⟩
    | error s =>
      rw [hcs] at hg
      cases hg
      exact ⟨none, rfl, rfl⟩
  complete := by
    intro t rest hrest
    cases t with
    | some t => exact optional_of_ok (h.complete t rest hrest.1)
    | none =>
      cases hg : g rest with
      | error s => exact optional_of_error hg
      | ok r =>
        obtain ⟨t, ht, -⟩ := h.sound rest r.1 r.2 hg
        exact absurd ht (hrest.2 t r.2)
  unique := by
    intro t t' rest rest' hrest hrest' heq
    cases t with
    | none =>
      cases t' with
      | none => exact ⟨rfl, heq⟩
      | some t' => exact absurd heq (hrest.2 t' rest')
    | some t =>
      cases t' with
      | none => exact absurd heq.symm (hrest'.2 t rest)
      | some t' =>
        obtain ⟨ht, heq⟩ := h.unique _ _ _ _ hrest.1 hrest'.1 heq
        exact ⟨congrArg some ht, heq⟩

/-- A field as it is written: its name, a colon and its value. -/
def fieldPhrase (name : String) (text : List Char) : List Char :=
  name.toList ++ (":".toList ++ text)

theorem Recognises.field (h : Recognises g text value follow) (name : String) :
    Recognises (field name g) (fun t => fieldPhrase name (text t)) value follow where
  sound := by
    intro cs a rest hg
    obtain ⟨_, rfl, hvalue⟩ := field_eq_ok_iff.mp hg
    obtain ⟨t, rfl, rfl⟩ := h.sound _ a rest hvalue
    exact ⟨t, by rw [fieldPhrase, List.append_assoc, List.append_assoc], rfl⟩
  complete := by
    intro t rest hrest
    rw [field_eq_ok_iff, fieldPhrase, List.append_assoc, List.append_assoc]
    exact ⟨_, rfl, h.complete t rest hrest⟩
  unique := by
    intro t t' rest rest' hrest hrest' heq
    unfold fieldPhrase at heq
    rw [List.append_assoc, List.append_assoc, List.append_assoc, List.append_assoc] at heq
    exact h.unique _ _ _ _ hrest hrest' (List.append_cancel_left (List.append_cancel_left heq))

end Combinators

/-- Characters of the class, at least one. -/
@[ext] structure Run (p : Char → Bool) where
  text : List Char
  nonempty : text ≠ []
  all : ∀ c ∈ text, p c

/-- Spaces and tabs, at least one. -/
abbrev Gap := Run isGap

/-- `0`, or digits of which the first is not `0`, for a number below 2^64. -/
structure Numeral extends Run Char.isDigit where
  leading : text.head? = some '0' → text = ['0']
  small : valueOf text < wordLimit

/-- One or more numerals with gaps between them. -/
abbrev Numbers := Numeral × List (Gap × Numeral)

namespace Run

theorem stops (r : Run p) {q : Char → Bool} (h : ∀ c, p c → q c = false) :
    Stops q (r.text ++ rest) :=
  (stops_append r.nonempty).mpr (stops_of_forall fun c hc => h c (r.all c hc))

theorem ne_append (r : Run p) (hrest : Stops p rest) (cs : List Char) : rest ≠ r.text ++ cs := by
  rintro rfl
  obtain ⟨c, tail, htext⟩ := List.exists_cons_of_ne_nil r.nonempty
  have hc : p c := r.all c (htext ▸ List.mem_cons_self)
  rw [htext, List.cons_append, stops_cons, hc] at hrest
  exact Bool.noConfusion hrest

end Run

theorem Gap.stops (gap : Gap) (hspace : p ' ' = false) (htab : p '\t' = false) :
    Stops p (gap.text ++ rest) := by
  refine Run.stops gap fun c hc => ?_
  rcases isGap_iff.mp hc with rfl | rfl
  · exact hspace
  · exact htab

theorem Gap.not_stops (gap : Gap) : ¬ Stops isGap (gap.text ++ rest) := by
  obtain ⟨c, tail, htext⟩ := List.exists_cons_of_ne_nil gap.nonempty
  have hc : isGap c := gap.all c (htext ▸ List.mem_cons_self)
  rw [htext, List.cons_append, stops_cons, hc]
  exact Bool.noConfusion

/-- One space. -/
def Gap.space : Gap := ⟨" ".toList, by decide, List.all_eq_true.mp rfl⟩

theorem recognises_run (p : Char → Bool) : Recognises (run p) (Run.text (p := p)) Run.text (Stops p) := by
  refine .of_injective ?_ (fun t rest hrest => run_append t.nonempty t.all hrest)
    (fun _ _ => Run.ext)
  intro cs taken rest h
  obtain ⟨hne, hall⟩ := all_of_run h
  obtain ⟨-, rfl, rfl⟩ := run_eq_ok h
  exact ⟨⟨_, hne, hall⟩, List.takeWhile_append_dropWhile.symm, rfl⟩

theorem recognises_gap : Recognises gap (Run.text : Gap → List Char) (fun _ => ()) (Stops isGap) := by
  have h := (recognises_run isGap).map fun _ => ()
  have heq : gap = run isGap >>= fun _ => Pure.pure () := by
    funext cs
    unfold gap
    cases hrun : run isGap cs with
    | ok r => exact (bind_eq (f := fun _ => Pure.pure ()) hrun).symm
    | error s => exact (bind_eq_error hrun).symm
  rw [heq]
  exact h

section
variable {g : Grammar α} {text : τ → List Char} {value : τ → α} {follow : List Char → Prop}

/-- Of what stands in front of a gap, only what may stand behind the gap has to be known. -/
theorem Recognises.gap_bind {f : α → Grammar β} {text' : σ → List Char}
    {value' : α → σ → β} {follow' : List Char → Prop} (h : Recognises g text value follow)
    (hfollow : ∀ (gap : Gap) rest, follow (gap.text ++ rest))
    (hf : ∀ a, Recognises (f a) text' (value' a) follow')
    (hgap : ∀ t' rest, Stops isGap (text' t' ++ rest)) :
    Recognises (g >>= fun a => gap >>= fun _ => f a)
      (fun t : (τ × Gap) × σ => text t.1.1 ++ (t.1.2.text ++ text' t.2))
      (fun t => value' (value t.1.1) t.2) follow' := by
  have hbind := h.bind (fun a => recognises_gap.bind (fun _ => hf a) fun t' rest _ => hgap t' rest)
    fun t' rest _ => by
      rw [List.append_assoc]
      exact hfollow t'.1 _
  exact hbind.of_equiv (Equiv.prodAssoc τ Gap σ) (fun _ => rfl) fun _ => rfl

end

namespace Numeral

def value (n : Numeral) : Nat := valueOf n.text

theorem stops_isGap (n : Numeral) : Stops isGap (n.text ++ rest) :=
  n.stops fun _ hc => isGap_eq_false_of_isDigit hc

theorem text_injective : Function.Injective fun n : Numeral => n.text := by
  rintro ⟨⟨text, _, _⟩, _, _⟩ ⟨⟨_, _, _⟩, _, _⟩ rfl
  rfl

/-- The numeral that a number is written as. -/
def ofNat (n : Nat) (h : n < wordLimit) : Numeral where
  text := (toString n).toList
  nonempty := toString_ne_nil n
  all _ := isDigit_of_mem_toString
  leading := by
    intro hzero
    by_cases hn : n = 0
    · subst hn
      rfl
    · rw [← List.append_nil (toString n).toList] at hzero
      exact absurd hzero (head?_toString_ne_zero hn)
  small := (valueOf_toString n).symm ▸ h

theorem value_ofNat (n : Nat) (h : n < wordLimit) : (ofNat n h).value = n := valueOf_toString n

end Numeral

theorem integer_of_head?_ne (digits : Run Char.isDigit) (hzero : digits.text.head? ≠ some '0')
    (hrest : Stops Char.isDigit rest) : integer (digits.text ++ rest) =
      if valueOf digits.text < wordLimit then .ok (valueOf digits.text, rest)
      else .error ⟨digits.text ++ rest, none⟩ := by
  have hhead : (digits.text ++ rest).head? ≠ some '0' := by
    rw [List.head?_append, List.head?_eq_some_head digits.nonempty, Option.some_or,
      ← List.head?_eq_some_head digits.nonempty]
    exact hzero
  rw [integer_eq_run hhead, (recognises_run _).complete digits rest hrest]
  rfl

theorem recognises_integer : Recognises integer (fun n : Numeral => n.text) Numeral.value
    (Stops Char.isDigit) := by
  refine .of_injective ?_ ?_ Numeral.text_injective
  · intro cs n rest h
    by_cases hzero : cs.head? = some '0'
    · obtain ⟨tail, rfl⟩ := List.head?_eq_some_iff.mp hzero
      cases h
      exact ⟨⟨⟨['0'], List.cons_ne_nil _ _, List.all_eq_true.mp rfl⟩, fun _ => rfl, by decide⟩,
        rfl, rfl⟩
    · rw [integer_eq_run hzero] at h
      cases hrun : run Char.isDigit cs with
      | error s =>
        rw [hrun] at h
        cases h
      | ok r =>
        obtain ⟨digits, _⟩ := r
        obtain ⟨t, hcs, ht⟩ := (recognises_run _).sound cs digits _ hrun
        rw [hrun] at h
        simp only [bind, Except.bind] at h
        split_ifs at h with hsmall
        cases h
        refine ⟨⟨t, fun hlead => absurd ?_ hzero, ht ▸ hsmall⟩, hcs, congrArg valueOf ht⟩
        rw [hcs, List.head?_append, hlead, Option.some_or]
  · intro n rest hrest
    by_cases hzero : n.text.head? = some '0'
    · rw [Numeral.value, n.leading hzero]
      rfl
    · rw [integer_of_head?_ne n.toRun hzero hrest, if_pos n.small]
      rfl

namespace Numbers

def moreText (more : List (Gap × Numeral)) : List Char :=
  more.flatMap fun (gap, n) => gap.text ++ n.text

def text (ns : Numbers) : List Char := ns.1.text ++ moreText ns.2

def value (ns : Numbers) : Words := ns.1.value :: ns.2.map fun (_, n) => n.value

theorem moreText_cons (gap : Gap) (n : Numeral) (more : List (Gap × Numeral)) :
    moreText ((gap, n) :: more) ++ rest = gap.text ++ (n.text ++ (moreText more ++ rest)) := by
  rw [moreText, List.flatMap_cons, List.append_assoc, List.append_assoc]
  rfl

theorem stops_isDigit_moreText (more : List (Gap × Numeral)) (hrest : Stops Char.isDigit rest) :
    Stops Char.isDigit (moreText more ++ rest) := by
  cases more with
  | nil => exact hrest
  | cons m more =>
    rw [moreText_cons]
    exact Gap.stops m.1 rfl rfl

/-- What is read as further numbers is made up of gaps and numerals. -/
theorem exists_moreText (cs : List Char) : ∃ more, cs = moreText more ++ (moreIntegers cs).2 ∧
    (more.map fun (_, n) => n.value) = (moreIntegers cs).1 := by
  fun_induction moreIntegers cs with
  | case1 cs => exact ⟨[], rfl, rfl⟩
  | case2 cs => exact ⟨[], rfl, rfl⟩
  | case3 cs _ afterGap hgap n rest hn _ ns last hmore ih =>
    obtain ⟨more, hrest, hvalues⟩ := ih
    obtain ⟨gap, rfl, -⟩ := recognises_gap.sound cs () afterGap hgap
    obtain ⟨numeral, rfl, rfl⟩ := recognises_integer.sound afterGap n rest hn
    rw [hmore] at hrest hvalues
    refine ⟨(gap, numeral) :: more, ?_, ?_⟩
    · rw [moreText_cons, ← hrest]
    · rw [List.map_cons, hvalues]

theorem moreIntegers_moreText (more : List (Gap × Numeral)) (hgap : Stops isGap rest)
    (hdigit : Stops Char.isDigit rest) :
    moreIntegers (moreText more ++ rest) = (more.map fun (_, n) => n.value, rest) := by
  induction more with
  | nil => exact moreIntegers_of_gap_error (gap_of_stops hgap)
  | cons m more ih =>
    obtain ⟨gap, n⟩ := m
    rw [moreText_cons, moreIntegers_of_ok (recognises_gap.complete gap _ n.stops_isGap)
      (recognises_integer.complete n _ (stops_isDigit_moreText more hdigit)), ih]
    rfl

theorem moreText_unique {more more' : List (Gap × Numeral)} {rest' : List Char}
    (hgap : Stops isGap rest) (hgap' : Stops isGap rest') (hdigit : Stops Char.isDigit rest)
    (hdigit' : Stops Char.isDigit rest') (heq : moreText more ++ rest = moreText more' ++ rest') :
    more = more' ∧ rest = rest' := by
  induction more generalizing more' with
  | nil =>
    cases more' with
    | nil => exact ⟨rfl, heq⟩
    | cons m' more' =>
      rw [moreText_cons] at heq
      exact absurd heq (m'.1.ne_append hgap _)
  | cons m more ih =>
    cases more' with
    | nil =>
      rw [moreText_cons] at heq
      exact absurd heq.symm (m.1.ne_append hgap' _)
    | cons m' more' =>
      rw [moreText_cons, moreText_cons] at heq
      obtain ⟨hfst, heq⟩ := recognises_gap.unique _ _ _ _ m.2.stops_isGap m'.2.stops_isGap heq
      obtain ⟨hsnd, heq⟩ := recognises_integer.unique _ _ _ _
        (stops_isDigit_moreText more hdigit) (stops_isDigit_moreText more' hdigit') heq
      obtain ⟨hmore, heq⟩ := ih heq
      exact ⟨List.cons_eq_cons.mpr ⟨Prod.ext hfst hsnd, hmore⟩, heq⟩

/-- Numbers as they are written, with one space between neighbours. -/
theorem exists_of_fits {n : Nat} {ns : Words} (h : Words.Fits (n :: ns)) : ∃ numbers : Numbers,
    numbers.text = (" ".intercalate ((n :: ns).map toString)).toList ∧
      numbers.value = n :: ns := by
  obtain ⟨hn, hns⟩ := List.forall_mem_cons.mp h
  obtain ⟨more, htext, hvalue⟩ : ∃ more : List (Gap × Numeral),
      moreText more = (ns.flatMap fun n => ' ' :: (toString n).toList) ∧
        (more.map fun (_, n) => n.value) = ns := by
    clear h
    induction ns with
    | nil => exact ⟨[], rfl, rfl⟩
    | cons m ns ih =>
      obtain ⟨hm, hns⟩ := List.forall_mem_cons.mp hns
      obtain ⟨more, htext, hvalue⟩ := ih hns
      refine ⟨(.space, .ofNat m hm) :: more, ?_, ?_⟩
      · rw [List.flatMap_cons, ← htext]
        rfl
      · rw [List.map_cons, hvalue]
        exact congrArg (· :: ns) (Numeral.value_ofNat m hm)
  refine ⟨(.ofNat n hn, more), ?_, ?_⟩
  · rw [toList_intercalate_toString, ← htext]
    rfl
  · rw [value, hvalue, Numeral.value_ofNat]

end Numbers

theorem recognises_moreIntegers : Recognises (fun cs => .ok (moreIntegers cs)) Numbers.moreText
    (fun more => more.map fun (_, n) => n.value)
    fun rest => Stops isGap rest ∧ Stops Char.isDigit rest where
  sound := by
    intro cs ns rest h
    obtain ⟨more, hcs, hns⟩ := Numbers.exists_moreText cs
    have hmore : moreIntegers cs = (ns, rest) := Except.ok.inj h
    rw [hmore] at hcs hns
    exact ⟨more, hcs, hns⟩
  complete := fun more rest hrest =>
    congrArg Except.ok (Numbers.moreIntegers_moreText more hrest.1 hrest.2)
  unique := fun _ _ _ _ hrest hrest' heq =>
    Numbers.moreText_unique hrest.1 hrest'.1 hrest.2 hrest'.2 heq

theorem recognises_someIntegers : Recognises someIntegers Numbers.text Numbers.value
    fun rest => Stops isGap rest ∧ Stops Char.isDigit rest := by
  have hmore (n : Nat) := recognises_moreIntegers.map fun ns => n :: ns
  exact recognises_integer.bind hmore fun more rest hrest =>
    Numbers.stops_isDigit_moreText more hrest.2

theorem recognises_integers : Recognises integers (optionalText Numbers.text)
    (fun ns => (ns.map Numbers.value).getD [])
    fun rest => Stops isGap rest ∧ Stops Char.isDigit rest := by
  have heq : integers = optional someIntegers >>= fun ns => Pure.pure (ns.getD []) := by
    funext cs
    unfold integers
    cases hsome : someIntegers cs with
    | ok r => exact (bind_eq (f := fun ns => Pure.pure (ns.getD [])) (optional_of_ok hsome)).symm
    | error s =>
      exact (bind_eq (f := fun ns => Pure.pure (ns.getD [])) (optional_of_error hsome)).symm
  rw [heq]
  have h := recognises_someIntegers.optional.map fun ns => ns.getD []
  refine h.weaken fun rest hrest => ⟨hrest, fun ns rest' => ?_⟩
  rw [Numbers.text, List.append_assoc]
  exact ns.1.ne_append hrest.2 _

/-- Numbers in brackets as they are written. -/
def bracketed (text : List Char) : List Char := "[".toList ++ (text ++ "]".toList)

theorem recognises_someWords : Recognises someWords (fun ns : Numbers => bracketed ns.text)
    Numbers.value fun _ => True :=
  recognises_someIntegers.enclosed "[" "]" fun _ => ⟨stops_cons.mpr rfl, stops_cons.mpr rfl⟩

theorem recognises_words : Recognises words
    (fun ns : Option Numbers => bracketed (optionalText Numbers.text ns))
    (fun ns => (ns.map Numbers.value).getD []) fun _ => True :=
  recognises_integers.enclosed "[" "]" fun _ => ⟨stops_cons.mpr rfl, stops_cons.mpr rfl⟩

theorem bracketed_intercalate (w : Words) :
    bracketed (" ".intercalate (w.map toString)).toList = w.render.toList := by
  rw [Words.render, String.toList_append, String.toList_append, List.append_assoc]
  rfl

/-- A list of numbers is written as one that is read as it. -/
theorem exists_numbers {w : Words} (hne : w ≠ []) (h : w.Fits) :
    ∃ ns : Numbers, bracketed ns.text = w.render.toList ∧ ns.value = w := by
  obtain ⟨n, ns, rfl⟩ := List.exists_cons_of_ne_nil hne
  obtain ⟨numbers, htext, hvalue⟩ := Numbers.exists_of_fits h
  exact ⟨numbers, by rw [htext, bracketed_intercalate], hvalue⟩

theorem exists_numbers? {w : Words} (h : w.Fits) : ∃ ns : Option Numbers,
    bracketed (optionalText Numbers.text ns) = w.render.toList ∧
      (ns.map Numbers.value).getD [] = w := by
  by_cases hne : w = []
  · subst hne
    exact ⟨none, rfl, rfl⟩
  · obtain ⟨numbers, htext, hvalue⟩ := exists_numbers hne h
    exact ⟨some numbers, htext, hvalue⟩

theorem recognises_truth : Recognises truth (fun b => (toString b).toList) id fun _ => True := by
  refine .of_injective ?_ (fun b rest _ => truth_append b) ?_
  · intro cs b rest h
    obtain ⟨text, hmem, rfl⟩ := of_oneOf h
    simp only [List.mem_cons, List.not_mem_nil, or_false, Prod.mk.injEq] at hmem
    rcases hmem with ⟨rfl, rfl⟩ | ⟨rfl, rfl⟩
    · exact ⟨true, rfl, rfl⟩
    · exact ⟨false, rfl, rfl⟩
  · intro b b' h
    cases b <;> cases b' <;> first | rfl | cases h

/-- No spelling of the table is the beginning of another. -/
def PrefixFree (table : List (String × α)) : Prop :=
  ∀ p ∈ table, ∀ q ∈ table, p.1.toList <+: q.1.toList → p = q

theorem recognises_oneOf {table : List (String × α)} (h : PrefixFree table) :
    Recognises (oneOf table) (fun p : {p // p ∈ table} => p.1.1.toList) (fun p => p.1.2)
      fun _ => True where
  sound := by
    intro cs a rest hg
    obtain ⟨text, hmem, hcs⟩ := of_oneOf hg
    exact ⟨⟨(text, a), hmem⟩, hcs, rfl⟩
  complete := by
    intro p rest _
    have hself : after? p.1.1.toList (p.1.1.toList ++ rest) = some rest :=
      after?_eq_some_iff.mpr rfl
    -- Whichever spelling the text begins with, it and that of `p` begin the same text.
    have hfirst : ∀ q ∈ table, ∀ last, after? q.1.toList (p.1.1.toList ++ rest) = some last →
        q = p.1 := by
      intro q hq last hlast
      have hprefix : q.1.toList <+: p.1.1.toList ++ rest :=
        ⟨last, (after?_eq_some_iff.mp hlast).symm⟩
      rcases List.prefix_or_prefix_of_prefix hprefix (List.prefix_append _ _) with hqp | hpq
      · exact h q hq p.1 p.2 hqp
      · exact (h p.1 p.2 q hq hpq).symm
    unfold oneOf
    cases hfind : table.findSome? fun q => (after? q.1.toList (p.1.1.toList ++ rest)).map (q.2, ·) with
    | none =>
      have hnone := List.findSome?_eq_none_iff.mp hfind p.1 p.2
      rw [hself] at hnone
      cases hnone
    | some r =>
      obtain ⟨q, hq, hsome⟩ := List.exists_of_findSome?_eq_some hfind
      obtain ⟨last, hlast, rfl⟩ := Option.map_eq_some_iff.mp hsome
      obtain rfl := hfirst q hq last hlast
      rw [hself] at hlast
      cases hlast
      rfl
  unique := by
    intro p q rest rest' _ _ heq
    have hp : p.1.1.toList <+: q.1.1.toList ++ rest' := heq ▸ List.prefix_append _ _
    have hpq : p.1 = q.1 := by
      rcases List.prefix_or_prefix_of_prefix hp (List.prefix_append _ _) with hpq | hqp
      · exact h p.1 p.2 q.1 q.2 hpq
      · exact (h q.1 q.2 p.1 p.2 hqp).symm
    obtain rfl := Subtype.ext hpq
    exact ⟨rfl, List.append_cancel_left heq⟩

/-- A phrase, and spaces and tabs up to the end of the line. -/
structure Trailed (τ : Type) where
  phrase : τ
  trailing : List Char
  blank : ∀ c ∈ trailing, isGap c

/-- A line is read exactly if it is a phrase with spaces and tabs behind it, in one way only. -/
theorem Recognises.readLine {g : Grammar α} {text : τ → List Char} {value : τ → α} {line : String}
    {a : α} (h : Recognises g text value fun _ => True) :
    (readLine g line = .ok a ↔
      ∃ t : Trailed τ, text t.phrase ++ t.trailing = line.toList ∧ value t.phrase = a) ∧
    Function.Injective fun t : Trailed τ => text t.phrase ++ t.trailing := by
  constructor
  · rw [readLine_eq_ok_iff]
    constructor
    · rintro ⟨rest, hg, hblank⟩
      obtain ⟨t, hline, hvalue⟩ := h.sound _ a rest hg
      exact ⟨⟨t, rest, hblank⟩, hline.symm, hvalue⟩
    · rintro ⟨t, hline, rfl⟩
      refine ⟨t.trailing, ?_, t.blank⟩
      rw [← hline]
      exact h.complete t.phrase t.trailing trivial
  · rintro ⟨t, rest, hrest⟩ ⟨t', rest', hrest'⟩ heq
    obtain ⟨rfl, rfl⟩ := h.unique _ _ _ _ trivial trivial heq
    rfl

end StoreAudit.Grammar
