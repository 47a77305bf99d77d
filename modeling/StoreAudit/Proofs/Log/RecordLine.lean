import StoreAudit.Log.RecordLine
import StoreAudit.Proofs.Grammar.Phrase

/-! Of which parts a record line is made, and that an operation is read back from the line that it
is written as, under the id that the reader gives it. -/
namespace StoreAudit
open Grammar

namespace RecordLine
variable {cs rest : List Char}

/-- How results are spelled, those of reads and those of writes. -/
def spellings : List (String × Outcome) :=
  [("true", .success), ("success", .success), ("false", .failure), ("error", .failure),
    ("unknown", .unknown)]

/-- The parts of a record line, each but the last with the gap after it. -/
structure Derivation where
  start : Numeral × Gap
  finish : Numeral × Gap
  action : Action × Gap
  key : Option Numbers × Gap
  value : Option Numbers × Gap
  version : Numeral × Gap
  result : {spelling // spelling ∈ spellings}

namespace Derivation
variable (t : Derivation)

/-- The line that the parts make up. -/
def text : List Char :=
  [t.start.1.text, t.start.2.text, t.finish.1.text, t.finish.2.text,
    t.action.1.name.toList, t.action.2.text,
    bracketed (optionalText Numbers.text t.key.1), t.key.2.text,
    bracketed (optionalText Numbers.text t.value.1), t.value.2.text,
    t.version.1.text, t.version.2.text, t.result.1.1.toList].flatten

/-- The operation that the parts denote. -/
def operation (id : Nat) : Operation where
  id := id
  action := t.action.1
  key := (t.key.1.map Numbers.value).getD []
  value := (t.value.1.map Numbers.value).getD []
  start := t.start.1.value
  finish := t.finish.1.value
  version := some t.version.1.value
  outcome := t.result.1.2

/-- The parts in their order. -/
def parts : Derivation ≃ (Numeral × Gap) × (Numeral × Gap) × (Action × Gap) ×
    (Option Numbers × Gap) × (Option Numbers × Gap) × (Numeral × Gap) ×
      {spelling // spelling ∈ spellings} where
  toFun t := ⟨t.start, t.finish, t.action, t.key, t.value, t.version, t.result⟩
  invFun := fun ⟨start, finish, action, key, value, version, result⟩ =>
    ⟨start, finish, action, key, value, version, result⟩
  left_inv _ := rfl
  right_inv _ := rfl

end Derivation

/-- A word with a gap behind it, which is not taken. -/
theorem word_eq_ok_iff {s : String} {a b : Action} :
    (do literal s; ahead gap; return a : Grammar Action) cs = .ok (b, rest) ↔
      b = a ∧ cs = s.toList ++ rest ∧ ¬ Stops isGap rest := by
  constructor
  · intro h
    obtain ⟨_, mid, hs, h⟩ := bind_eq_ok_iff.mp h
    obtain ⟨_, mid', hgap, h⟩ := bind_eq_ok_iff.mp h
    obtain ⟨hopen, rfl⟩ := ahead_gap_eq_ok_iff.mp hgap
    cases h
    exact ⟨rfl, literal_eq_ok_iff.mp hs, hopen⟩
  · rintro ⟨rfl, rfl, hopen⟩
    rw [bind_eq (literal_append s), bind_eq (ahead_gap_eq_ok_iff.mpr ⟨hopen, rfl⟩)]
    rfl

theorem action_eq_ok_iff {a : Action} :
    action cs = .ok (a, rest) ↔ cs = a.name.toList ++ rest ∧ ¬ Stops isGap rest := by
  unfold action
  rw [hinting_eq_ok_iff, either_eq_ok_iff, word_eq_ok_iff, word_eq_ok_iff]
  constructor
  · rintro (⟨rfl, h⟩ | ⟨-, rfl, h⟩) <;> exact h
  · intro h
    cases a with
    | read => exact .inl ⟨rfl, h⟩
    | write =>
      have hne : 'r' ≠ 'w' := by decide
      have hliteral : literal "read" cs = .error ⟨cs, none⟩ := by
        rw [h.1]
        exact literal_of_ne rfl hne
      exact .inr ⟨⟨_, bind_eq_error hliteral⟩, rfl, h⟩

theorem recognises_action :
    Recognises action (fun a => a.name.toList) id fun rest => ¬ Stops isGap rest := by
  refine .of_injective ?_ (fun a rest hrest => action_eq_ok_iff.mpr ⟨rfl, hrest⟩) ?_
  · intro cs a rest h
    exact ⟨a, (action_eq_ok_iff.mp h).1, rfl⟩
  · intro a b h
    cases a <;> cases b <;> first | rfl | cases h

theorem prefixFree_spellings : PrefixFree spellings := by
  unfold PrefixFree
  decide

theorem recognises_outcome : Recognises outcome
    (fun p : {spelling // spelling ∈ spellings} => p.1.1.toList) (fun p => p.1.2) fun _ => True :=
  (recognises_oneOf prefixFree_spellings).hinting _

/-- A gap in front of a spelled result is over where the result begins. -/
theorem stops_isGap_spelling (p : {spelling // spelling ∈ spellings}) :
    Stops isGap (p.1.1.toList ++ rest) := by
  have hall : ∀ p ∈ spellings, p.1.toList ≠ [] ∧ Stops isGap p.1.toList := by
    simp [spellings, isGap]
  obtain ⟨hne, hstops⟩ := hall p.1 p.2
  exact (stops_append hne).mpr hstops

theorem recognises_grammar (id : Nat) :
    Recognises (grammar id) Derivation.text (Derivation.operation · id) fun _ => True := by
  have hdigits (gap : Gap) (rest : List Char) : Stops Char.isDigit (gap.text ++ rest) :=
    gap.stops rfl rfl
  have hbracket (text rest rest' : List Char) :
      Stops isGap ((bracketed text ++ rest) ++ rest') := stops_cons.mpr rfl
  have haction (a : Action) (rest rest' : List Char) :
      Stops isGap ((a.name.toList ++ rest) ++ rest') := by
    cases a <;> exact stops_cons.mpr rfl
  have hnumeral (n : Numeral) (rest rest' : List Char) :
      Stops isGap ((n.text ++ rest) ++ rest') := by
    rw [List.append_assoc]
    exact n.stops_isGap
  -- From the end of a line to its front. `op` is the operation, of the parts that are to come.
  have gresult (op : Outcome → Operation) := recognises_outcome.map op
  have gversion (op : Nat → Outcome → Operation) :=
    (recognises_integer.hinting (.invalid "version")).gap_bind hdigits (fun n => gresult (op n))
      fun p _ => stops_isGap_spelling p
  have gvalue (op : Words → Nat → Outcome → Operation) :=
    (recognises_words.hinting (.invalid "value")).gap_bind (fun _ _ => trivial)
      (fun w => gversion (op w)) fun _ _ => hnumeral _ _ _
  have gkey (op : Words → Words → Nat → Outcome → Operation) :=
    (recognises_words.hinting (.invalid "key")).gap_bind (fun _ _ => trivial)
      (fun w => gvalue (op w)) fun _ _ => hbracket _ _ _
  have gaction (op : Action → Words → Words → Nat → Outcome → Operation) :=
    recognises_action.gap_bind (fun gap _ => gap.not_stops) (fun a => gkey (op a))
      fun _ _ => hbracket _ _ _
  have gfinish (op : Nat → Action → Words → Words → Nat → Outcome → Operation) :=
    recognises_integer.gap_bind hdigits (fun n => gaction (op n)) fun _ _ => haction _ _ _
  have gstart := recognises_integer.gap_bind hdigits
    (fun start => gfinish fun finish action key value version outcome =>
      { id, action, key, value, start, finish, version := some version, outcome })
    fun _ _ => hnumeral _ _ _
  refine gstart.of_equiv Derivation.parts (fun t => ?_) fun _ => rfl
  simp only [Derivation.text, List.flatten_cons, List.flatten_nil, List.append_nil]
  rfl

variable {id : Nat} {line : String} {op : Operation}

theorem parse_eq_ok_iff : parse id line = .ok op ↔ readLine (grammar id) line = .ok op := by
  unfold parse
  cases readLine (grammar id) line <;> simp [Except.mapError]

/-- What is read as a record begins with two numbers. -/
theorem startsLikeRecord_of_parse (h : parse id line = .ok op) : startsLikeRecord line := by
  obtain ⟨_, hgrammar⟩ := exists_of_readLine (parse_eq_ok_iff.mp h)
  obtain ⟨_, _, hstart, h⟩ := bind_eq_ok_iff.mp hgrammar
  obtain ⟨_, _, hgap, h⟩ := bind_eq_ok_iff.mp h
  obtain ⟨_, _, hfinish, -⟩ := bind_eq_ok_iff.mp h
  rw [startsLikeRecord, bind_eq hstart, bind_eq hgap, bind_eq hfinish]
  rfl

/-- A record begins with a digit. -/
theorem exists_isDigit_of_parse (h : parse id line = .ok op) :
    ∃ c cs, line.toList = c :: cs ∧ c.isDigit := by
  obtain ⟨t, hline, -⟩ := (recognises_grammar id).readLine.1.mp (parse_eq_ok_iff.mp h)
  obtain ⟨c, cs, hstart⟩ := List.exists_cons_of_ne_nil t.phrase.start.1.nonempty
  rw [Derivation.text, hstart] at hline
  exact ⟨c, _, hline.symm, t.phrase.start.1.all c (hstart ▸ List.mem_cons_self)⟩

section Announcement
variable {first second : Run Char.isDigit} {between : Gap}

/-- The first run of digits is a number below 2^64 without leading zeros, and the second begins with
`0`, which is read alone, or is below 2^64 as well. -/
def Announces (first second : Run Char.isDigit) : Prop :=
  (first.text.head? = some '0' → first.text = ['0']) ∧ valueOf first.text < wordLimit ∧
    (second.text.head? = some '0' ∨ valueOf second.text < wordLimit)

instance (first second : Run Char.isDigit) : Decidable (Announces first second) :=
  inferInstanceAs (Decidable (_ ∧ _))

theorem isOk_integer_iff (digits : Run Char.isDigit) (hrest : Stops Char.isDigit rest) :
    (integer (digits.text ++ rest)).isOk ↔
      digits.text.head? = some '0' ∨ valueOf digits.text < wordLimit := by
  by_cases hzero : digits.text.head? = some '0'
  · obtain ⟨tail, htext⟩ := List.head?_eq_some_iff.mp hzero
    rw [htext]
    exact iff_of_true rfl (.inl rfl)
  · rw [integer_of_head?_ne digits hzero hrest, or_iff_right hzero]
    split_ifs with hsmall
    · exact iff_of_true rfl hsmall
    · exact iff_of_false Bool.false_ne_true hsmall

/-- Behind a number and a gap only the second number matters. -/
theorem startsLikeRecord_of_integer {n : Nat} {afterFirst afterGap : List Char}
    (hfirst : integer line.toList = .ok (n, afterFirst)) (hgap : gap afterFirst = .ok ((), afterGap)) :
    startsLikeRecord line = (integer afterGap).isOk := by
  rw [startsLikeRecord, bind_eq hfirst, bind_eq hgap]
  cases hsecond : integer afterGap with
  | ok r =>
    rw [bind_eq hsecond]
    rfl
  | error s =>
    rw [bind_eq_error hsecond]
    rfl

/-- Of two runs of digits, which are taken for the two numbers of a record. -/
theorem startsLikeRecord_iff
    (hline : line.toList = first.text ++ (between.text ++ (second.text ++ rest)))
    (hrest : Stops Char.isDigit rest) : startsLikeRecord line ↔ Announces first second := by
  have hgap := recognises_gap.complete between (second.text ++ rest)
    (second.stops fun _ hc => isGap_eq_false_of_isDigit hc)
  have hsecond := isOk_integer_iff second hrest
  unfold Announces
  by_cases hzero : first.text.head? = some '0'
  · obtain ⟨tail, htext⟩ := List.head?_eq_some_iff.mp hzero
    have hfirst : integer line.toList =
        .ok (0, tail ++ (between.text ++ (second.text ++ rest))) := by
      rw [hline, htext]
      rfl
    cases tail with
    | nil =>
      rw [startsLikeRecord_of_integer hfirst hgap, hsecond, htext]
      exact ⟨fun h => ⟨fun _ => rfl, by decide, h⟩, fun h => h.2.2⟩
    | cons c tail =>
      -- The `0` is read alone, and the next digit is no gap.
      have hc : c.isDigit := first.all c (by simp [htext])
      have hstops : Stops isGap (c :: tail ++ (between.text ++ (second.text ++ rest))) :=
        stops_cons.mpr (isGap_eq_false_of_isDigit hc)
      rw [startsLikeRecord, bind_eq hfirst, bind_eq_error (gap_of_stops hstops)]
      refine iff_of_false Bool.false_ne_true fun h => ?_
      exact List.cons_ne_nil c tail (List.cons.inj (htext.symm.trans (h.1 hzero))).2
  · have hstops : Stops Char.isDigit (between.text ++ (second.text ++ rest)) :=
      between.stops rfl rfl
    have hfirst := integer_of_head?_ne first hzero hstops
    rw [← hline] at hfirst
    by_cases hsmall : valueOf first.text < wordLimit
    · rw [if_pos hsmall] at hfirst
      rw [startsLikeRecord_of_integer hfirst hgap, hsecond]
      exact ⟨fun h => ⟨fun hz => absurd hz hzero, hsmall, h⟩, fun h => h.2.2⟩
    · rw [if_neg hsmall] at hfirst
      rw [startsLikeRecord, bind_eq_error hfirst]
      exact iff_of_false Bool.false_ne_true fun h => hsmall h.2.1

end Announcement

end RecordLine

namespace Operation
variable {op : Operation}

/-- What is read back from a record: it has the id that the reader gives it, and a version. -/
def recorded (op : Operation) (id : Nat) : Operation :=
  { op with id, version := some (op.version.getD 0) }

theorem toList_render (op : Operation) : op.render.toList =
    (toString op.start).toList ++ (" ".toList ++ ((toString op.finish).toList ++ (" ".toList ++
      (op.action.name.toList ++ (" ".toList ++ (op.key.render.toList ++ (" ".toList ++
      (op.value.render.toList ++ (" ".toList ++ ((toString (op.version.getD 0)).toList ++
      (" ".toList ++ (resultWord op.action op.outcome).toList))))))))))) := by
  simp only [render, String.intercalate_cons_cons, String.intercalate_singleton,
    String.toList_append, List.append_assoc]

theorem mem_spellings_resultWord (action : Action) (outcome : Outcome) :
    (resultWord action outcome, outcome) ∈ RecordLine.spellings := by
  cases action <;> cases outcome <;> decide

theorem Fits.version_getD_lt (h : op.Fits) : op.version.getD 0 < wordLimit := by
  cases hversion : op.version with
  | none => exact Nat.zero_lt_succ _
  | some v => exact h.version v hversion

/-- An operation is written as a line whose parts denote it. -/
theorem exists_derivation (h : op.Fits) (id : Nat) : ∃ t : RecordLine.Derivation,
    t.text = op.render.toList ∧ t.operation id = op.recorded id := by
  obtain ⟨key, hkeytext, hkey⟩ := exists_numbers? h.key
  obtain ⟨value, hvaluetext, hvalue⟩ := exists_numbers? h.value
  refine ⟨{
    start := (.ofNat op.start h.start, .space)
    finish := (.ofNat op.finish h.finish, .space)
    action := (op.action, .space)
    key := (key, .space)
    value := (value, .space)
    version := (.ofNat (op.version.getD 0) h.version_getD_lt, .space)
    result := ⟨_, mem_spellings_resultWord op.action op.outcome⟩ }, ?_, ?_⟩
  · rw [toList_render, ← hkeytext, ← hvaluetext]
    simp only [RecordLine.Derivation.text, List.flatten_cons, List.flatten_nil, List.append_nil]
    rfl
  · simp only [RecordLine.Derivation.operation, recorded, Numeral.value_ofNat, hkey, hvalue]

theorem parse_render (h : op.Fits) (id : Nat) :
    RecordLine.parse id op.render = .ok (op.recorded id) := by
  obtain ⟨t, htext, hoperation⟩ := exists_derivation h id
  rw [RecordLine.parse_eq_ok_iff, (RecordLine.recognises_grammar id).readLine.1]
  exact ⟨⟨t, [], List.forall_mem_nil _⟩, by rw [List.append_nil, htext], hoperation⟩

end Operation
end StoreAudit
