import StoreAudit.Proofs.Grammar.Stop
import StoreAudit.Proofs.Log.Derivation
import StoreAudit.Proofs.Log.RecordLine

/-! The columns of refused lines. What stands in front of the column is the beginning of a line that
is read. -/
namespace StoreAudit
open Grammar

namespace ParseError
variable {α τ : Type} {line : String} {front rest : List Char} {s : Stop}

theorem front?_append (front rest : List Char) :
    front? (String.ofList front).utf8ByteSize (front ++ rest) = some front := by
  induction front with
  | nil => cases rest <;> rfl
  | cons c front ih =>
    have hsize : (String.ofList (c :: front)).utf8ByteSize =
        c.utf8Size + (String.ofList front).utf8ByteSize := by
      rw [String.ofList_cons, String.utf8ByteSize_append, String.utf8ByteSize_singleton]
    have hpos := c.utf8Size_pos
    rw [List.cons_append, front?, if_neg (by omega), if_pos (by omega), hsize,
      Nat.add_sub_cancel_left, ih]
    rfl

theorem offset_eq (hline : line.toList = front ++ s.rest) :
    offset line s = (String.ofList front).utf8ByteSize := by
  have hsize : line.utf8ByteSize =
      (String.ofList front).utf8ByteSize + (String.ofList s.rest).utf8ByteSize := by
    rw [← String.utf8ByteSize_append, ← String.ofList_append, ← hline, String.ofList_toList]
  rw [offset, hsize, Nat.add_sub_cancel_right]

theorem column_ofStop (kind : Kind) (hline : line.toList = front ++ s.rest) :
    (ofStop kind line s).column = front.length + 1 := by
  have hle : offset line s ≤ line.utf8ByteSize := Nat.sub_le _ _
  simp only [ofStop, atByte, Nat.min_eq_left hle]
  rw [hline, offset_eq hline, front?_append]

/-- `e` is the refusal of `line` by `parse`, which reads it with `g`. Its column is that of a
character or that behind the last one. What stands in front of it begins a line that is read, and is
what the grammar had taken when it stopped, which is not in the middle of a character. -/
structure Located (e : ParseError) (kind : Kind) (parse : String → Except ParseError α)
    (g : Grammar α) (line : String) : Prop where
  one_le : 1 ≤ e.column
  le_length : e.column ≤ line.length + 1
  viable : ∃ whole a, parse whole = .ok a ∧ line.toList.take (e.column - 1) <+: whole.toList
  boundary : ∃ s, readLine g line = .error s ∧ e = ofStop kind line s ∧
    front? (offset line s) line.toList = some (line.toList.take (e.column - 1))

theorem located_of_parse {parse : String → Except ParseError α} {g : Grammar α}
    {text : τ → List Char} {value : τ → α} {kind : Kind} {e : ParseError}
    (hparse : ∀ line, parse line = (readLine g line).mapError (ofStop kind line))
    (hread : Recognises g text value fun _ => True) (hstop : StopsInPhrase g text)
    (h : parse line = .error e) : e.Located kind parse g line := by
  rw [hparse] at h
  cases hline : readLine g line with
  | ok a =>
    rw [hline] at h
    cases h
  | error s =>
    rw [hline] at h
    obtain rfl : ofStop kind line s = e := Except.error.inj h
    obtain ⟨front, hfront, t, hbegins⟩ := hstop.readLine hline
    have hcolumn := column_ofStop kind hfront
    have hbefore : line.toList.take ((ofStop kind line s).column - 1) = front := by
      rw [hcolumn, Nat.add_sub_cancel, hfront, List.take_left]
    refine ⟨?_, ?_, ?_, s, hline, rfl, ?_⟩
    · rw [hcolumn]
      exact Nat.le_add_left 1 _
    · have hlength := congrArg List.length hfront
      rw [String.length_toList, List.length_append] at hlength
      omega
    · have haccepted : readLine g (String.ofList (text t.phrase ++ t.trailing)) =
          .ok (value t.phrase) := hread.readLine.1.mpr ⟨t, String.toList_ofList.symm, rfl⟩
      refine ⟨_, value t.phrase, by rw [hparse, haccepted]; rfl, ?_⟩
      rw [hbefore, String.toList_ofList]
      exact hbegins
    · rw [hbefore, offset_eq hfront, hfront]
      exact front?_append front s.rest

end ParseError

namespace RecordLine

theorem stopsInPhrase_action : StopsInPhrase action (fun a : Action => a.name.toList) := by
  have hword (a : Action) : StopsInPhrase (do literal a.name; ahead gap; return a : Grammar Action)
      (fun a : Action => a.name.toList) := by
    have hbind := (stopsInPhrase_literal a.name).bind fun _ =>
      stopsInPhrase_ahead_gap.map fun _ => a
    exact hbind.of_map (fun _ => a) fun _ => List.append_nil _
  exact ((hword .read).either (hword .write)).hinting _

instance : Nonempty {spelling // spelling ∈ spellings} := ⟨_, List.mem_cons_self⟩

theorem stopsInPhrase_outcome : StopsInPhrase outcome
    (fun p : {spelling // spelling ∈ spellings} => p.1.1.toList) :=
  (StopsInPhrase.of_recognises (recognises_oneOf prefixFree_spellings)
    fun _ _ => rest_eq_of_oneOf).hinting _

theorem stopsInPhrase_grammar (id : Nat) : StopsInPhrase (grammar id) Derivation.text := by
  -- From the end of a line to its front. `op` is the operation, of the parts that are to come.
  have gresult (op : Outcome → Operation) := stopsInPhrase_outcome.map op
  have gversion (op : Nat → Outcome → Operation) :=
    (stopsInPhrase_integer.hinting (.invalid "version")).gap_bind fun n => gresult (op n)
  have gvalue (op : Words → Nat → Outcome → Operation) :=
    (stopsInPhrase_words.hinting (.invalid "value")).gap_bind fun w => gversion (op w)
  have gkey (op : Words → Words → Nat → Outcome → Operation) :=
    (stopsInPhrase_words.hinting (.invalid "key")).gap_bind fun w => gvalue (op w)
  have gaction (op : Action → Words → Words → Nat → Outcome → Operation) :=
    stopsInPhrase_action.gap_bind fun a => gkey (op a)
  have gfinish (op : Nat → Action → Words → Words → Nat → Outcome → Operation) :=
    stopsInPhrase_integer.gap_bind fun n => gaction (op n)
  have gstart := stopsInPhrase_integer.gap_bind fun start =>
    gfinish fun finish action key value version outcome =>
      { id, action, key, value, start, finish, version := some version, outcome }
  refine gstart.of_map Derivation.parts.symm fun t => ?_
  simp only [Derivation.text, List.flatten_cons, List.flatten_nil, List.append_nil]
  rfl

end RecordLine

namespace MessageLine
variable {d : Dialect}

instance : Nonempty (Run Char.isAlpha) := ⟨['a'], by decide, List.all_eq_true.mp rfl⟩

instance (code : PurposeCode) : Nonempty (Run code.isCodeChar) :=
  ⟨['1'], by decide, List.all_eq_true.mp (by cases code <;> rfl)⟩

theorem stopsInPhrase_purpose (code : PurposeCode) :
    StopsInPhrase (purpose code) (Run.text (p := code.isCodeChar)) :=
  (StopsInPhrase.of_recognises (recognises_run _) fun _ _ => rest_eq_of_run).map _

theorem stopsInPhrase_version (d : Dialect) : StopsInPhrase (version d)
    (fun v : Numeral × Gap => fieldPhrase d.version v.1.text ++ v.2.text) :=
  (stopsInPhrase_integer.field d.version).bind fun n => stopsInPhrase_gap.map fun _ => n

theorem stopsInPhrase_grammar (d : Dialect) : StopsInPhrase (grammar d) (Derivation.text d) := by
  -- From the end of a line to its front. `m` is the message, of the parts that are to come.
  have gok (m : Bool → Message) := (stopsInPhrase_truth.field d.ok).bind
    fun ok => .literal_bind "\x7d" (.pure (m ok))
  have gversion (m : Option Nat → Bool → Message) :=
    (stopsInPhrase_version d).optional.bind fun v => gok (m v)
  have gvalue (m : Words → Option Nat → Bool → Message) :=
    (stopsInPhrase_words.field d.value).gap_bind fun w => gversion (m w)
  have gkey (m : Words → Words → Option Nat → Bool → Message) :=
    (stopsInPhrase_someWords.field d.key).gap_bind fun w => gvalue (m w)
  have gpurpose (m : Purpose → Words → Words → Option Nat → Bool → Message) :=
    ((stopsInPhrase_purpose d.code).field d.purpose).gap_bind fun p => gkey (m p)
  have greceiver (m : Nat → Purpose → Words → Words → Option Nat → Bool → Message) :=
    (stopsInPhrase_integer.field d.receiver).gap_bind fun n => gpurpose (m n)
  have gsender (m : Nat → Nat → Purpose → Words → Words → Option Nat → Bool → Message) :=
    (stopsInPhrase_integer.field d.sender).gap_bind fun n => greceiver (m n)
  have gid (m : Nat → Nat → Nat → Purpose → Words → Words → Option Nat → Bool → Message) :=
    (stopsInPhrase_integer.field d.id).gap_bind fun n => gsender (m n)
  have hletters : StopsInPhrase letters (Run.text (p := Char.isAlpha)) :=
    .of_recognises (recognises_run _) fun _ _ => rest_eq_of_run
  have gevent (m : Nat → Nat → Nat → Purpose → Words → Words → Option Nat → Bool → Message) :=
    hletters.gap_bind fun _ => .literal_bind "\x7b" (gid m)
  have gtime := stopsInPhrase_integer.gap_bind fun n => gevent (Message.mk n)
  exact gtime.of_map Derivation.parts.symm fun _ => rfl

end MessageLine

/-- The column of a refused record or message is behind the beginning of a line that is read. -/
theorem located_of_refused (line : String) (e : ParseError) :
    (∀ id, RecordLine.parse id line = .error e →
      e.Located .record (RecordLine.parse id) (RecordLine.grammar id) line) ∧
    ∀ d ∈ [Dialect.numeric, .named], MessageLine.parse d line = .error e →
      e.Located .message (MessageLine.parse d) (MessageLine.grammar d) line := by
  refine ⟨fun id h => ?_, fun d hd h => ?_⟩
  · exact ParseError.located_of_parse (fun _ => rfl) (RecordLine.recognises_grammar id)
      (RecordLine.stopsInPhrase_grammar id) h
  · have hread := MessageLine.recognises_grammar (Dialect.readable_of_mem hd)
    exact ParseError.located_of_parse (fun _ => rfl) hread (MessageLine.stopsInPhrase_grammar d) h

/-- In the message a letter of two bytes stands for the key, and in the record it stands behind the
first number of the key, where the gap in front of it is not taken. -/
theorem located_of_refused_letter :
    let message := "7 sent \x7bid:1 src:1 dest:0 demuxKey:4 key:[é] value:[] ok:true\x7d"
    let keyless : ParseError := { kind := .message, message := "invalid field value", column := 43 }
    let record := "12 20 read [1 é] [5] 1 true"
    let broken : ParseError := { kind := .record, message := "invalid key", column := 14 }
    MessageLine.parse .numeric message = .error keyless ∧
      keyless.Located .message (MessageLine.parse .numeric) (MessageLine.grammar .numeric) message ∧
      RecordLine.parse 3 record = .error broken ∧
      broken.Located .record (RecordLine.parse 3) (RecordLine.grammar 3) record := by
  intro message keyless record broken
  have hmessage : MessageLine.parse .numeric message = .error keyless := by decide +kernel
  have hrecord : RecordLine.parse 3 record = .error broken := by decide +kernel
  exact ⟨hmessage, (located_of_refused message keyless).2 _ List.mem_cons_self hmessage,
    hrecord, (located_of_refused record broken).1 3 hrecord⟩

end StoreAudit
