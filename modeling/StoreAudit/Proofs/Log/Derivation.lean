import StoreAudit.Log.MessageLine
import StoreAudit.Proofs.Grammar.Phrase

/-! Which lines are messages of a dialect, and of which parts a message line is made. -/
namespace StoreAudit
open Grammar

namespace Dialect

def fieldNames (d : Dialect) : List String :=
  [d.id, d.sender, d.receiver, d.purpose, d.key, d.value, d.version, d.ok]

/-- A gap ends where a field begins, and the last field is not taken for the version. -/
structure Readable (d : Dialect) : Prop where
  fieldNames : ∀ name ∈ d.fieldNames, name.toList ≠ [] ∧ Stops isGap name.toList
  version : ∀ text rest, d.version.toList ++ text ≠ d.ok.toList ++ rest

theorem readable_numeric : Readable .numeric where
  fieldNames := by simp [fieldNames, numeric, isGap]
  version := by simp [numeric]

theorem readable_named : Readable .named where
  fieldNames := by simp [fieldNames, named, isGap]
  version := by simp [named]

theorem readable_of_mem {d : Dialect} (hd : d ∈ [Dialect.numeric, .named]) : d.Readable := by
  simp only [List.mem_cons, List.not_mem_nil, or_false] at hd
  rcases hd with rfl | rfl
  · exact readable_numeric
  · exact readable_named

end Dialect

namespace MessageLine

/-- The parts of a message line that are not the same in all lines of a dialect, each with the gap
after it. -/
structure Derivation (code : PurposeCode) where
  time : Numeral × Gap
  event : Run Char.isAlpha × Gap
  id : Numeral × Gap
  sender : Numeral × Gap
  receiver : Numeral × Gap
  purpose : Run code.isCodeChar × Gap
  key : Numbers × Gap
  value : Option Numbers × Gap
  version : Option (Numeral × Gap)
  ok : Bool

namespace Derivation
variable (d : Dialect) (t : Derivation d.code)

/-- The line that the parts make up. -/
def text : List Char :=
  [t.time.1.text, t.time.2.text, t.event.1.text, t.event.2.text, "\x7b".toList,
    fieldPhrase d.id t.id.1.text, t.id.2.text,
    fieldPhrase d.sender t.sender.1.text, t.sender.2.text,
    fieldPhrase d.receiver t.receiver.1.text, t.receiver.2.text,
    fieldPhrase d.purpose t.purpose.1.text, t.purpose.2.text,
    fieldPhrase d.key (bracketed t.key.1.text), t.key.2.text,
    fieldPhrase d.value (bracketed (optionalText Numbers.text t.value.1)), t.value.2.text,
    optionalText (fun v => fieldPhrase d.version v.1.text ++ v.2.text) t.version,
    fieldPhrase d.ok (toString t.ok).toList, "\x7d".toList].flatten

/-- The message that the parts denote. -/
def message : Message where
  time := t.time.1.value
  id := t.id.1.value
  sender := t.sender.1.value
  receiver := t.receiver.1.value
  purpose := d.code.decode (String.ofList t.purpose.1.text)
  key := t.key.1.value
  value := (t.value.1.map Numbers.value).getD []
  version := t.version.map fun v => v.1.value
  ok := t.ok

end Derivation

theorem recognises_purpose (code : PurposeCode) : Recognises (purpose code)
    (Run.text (p := code.isCodeChar)) (fun r => code.decode (String.ofList r.text))
    (Stops code.isCodeChar) := (recognises_run _).map _

variable {d : Dialect}

theorem recognises_version (d : Dialect) : Recognises (version d)
    (fun v : Numeral × Gap => fieldPhrase d.version v.1.text ++ v.2.text)
    (fun v => v.1.value) (Stops isGap) :=
  (recognises_integer.field d.version).bind (fun n => recognises_gap.map fun _ => n)
    fun gap _ _ => Gap.stops gap rfl rfl

/-- The parts of a derivation in their order. -/
def Derivation.parts {code : PurposeCode} : Derivation code ≃
    (Numeral × Gap) × (Run Char.isAlpha × Gap) × (Numeral × Gap) × (Numeral × Gap) ×
      (Numeral × Gap) × (Run code.isCodeChar × Gap) × (Numbers × Gap) × (Option Numbers × Gap) ×
      Option (Numeral × Gap) × Bool × Unit where
  toFun t := ⟨t.time, t.event, t.id, t.sender, t.receiver, t.purpose, t.key, t.value, t.version,
    t.ok, ()⟩
  invFun := fun ⟨time, event, id, sender, receiver, purpose, key, value, version, ok, _⟩ =>
    ⟨time, event, id, sender, receiver, purpose, key, value, version, ok⟩
  left_inv _ := rfl
  right_inv _ := rfl

theorem stops_isGap_fieldName (hd : d.Readable) {name : String} (h : name ∈ d.fieldNames) :
    Stops isGap (name.toList ++ rest) :=
  (stops_append (hd.fieldNames name h).1).mpr (hd.fieldNames name h).2

/-- A gap in front of a field is over where the field begins. -/
theorem stops_fieldPhrase (hd : d.Readable) : ∀ name ∈ d.fieldNames, ∀ text cs rest,
    Stops isGap ((fieldPhrase name text ++ cs) ++ rest) := by
  intro name hname text cs rest
  rw [fieldPhrase, List.append_assoc, List.append_assoc]
  exact stops_isGap_fieldName hd hname

theorem recognises_grammar (hd : d.Readable) :
    Recognises (grammar d) (Derivation.text d) (Derivation.message d) fun _ => True := by
  have hnames := stops_fieldPhrase hd
  simp only [Dialect.fieldNames, List.forall_mem_cons] at hnames
  obtain ⟨hid, hsender, hreceiver, hpurpose, hkey, hvalue, hversion, hok, -⟩ := hnames
  have hdigits (gap : Gap) (rest : List Char) : Stops Char.isDigit (gap.text ++ rest) :=
    gap.stops rfl rfl
  have hcode (gap : Gap) (rest : List Char) : Stops d.code.isCodeChar (gap.text ++ rest) := by
    cases d.code <;> exact gap.stops rfl rfl
  -- From the end of a line to its front. `m` is the message, of the parts that are to come.
  have gok (m : Bool → Message) :=
    (recognises_truth.field d.ok).bind
      (fun ok => .literal_bind "\x7d" (.pure (m ok) fun _ => True)) fun _ _ _ => trivial
  have gversion (m : Option Nat → Bool → Message) :=
    (recognises_version d).optional.bind (fun v => gok (m v)) fun t rest _ => by
      refine ⟨hok _ _ _, fun v rest' heq => ?_⟩
      unfold fieldPhrase at heq
      simp only [List.append_assoc] at heq
      exact hd.version _ _ heq.symm
  have gvalue (m : Words → Option Nat → Bool → Message) :=
    (recognises_words.field d.value).gap_bind (fun _ _ => trivial) (fun w => gversion (m w))
      fun t rest => by
        cases t.1 with
        | none => exact hok _ _ _
        | some v =>
          rw [optionalText, List.append_assoc]
          exact hversion _ _ _
  have gkey (m : Words → Words → Option Nat → Bool → Message) :=
    (recognises_someWords.field d.key).gap_bind (fun _ _ => trivial) (fun w => gvalue (m w))
      fun _ _ => hvalue _ _ _
  have gpurpose (m : Purpose → Words → Words → Option Nat → Bool → Message) :=
    ((recognises_purpose d.code).field d.purpose).gap_bind hcode (fun p => gkey (m p))
      fun _ _ => hkey _ _ _
  have greceiver (m : Nat → Purpose → Words → Words → Option Nat → Bool → Message) :=
    (recognises_integer.field d.receiver).gap_bind hdigits (fun n => gpurpose (m n))
      fun _ _ => hpurpose _ _ _
  have gsender (m : Nat → Nat → Purpose → Words → Words → Option Nat → Bool → Message) :=
    (recognises_integer.field d.sender).gap_bind hdigits (fun n => greceiver (m n))
      fun _ _ => hreceiver _ _ _
  have gid (m : Nat → Nat → Nat → Purpose → Words → Words → Option Nat → Bool → Message) :=
    (recognises_integer.field d.id).gap_bind hdigits (fun n => gsender (m n))
      fun _ _ => hsender _ _ _
  have gevent (m : Nat → Nat → Nat → Purpose → Words → Words → Option Nat → Bool → Message) :=
    (recognises_run Char.isAlpha).gap_bind (fun gap _ => gap.stops rfl rfl)
      (fun _ => .literal_bind "\x7b" (gid m)) fun _ _ => stops_cons.mpr rfl
  have gtime := recognises_integer.gap_bind hdigits (fun n => gevent (Message.mk n)) fun t rest => by
    rw [List.append_assoc]
    exact t.1.1.stops fun _ hc => isGap_eq_false_of_isAlpha hc
  exact gtime.of_equiv Derivation.parts (fun _ => rfl) fun _ => rfl

theorem parse_eq_ok_iff {line : String} {m : Message} :
    parse d line = .ok m ↔ readLine (grammar d) line = .ok m := by
  unfold parse
  cases readLine (grammar d) line <;> simp [Except.mapError]

/-- A line is read as a message of the dialect exactly if it is made up of the parts of a message
line with spaces and tabs behind them, and the message is the one that the parts denote. There is no
other way to make the line up. -/
theorem parse_eq_ok_iff_exists_derivation (hd : d ∈ [Dialect.numeric, .named]) (line : String)
    (m : Message) :
    (parse d line = .ok m ↔ ∃ t : Trailed (Derivation d.code),
      t.phrase.text d ++ t.trailing = line.toList ∧ t.phrase.message d = m) ∧
    Function.Injective fun t : Trailed (Derivation d.code) => t.phrase.text d ++ t.trailing := by
  rw [parse_eq_ok_iff]
  exact (recognises_grammar (Dialect.readable_of_mem hd)).readLine

/-- A write request at the last time that a line can have, with a space and a tab in most gaps. -/
def wideRequest : Trailed (Derivation .digits) where
  phrase :=
    let gap : Gap := ⟨[' ', '\t'], by decide, List.all_eq_true.mp rfl⟩
    { time := (.ofNat 18446744073709551615 (by decide), gap)
      event := (⟨['l', 'o', 'g'], by decide, List.all_eq_true.mp rfl⟩, gap)
      id := (.ofNat 0 (by decide), gap)
      sender := (.ofNat 7 (by decide), gap)
      receiver := (.ofNat 8 (by decide), .space)
      purpose := (⟨['2'], by decide, List.all_eq_true.mp rfl⟩, .space)
      key := ((.ofNat 1 (by decide), [(gap, .ofNat 20 (by decide))]), gap)
      value := (none, gap)
      version := none
      ok := true }
  trailing := ['\t', ' ']
  blank := List.all_eq_true.mp rfl

theorem parse_wideRequest : Dialect.numeric ∈ [Dialect.numeric, .named] ∧
    parse .numeric ("18446744073709551615 \tlog \t\x7bid:0 \tsrc:7 \tdest:8 demuxKey:2 " ++
      "key:[1 \t20] \tvalue:[] \tok:true\x7d\t ") =
        .ok ⟨18446744073709551615, 0, 7, 8, .request .write, [1, 20], [], none, true⟩ := by
  refine ⟨List.mem_cons_self, ?_⟩
  refine (parse_eq_ok_iff_exists_derivation List.mem_cons_self _ _).1.mpr ⟨wideRequest, ?_, ?_⟩
  · decide
  · decide

end MessageLine
end StoreAudit
