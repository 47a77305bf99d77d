import Mathlib.Data.List.Forall2
import StoreAudit.Proofs.Log.MessageReader

/-! A reader that finds the dialect of a log out by itself, against one that was told it. -/
namespace StoreAudit

/-- No line that every log may hold is a message. -/
theorem LogLine.common?_ne_message (text : String) (m : Message) :
    common? text ≠ some (.message m) := by
  intro h
  rcases of_common? h with h | h | ⟨_, h⟩ <;> cases h

namespace MessageReader
variable {r r' : MessageReader} {d : Dialect} {line text : String} {lines : List String}
variable {m : Message}

/-- The answer to a line, of a refusal only the number of the line. -/
def located (answer : Except ParseError LogLine) : Except Nat LogLine :=
  answer.mapError ParseError.line

theorem located_eq_ok_iff {answer : Except ParseError LogLine} {l : LogLine} :
    located answer = .ok l ↔ answer = .ok l := by
  cases answer <;> simp [located, Except.mapError]

/-- What becomes of a line that is neither a common line nor a message. -/
def refusal (r : MessageReader) (text : String) : Except Nat LogLine :=
  match r.policy with
  | .strict => .error (r.line + 1)
  | .bestEffort => .ok (.passthrough text)

theorem refusal_ne_message (r : MessageReader) (text : String) (m : Message) :
    r.refusal text ≠ .ok (.message m) := by
  unfold refusal
  cases r.policy <;> exact fun h => nomatch h

theorem read_of_common {common : LogLine}
    (h : LogLine.common? (LogLine.content line) = some common) :
    r.read line = (.ok common, { r with line := r.line + 1 }) := by
  simp only [read, h]

theorem read_of_parse_ok (hcommon : LogLine.common? (LogLine.content line) = none)
    (h : r.parse (LogLine.content line) = .ok (m, d)) : r.read line =
      (.ok (.message m), { r with dialect? := some d, line := r.line + 1 }) := by
  simp only [read, hcommon, h]

theorem read_of_parse_error (hcommon : LogLine.common? (LogLine.content line) = none)
    {e : ParseError} (h : r.parse (LogLine.content line) = .error e) :
    located (r.read line).1 = r.refusal (LogLine.content line) ∧
      (r.read line).2 = { r with line := r.line + 1 } := by
  simp only [read, hcommon, h, refusal]
  cases r.policy <;> exact ⟨rfl, rfl⟩

theorem parse_kept_eq_ok_iff {kept : Dialect} (hr : r.dialect? = some kept) :
    r.parse text = .ok (m, d) ↔ MessageLine.parse d text = .ok m ∧ d = kept := by
  simp only [parse, hr, parseKept]
  constructor
  · intro h
    cases hparse : MessageLine.parse kept text with
    | ok m' =>
      rw [hparse] at h
      cases h
      exact ⟨hparse, rfl⟩
    | error e =>
      rw [hparse] at h
      cases h
  · rintro ⟨hparse, rfl⟩
    rw [hparse]
    rfl

/-- Without a dialect to keep to, the messages of both dialects are read, each as of its own. -/
theorem parse_detecting_eq_ok_iff (hr : r.dialect? = none) : r.parse text = .ok (m, d) ↔
    MessageLine.parse d text = .ok m ∧ d ∈ [Dialect.numeric, .named] := by
  simp only [parse, hr, parseDetected]
  constructor
  · intro h
    cases hdetect : Dialect.detect? text with
    | none =>
      rw [hdetect] at h
      cases h
    | some found =>
      simp only [hdetect] at h
      cases hparse : MessageLine.parse found text with
      | error e =>
        rw [hparse] at h
        cases h
      | ok m' =>
        rw [hparse] at h
        cases h
        exact ⟨hparse, Dialect.mem_of_detect? hdetect⟩
  · rintro ⟨hparse, hd⟩
    simp only [Dialect.detect?_of_parse hd hparse, hparse]
    rfl

/-- The dialect of which the line is a message. -/
def messageDialect? (line : String) : Option Dialect :=
  [Dialect.numeric, .named].find? fun d => (MessageLine.parse d (LogLine.content line)).isOk

theorem isOk_parse_iff : (MessageLine.parse d text).isOk ↔ ∃ m, MessageLine.parse d text = .ok m := by
  cases MessageLine.parse d text <;> simp [Except.isOk, Except.toBool]

theorem of_messageDialect? (h : messageDialect? line = some d) :
    d ∈ [Dialect.numeric, .named] ∧ ∃ m, MessageLine.parse d (LogLine.content line) = .ok m := by
  have hok := List.find?_some h
  exact ⟨List.mem_of_find?_eq_some h, isOk_parse_iff.mp hok⟩

theorem messageDialect?_eq_none_iff : messageDialect? line = none ↔
    ∀ d ∈ [Dialect.numeric, .named], ∀ m, MessageLine.parse d (LogLine.content line) ≠ .ok m := by
  simp only [messageDialect?, List.find?_eq_none, isOk_parse_iff, not_exists, ne_eq]

/-- A line is a message of one dialect at most. -/
theorem messageDialect?_of_parse (hd : d ∈ [Dialect.numeric, .named])
    (h : MessageLine.parse d (LogLine.content line) = .ok m) : messageDialect? line = some d := by
  cases hfound : messageDialect? line with
  | none => exact absurd h (messageDialect?_eq_none_iff.mp hfound d hd m)
  | some found =>
    obtain ⟨hmem, m', hm'⟩ := of_messageDialect? hfound
    rw [← Dialect.detect?_of_parse hd h, Dialect.detect?_of_parse hmem hm']

/-- A dialect that is kept to stays, and else that of the line is kept to from here on. -/
theorem read_snd (r : MessageReader) (line : String) : (r.read line).2 =
    { r with dialect? := r.dialect?.or (messageDialect? line), line := r.line + 1 } := by
  cases hcommon : LogLine.common? (LogLine.content line) with
  | some common =>
    have hnone : messageDialect? line = none := by
      refine messageDialect?_eq_none_iff.mpr fun d hd m hm => ?_
      rw [LogLine.common?_of_parse hd hm] at hcommon
      cases hcommon
    rw [read_of_common hcommon, hnone, Option.or_none]
  | none =>
    cases hparse : r.parse (LogLine.content line) with
    | ok found =>
      obtain ⟨m, d⟩ := found
      rw [read_of_parse_ok hcommon hparse]
      cases hr : r.dialect? with
      | some kept =>
        obtain ⟨-, rfl⟩ := (parse_kept_eq_ok_iff hr).mp hparse
        rfl
      | none =>
        obtain ⟨hm, hd⟩ := (parse_detecting_eq_ok_iff hr).mp hparse
        rw [messageDialect?_of_parse hd hm, Option.none_or]
    | error e =>
      rw [(read_of_parse_error hcommon hparse).2]
      cases hr : r.dialect? with
      | some kept => rw [Option.some_or, ← hr]
      | none =>
        have hnone : messageDialect? line = none := by
          refine messageDialect?_eq_none_iff.mpr fun d hd m hm => ?_
          rw [(parse_detecting_eq_ok_iff hr).mpr ⟨hm, hd⟩] at hparse
          cases hparse
        rw [hnone, Option.none_or, ← hr]

/-- A line is answered alike by readers to which it is the same message, or none. -/
theorem located_read_congr (hpolicy : r.policy = r'.policy) (hline : r.line = r'.line)
    (h : ∀ m, (∃ d, r.parse (LogLine.content line) = .ok (m, d)) ↔
      ∃ d, r'.parse (LogLine.content line) = .ok (m, d)) :
    located (r.read line).1 = located (r'.read line).1 := by
  cases hcommon : LogLine.common? (LogLine.content line) with
  | some common => rw [read_of_common hcommon, read_of_common hcommon]
  | none =>
    cases hparse : r.parse (LogLine.content line) with
    | ok found =>
      obtain ⟨d', hparse'⟩ := (h found.1).mp ⟨found.2, hparse⟩
      rw [read_of_parse_ok hcommon hparse, read_of_parse_ok hcommon hparse']
    | error e =>
      cases hparse' : r'.parse (LogLine.content line) with
      | ok found =>
        obtain ⟨d, hd⟩ := (h found.1).mpr ⟨found.2, hparse'⟩
        rw [hd] at hparse
        cases hparse
      | error e' =>
        rw [(read_of_parse_error hcommon hparse).1, (read_of_parse_error hcommon hparse').1,
          refusal, refusal, hpolicy, hline]

/-- As long as no other dialect is kept to, the dialect might as well have been told. -/
theorem located_read_told (hd : d ∈ [Dialect.numeric, .named])
    (h : (r.read line).2.dialect? = none ∨ (r.read line).2.dialect? = some d) :
    located (r.read line).1 = located ({ r with dialect? := some d }.read line).1 := by
  rw [read_snd] at h
  cases hr : r.dialect? with
  | some kept =>
    rw [hr, Option.some_or] at h
    obtain rfl : kept = d := by simpa using h
    rw [← hr]
  | none =>
    rw [hr, Option.none_or] at h
    refine located_read_congr rfl rfl fun m => ?_
    have htold : ({ r with dialect? := some d } : MessageReader).dialect? = some d := rfl
    constructor
    · rintro ⟨d', hparse⟩
      obtain ⟨hm, hd'⟩ := (parse_detecting_eq_ok_iff hr).mp hparse
      rw [messageDialect?_of_parse hd' hm] at h
      obtain rfl : d' = d := by simpa using h
      exact ⟨d', (parse_kept_eq_ok_iff htold).mpr ⟨hm, rfl⟩⟩
    · rintro ⟨d', hparse⟩
      obtain ⟨hm, rfl⟩ := (parse_kept_eq_ok_iff htold).mp hparse
      exact ⟨d', (parse_detecting_eq_ok_iff hr).mpr ⟨hm, hd⟩⟩

theorem located_read_eq_message_iff (hd : d ∈ [Dialect.numeric, .named])
    (hr : r.dialect? = some d) : located (r.read line).1 = .ok (.message m) ↔
      MessageLine.parse d (LogLine.content line) = .ok m := by
  constructor
  · intro h
    cases hcommon : LogLine.common? (LogLine.content line) with
    | some common =>
      rw [read_of_common hcommon, located_eq_ok_iff] at h
      cases h
      exact absurd hcommon (LogLine.common?_ne_message _ m)
    | none =>
      cases hparse : r.parse (LogLine.content line) with
      | ok found =>
        obtain ⟨m', d'⟩ := found
        obtain ⟨hm, rfl⟩ := (parse_kept_eq_ok_iff hr).mp hparse
        rw [read_of_parse_ok hcommon hparse] at h
        cases h
        exact hm
      | error e =>
        rw [(read_of_parse_error hcommon hparse).1] at h
        exact absurd h (refusal_ne_message r _ m)
  · intro h
    have hcommon := LogLine.common?_of_parse hd h
    rw [read_of_parse_ok hcommon ((parse_kept_eq_ok_iff hr).mpr ⟨h, rfl⟩)]
    rfl

/-- Kept to is the dialect of the first line that is a message of one. -/
theorem readAll_snd (r : MessageReader) (lines : List String) : (r.readAll lines).2 =
    { r with dialect? := r.dialect?.or (lines.findSome? messageDialect?)
             line := r.line + lines.length } := by
  induction lines generalizing r with
  | nil => rw [List.findSome?_nil, Option.or_none]; rfl
  | cons line lines ih =>
    rw [readAll_cons, ih, read_snd, List.findSome?_cons, List.length_cons, Nat.add_assoc,
      Nat.add_comm 1]
    cases r.dialect? with
    | some kept => rfl
    | none => cases messageDialect? line <;> rfl

theorem dialect?_readAll (r : MessageReader) (lines : List String) :
    (r.readAll lines).2.dialect? = r.dialect?.or (lines.findSome? messageDialect?) := by
  rw [readAll_snd]

/-- The answers up to the place where the dialect is found are those of a reader that was told. -/
theorem readAll_told (hd : d ∈ [Dialect.numeric, .named])
    (h : (r.readAll lines).2.dialect? = none ∨ (r.readAll lines).2.dialect? = some d) :
    (r.readAll lines).1.map located =
      (({ r with dialect? := some d } : MessageReader).readAll lines).1.map located := by
  induction lines generalizing r with
  | nil => rfl
  | cons line lines ih =>
    rw [readAll_cons] at h
    have hrest := ih h
    have hfirst : (r.read line).2.dialect? = none ∨ (r.read line).2.dialect? = some d := by
      rw [dialect?_readAll] at h
      cases hnext : (r.read line).2.dialect? with
      | none => exact .inl rfl
      | some kept => rw [hnext, Option.some_or] at h; exact h
    rw [read_snd] at hrest
    rw [readAll_cons, readAll_cons, List.map_cons, List.map_cons, located_read_told hd hfirst,
      read_snd, read_snd, Option.some_or, hrest]

theorem forall₂_kept (hd : d ∈ [Dialect.numeric, .named]) (hr : r.dialect? = some d)
    (lines : List String) : List.Forall₂ (fun line answer => ∀ m, answer = .ok (.message m) ↔
      MessageLine.parse d (LogLine.content line) = .ok m)
      lines ((r.readAll lines).1.map located) := by
  induction lines generalizing r with
  | nil => exact .nil
  | cons line lines ih =>
    have hnext : (r.read line).2.dialect? = some d := by
      rw [read_snd, hr]
      rfl
    rw [readAll_cons, List.map_cons]
    exact .cons (fun m => located_read_eq_message_iff hd hr) (ih hnext)

/-- Answered with a message are the lines that are messages of the dialect that is found. -/
theorem forall₂_readAll (hd : d ∈ [Dialect.numeric, .named])
    (h : (r.readAll lines).2.dialect? = none ∨ (r.readAll lines).2.dialect? = some d) :
    List.Forall₂ (fun line answer => ∀ m, answer = .ok (.message m) ↔
      MessageLine.parse d (LogLine.content line) = .ok m) lines (r.readAll lines).1 := by
  have htold := forall₂_kept (r := { r with dialect? := some d }) hd rfl lines
  rw [← readAll_told hd h, List.forall₂_map_right_iff] at htold
  simpa only [located_eq_ok_iff] using htold

theorem notMem_readAll (h : (r.readAll lines).2.dialect? = none) (m : Message) :
    .ok (.message m) ∉ (r.readAll lines).1 := by
  intro hmem
  have hanswers := forall₂_readAll List.mem_cons_self (.inl h)
  obtain ⟨i, hi, hanswer⟩ := List.mem_iff_getElem.mp hmem
  have hlines : i < lines.length := hanswers.length_eq ▸ hi
  have hparse := (hanswers.get hlines hi m).mp hanswer
  rw [dialect?_readAll, Option.or_eq_none_iff, List.findSome?_eq_none_iff] at h
  have hnone := h.2 lines[i] (List.getElem_mem hlines)
  exact messageDialect?_eq_none_iff.mp hnone _ List.mem_cons_self m hparse

/-- A reader that is not told the dialect takes that of the first line that is a message of one, and
keeps it. It answers every line as if it had been told, those before that line too, and the messages
are those of that dialect. Where no dialect is found, no message is returned. -/
theorem readAll_detecting (policy : Policy) (lines : List String) :
    (readAll { policy } lines).2.dialect? = lines.findSome? messageDialect? ∧
    ((readAll { policy } lines).2.dialect? = none →
      ∀ m, .ok (.message m) ∉ (readAll { policy } lines).1) ∧
    (∀ before after d, lines = before ++ after →
      (readAll { policy } before).2.dialect? = some d →
        (readAll { policy } lines).2.dialect? = some d) ∧
    ∀ d, (readAll { policy } lines).2.dialect? = some d →
      d ∈ [Dialect.numeric, .named] ∧
      (readAll { policy } lines).1.map located =
        (readAll { dialect? := some d, policy } lines).1.map located ∧
      List.Forall₂ (fun line answer => ∀ m, answer = .ok (.message m) ↔
        MessageLine.parse d (LogLine.content line) = .ok m) lines (readAll { policy } lines).1 := by
  have hfound (lines : List String) :
      (readAll { policy } lines).2.dialect? = lines.findSome? messageDialect? := by
    rw [dialect?_readAll, Option.none_or]
  refine ⟨hfound lines, notMem_readAll (r := { policy }), ?_, ?_⟩
  · rintro before after d rfl h
    rw [hfound] at h
    rw [hfound, List.findSome?_append, h, Option.some_or]
  · intro d h
    have hd : d ∈ [Dialect.numeric, .named] := by
      obtain ⟨line, -, hline⟩ := List.exists_of_findSome?_eq_some (hfound lines ▸ h)
      exact (of_messageDialect? hline).1
    have htold := readAll_told (r := { policy }) hd (.inr h)
    exact ⟨hd, htold, forall₂_readAll hd (.inr h)⟩

/-- Before the first message stand a line of no dialect and a broken line of the other dialect. -/
def brokenFirst : List String :=
  ["junk", "9 sent \x7bid:1\x7d",
    "10 sent \x7bId:1 Src:1 Dest:0 DemuxKey:clientReadRequest Key:[3] Value:[] Ok:true\x7d"]

theorem readAll_brokenFirst :
    (readAll { policy := .strict } brokenFirst).2.dialect? = some .named ∧
      (readAll { policy := .strict } brokenFirst).1.map located =
        (readAll { dialect? := some .named, policy := .strict } brokenFirst).1.map located := by
  have hfound : (readAll { policy := .strict } brokenFirst).2.dialect? = some .named := by
    decide +kernel
  exact ⟨hfound, ((readAll_detecting .strict brokenFirst).2.2.2 .named hfound).2.1⟩

end MessageReader
end StoreAudit
