import StoreAudit.Log.MessageReader
import StoreAudit.Proofs.Log.Line
import StoreAudit.Proofs.Log.Token

/-! What a reader makes of the lines that messages are written as. -/
namespace StoreAudit
open Grammar

/-- A message line begins with the digits of its time. -/
theorem LogLine.common?_of_parse {line : String} {d : Dialect}
    (hd : d ∈ [Dialect.numeric, .named]) {m : Message} (h : MessageLine.parse d line = .ok m) :
    common? line = none := by
  have hrecognises := MessageLine.recognises_grammar (Dialect.readable_of_mem hd)
  obtain ⟨t, hline, -⟩ := hrecognises.readLine.1.mp (MessageLine.parse_eq_ok_iff.mp h)
  obtain ⟨c, cs, htime⟩ := List.exists_cons_of_ne_nil t.phrase.time.1.nonempty
  rw [MessageLine.Derivation.text, htime] at hline
  exact common?_of_isDigit hline.symm (t.phrase.time.1.all c (htime ▸ List.mem_cons_self))

namespace Dialect
open LogLine (isPlain isPlain_of_isAlphanum isPlain_toString isPlain_words)
variable {d : Dialect} {event : String} {m : Message}

theorem isPlain_encode {code : PurposeCode} {p : Purpose} (h : code.Writes p) :
    ∀ c ∈ (code.encode p).toList, isPlain c := by
  intro c hc
  have hcode := PurposeCode.isCodeChar_of_mem_encode h c hc
  refine isPlain_of_isAlphanum ?_
  cases code with
  | digits =>
    have hdigit : c.isDigit := hcode
    rw [Char.isAlphanum, hdigit, Bool.or_true]
  | names => exact hcode

theorem isPlain_fieldText {name : String} {text rest : List Char}
    (hname : ∀ c ∈ name.toList, isPlain c) (htext : ∀ c ∈ text, isPlain c)
    (hrest : ∀ c ∈ rest, isPlain c) : ∀ c ∈ fieldText name text rest, isPlain c := by
  unfold fieldText
  simp only [List.forall_mem_append]
  exact ⟨hname, List.all_eq_true.mp rfl, htext, List.all_eq_true.mp rfl, hrest⟩

theorem isPlain_render (hd : d ∈ [numeric, named]) (h : d.Carries event m) :
    ∀ c ∈ (d.render event m).toList, isPlain c := by
  have hname : ∀ name ∈ d.fieldNames, name.toList.all isPlain := by
    simp only [List.mem_cons, List.not_mem_nil, or_false] at hd
    rcases hd with rfl | rfl <;> decide
  have hevent : ∀ c ∈ event.toList, isPlain c := fun c hc =>
    isPlain_of_isAlphanum (by simp [Char.isAlphanum, h.letters c hc])
  have hok : ∀ c ∈ (toString m.ok).toList, isPlain c :=
    List.all_eq_true.mp (by cases m.ok <;> rfl)
  simp only [fieldNames, List.forall_mem_cons, List.all_eq_true] at hname
  obtain ⟨hid, hsender, hreceiver, hpurp, hkey, hvalue, hversionname, hokname, -⟩ := hname
  have hversion (rest : List Char) (hrest : ∀ c ∈ rest, isPlain c) :
      ∀ c ∈ d.versionText m.version rest, isPlain c := by
    cases m.version with
    | none => exact hrest
    | some v => exact isPlain_fieldText hversionname (isPlain_toString v) hrest
  rw [toList_render]
  simp only [List.forall_mem_append]
  refine ⟨isPlain_toString m.time, List.all_eq_true.mp rfl, hevent, List.all_eq_true.mp rfl,
    List.all_eq_true.mp rfl, ?_⟩
  refine isPlain_fieldText hid (isPlain_toString m.id) ?_
  refine isPlain_fieldText hsender (isPlain_toString m.sender) ?_
  refine isPlain_fieldText hreceiver (isPlain_toString m.receiver) ?_
  refine isPlain_fieldText hpurp (isPlain_encode h.purpose) ?_
  refine isPlain_fieldText hkey (isPlain_words m.key) ?_
  refine isPlain_fieldText hvalue (isPlain_words m.value) (hversion _ ?_)
  simp only [List.forall_mem_append]
  exact ⟨hokname, List.all_eq_true.mp rfl, hok, List.all_eq_true.mp rfl⟩

end Dialect

namespace MessageReader

/-- What becomes of the lines, and the reader after them. -/
def readAll (r : MessageReader) : List String → List (Except ParseError LogLine) × MessageReader
  | [] => ([], r)
  | line :: rest =>
    let (classified, next) := r.read line
    let (others, last) := next.readAll rest
    (classified :: others, last)

theorem readAll_cons (r : MessageReader) (line : String) (lines : List String) :
    r.readAll (line :: lines) =
      ((r.read line).1 :: ((r.read line).2.readAll lines).1,
        ((r.read line).2.readAll lines).2) := by
  rw [readAll]

variable {d : Dialect} {event : String} {m : Message}

theorem notMem_render (hd : d ∈ [Dialect.numeric, .named]) (h : d.Carries event m) :
    '\n' ∉ (d.render event m).toList ∧ '\r' ∉ (d.render event m).toList := by
  have hplain := Dialect.isPlain_render hd h
  exact ⟨fun hfeed => Bool.false_ne_true (hplain _ hfeed),
    fun hreturn => Bool.false_ne_true (hplain _ hreturn)⟩

theorem parse_render (r : MessageReader) (hd : d ∈ [Dialect.numeric, .named])
    (h : d.Carries event m) (hr : r.dialect? = none ∨ r.dialect? = some d) :
    r.parse (d.render event m) = .ok (m, d) := by
  have hparse := MessageLine.parse_render (Dialect.readable_of_mem hd) h
  rcases hr with hr | hr
  · rw [parse, hr]
    simp only [parseDetected, Dialect.detect?_render hd h, hparse]
    rfl
  · rw [parse, hr]
    simp only [parseKept, hparse]
    rfl

theorem read_render (r : MessageReader) (hd : d ∈ [Dialect.numeric, .named])
    (h : d.Carries event m) (hr : r.dialect? = none ∨ r.dialect? = some d) :
    r.read (d.render event m) =
      (.ok (.message m), { r with dialect? := some d, line := r.line + 1 }) := by
  obtain ⟨hfeed, hreturn⟩ := notMem_render hd h
  have hcommon : LogLine.common? (d.render event m) = none :=
    LogLine.common?_of_parse hd (MessageLine.parse_render (Dialect.readable_of_mem hd) h)
  simp only [read, LogLine.content_eq_self hfeed hreturn, hcommon, parse_render r hd h hr]

theorem readAll_render (hd : d ∈ [Dialect.numeric, .named]) {lines : List (String × Message)}
    (h : ∀ e ∈ lines, d.Carries e.1 e.2) (r : MessageReader)
    (hr : r.dialect? = none ∨ r.dialect? = some d) :
    r.readAll (lines.map fun e => d.render e.1 e.2) =
      (lines.map fun e => .ok (.message e.2),
        { r with dialect? := if lines = [] then r.dialect? else some d
                 line := r.line + lines.length }) := by
  induction lines generalizing r with
  | nil => rfl
  | cons e lines ih =>
    obtain ⟨he, hlines⟩ := List.forall_mem_cons.mp h
    have hrest := ih hlines { r with dialect? := some d, line := r.line + 1 } (.inr rfl)
    rw [ite_self] at hrest
    rw [List.map_cons, readAll_cons, read_render r hd he hr, List.map_cons,
      if_neg (List.cons_ne_nil e lines), List.length_cons]
    simp only [hrest, Prod.mk.injEq, MessageReader.mk.injEq, true_and]
    omega

end MessageReader
end StoreAudit
