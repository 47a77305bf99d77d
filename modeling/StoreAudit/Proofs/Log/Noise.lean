import StoreAudit.Proofs.Log.Detection
import StoreAudit.Proofs.Log.RecordReader

/-! Lines that hold nothing for a reader. Wherever they stand in a log, the messages and the dialect
that are read from it are the same, and so are the records and their ids. -/
namespace StoreAudit

/-- The second list is the first with lines of noise put in anywhere. -/
inductive Interspersed (noise : String → Prop) : List String → List String → Prop where
  | nil : Interspersed noise [] []
  | keep {lines noisy : List String} (line : String) (h : Interspersed noise lines noisy) :
    Interspersed noise (line :: lines) (line :: noisy)
  | insert {lines noisy : List String} {line : String} (hline : noise line)
    (h : Interspersed noise lines noisy) : Interspersed noise lines (line :: noisy)

/-- What is found in single lines is the same if nothing is found in noise. -/
theorem Interspersed.filterMap_eq {α : Type} {noise : String → Prop} {f : String → Option α}
    {lines noisy : List String} (h : Interspersed noise lines noisy)
    (hf : ∀ line, noise line → f line = none) : noisy.filterMap f = lines.filterMap f := by
  induction h with
  | nil => rfl
  | keep line _ ih => rw [List.filterMap_cons, List.filterMap_cons, ih]
  | insert hline _ ih => rw [List.filterMap_cons_none (hf _ hline), ih]

theorem toOption_eq_some_iff {ε α : Type} {x : Except ε α} {a : α} :
    x.toOption = some a ↔ x = .ok a := by
  cases x <;> simp [Except.toOption]

namespace LogLine
variable {answer : Except ParseError LogLine}

/-- The message that a line was answered with. -/
def messageOf? : Except ParseError LogLine → Option Message
  | .ok (.message m) => some m
  | _ => none

/-- The record that a line was answered with. -/
def recordOf? : Except ParseError LogLine → Option Operation
  | .ok (.record op) => some op
  | _ => none

theorem messageOf?_eq_some_iff {m : Message} :
    messageOf? answer = some m ↔ answer = .ok (.message m) := by
  unfold messageOf?
  split <;> simp_all

theorem recordOf?_eq_none_iff : recordOf? answer = none ↔ ∀ op, answer ≠ .ok (.record op) := by
  unfold recordOf?
  split <;> simp_all

end LogLine

namespace MessageReader
variable {r : MessageReader} {d : Dialect} {lines noisy : List String}

/-- Once its line end is cut off, the line is no message of either dialect. -/
def Noise (line : String) : Prop :=
  ∀ d ∈ [Dialect.numeric, .named], ∀ m, MessageLine.parse d (LogLine.content line) ≠ .ok m

/-- The message of the dialect that the line is. -/
def held? (d : Dialect) (line : String) : Option Message :=
  (MessageLine.parse d (LogLine.content line)).toOption

/-- The messages of a run are the lines that are messages of the dialect that is found. -/
theorem messages_readAll (hd : d ∈ [Dialect.numeric, .named])
    (h : (r.readAll lines).2.dialect? = none ∨ (r.readAll lines).2.dialect? = some d) :
    (r.readAll lines).1.filterMap LogLine.messageOf? = lines.filterMap (held? d) := by
  have hanswers := forall₂_readAll hd h
  generalize (r.readAll lines).1 = answers at hanswers
  clear h
  induction hanswers with
  | nil => rfl
  | @cons line answer lines answers hfirst _ ih =>
    have hsame : LogLine.messageOf? answer = held? d line := by
      refine Option.ext fun m => ?_
      rw [LogLine.messageOf?_eq_some_iff, held?, toOption_eq_some_iff, hfirst]
    rw [List.filterMap_cons, List.filterMap_cons, hsame, ih]

theorem exists_dialect?_readAll (hr : ∀ d ∈ r.dialect?, d ∈ [Dialect.numeric, .named])
    (lines : List String) : ∃ d ∈ [Dialect.numeric, .named],
      (r.readAll lines).2.dialect? = none ∨ (r.readAll lines).2.dialect? = some d := by
  cases hfinal : (r.readAll lines).2.dialect? with
  | none => exact ⟨.numeric, List.mem_cons_self, .inl rfl⟩
  | some d =>
    refine ⟨d, ?_, .inr rfl⟩
    rw [dialect?_readAll, Option.or_eq_some_iff] at hfinal
    rcases hfinal with hkept | ⟨-, hfound⟩
    · exact hr d hkept
    · obtain ⟨line, -, hline⟩ := List.exists_of_findSome?_eq_some hfound
      exact (of_messageDialect? hline).1

theorem readAll_noise (hr : ∀ d ∈ r.dialect?, d ∈ [Dialect.numeric, .named])
    (h : Interspersed Noise lines noisy) :
    (r.readAll noisy).2.dialect? = (r.readAll lines).2.dialect? ∧
      (r.readAll noisy).1.filterMap LogLine.messageOf? =
        (r.readAll lines).1.filterMap LogLine.messageOf? := by
  have hdialect : (r.readAll noisy).2.dialect? = (r.readAll lines).2.dialect? := by
    have hfound := h.filterMap_eq (f := messageDialect?) fun _ => messageDialect?_eq_none_iff.mpr
    rw [dialect?_readAll, dialect?_readAll, ← List.head?_filterMap, ← List.head?_filterMap, hfound]
  refine ⟨hdialect, ?_⟩
  obtain ⟨d, hd, hfinal⟩ := exists_dialect?_readAll hr lines
  rw [messages_readAll hd hfinal, messages_readAll hd (hdialect ▸ hfinal)]
  refine h.filterMap_eq fun line hline => Option.eq_none_iff_forall_ne_some.mpr fun m hm => ?_
  exact hline d hd m (toOption_eq_some_iff.mp hm)

end MessageReader

namespace RecordReader
variable {r : RecordReader} {line : String} {lines noisy : List String}

/-- Some reader, and then every reader, returns the line as something else or refuses it. -/
def Noise (line : String) : Prop := ∃ r : RecordReader, ∀ op, (r.read line).1 ≠ .ok (.record op)

/-- The record that the line is, as that of a new reader. -/
def held? (line : String) : Option Operation :=
  (RecordLine.parse 0 (LogLine.content line)).toOption

/-- The id is all that a record takes from the reader. -/
theorem parse_of_parse {id : Nat} {op : Operation} (h : RecordLine.parse id line = .ok op)
    (id' : Nat) : RecordLine.parse id' line = .ok { op with id := id' } := by
  rw [RecordLine.parse_eq_ok_iff, (RecordLine.recognises_grammar id).readLine.1] at h
  rw [RecordLine.parse_eq_ok_iff, (RecordLine.recognises_grammar id').readLine.1]
  obtain ⟨t, hline, rfl⟩ := h
  exact ⟨t, hline, rfl⟩

theorem read_of_held?_eq_none (r : RecordReader) (h : held? line = none) :
    LogLine.recordOf? (r.read line).1 = none ∧ (r.read line).2 = { r with line := r.line + 1 } := by
  rw [LogLine.recordOf?_eq_none_iff]
  cases hcommon : LogLine.common? (LogLine.content line) with
  | some common =>
    simp only [read, hcommon]
    refine ⟨fun op hop => ?_, trivial⟩
    obtain rfl := Except.ok.inj hop
    rcases LogLine.of_common? hcommon with h | h | ⟨_, h⟩ <;> cases h
  | none =>
    simp only [read, hcommon]
    split_ifs
    · cases hparse : RecordLine.parse r.nextId (LogLine.content line) with
      | ok op =>
        have hheld : held? line = some { op with id := 0 } :=
          toOption_eq_some_iff.mpr (parse_of_parse hparse 0)
        cases h.symm.trans hheld
      | error e =>
        refine ⟨fun op hop => ?_, rfl⟩
        cases hop
    · refine ⟨fun op hop => ?_, rfl⟩
      cases hop

/-- A record takes up an id, and every line counts. -/
theorem read_eq (r : RecordReader) (line : String) :
    LogLine.recordOf? (r.read line).1 = (held? line).map ({ · with id := r.nextId }) ∧
      (r.read line).2 =
        { nextId := r.nextId + (held? line).toList.length, line := r.line + 1 } := by
  cases hheld : held? line with
  | none => exact r.read_of_held?_eq_none hheld
  | some op =>
    have hparse := parse_of_parse (toOption_eq_some_iff.mp hheld) r.nextId
    rw [r.read_of_parse hparse]
    exact ⟨rfl, rfl⟩

/-- The records of a run are the lines that are records, under the ids from the next one on. -/
theorem readAll_eq (r : RecordReader) (lines : List String) :
    (r.readAll lines).1.filterMap LogLine.recordOf? =
        ((lines.filterMap held?).zipIdx r.nextId).map (fun (op, id) => { op with id }) ∧
      (r.readAll lines).2 =
        { nextId := r.nextId + (lines.filterMap held?).length, line := r.line + lines.length } := by
  induction lines generalizing r with
  | nil => exact ⟨rfl, rfl⟩
  | cons line lines ih =>
    obtain ⟨hfirst, hnext⟩ := r.read_eq line
    obtain ⟨hrecords, hlast⟩ := ih (r.read line).2
    rw [readAll_cons, List.filterMap_cons, hfirst, hrecords, hlast, hnext, List.length_cons]
    cases hline : held? line with
    | none =>
      rw [List.filterMap_cons_none hline]
      refine ⟨rfl, ?_⟩
      simp only [Option.toList_none, List.length_nil, RecordReader.mk.injEq]
      omega
    | some op =>
      rw [List.filterMap_cons_some hline, List.zipIdx_cons, List.length_cons]
      refine ⟨rfl, ?_⟩
      simp only [Option.toList_some, List.length_singleton, RecordReader.mk.injEq]
      omega

theorem held?_of_noise (h : Noise line) : held? line = none := by
  obtain ⟨r, hr⟩ := h
  rw [← LogLine.recordOf?_eq_none_iff, (r.read_eq line).1, Option.map_eq_none_iff] at hr
  exact hr

end RecordReader

/-- Noise between the lines of a log changes neither the messages that are read from it nor the
dialect that is found, and noise between the lines of another changes no record. The records of
every run have the ids from the next one on, and every line is counted. -/
theorem readAll_of_interspersed :
    (∀ (r : MessageReader) (lines noisy : List String),
      (∀ d ∈ r.dialect?, d ∈ [Dialect.numeric, .named]) →
      Interspersed MessageReader.Noise lines noisy →
        (r.readAll noisy).1.filterMap LogLine.messageOf? =
            (r.readAll lines).1.filterMap LogLine.messageOf? ∧
          (r.readAll noisy).2.dialect? = (r.readAll lines).2.dialect?) ∧
    (∀ (r : RecordReader) (lines noisy : List String),
      Interspersed RecordReader.Noise lines noisy →
        (r.readAll noisy).1.filterMap LogLine.recordOf? =
          (r.readAll lines).1.filterMap LogLine.recordOf?) ∧
    ∀ (r : RecordReader) (lines : List String),
      (((r.readAll lines).1.filterMap LogLine.recordOf?).map fun op => op.id) =
          List.range' r.nextId ((r.readAll lines).1.filterMap LogLine.recordOf?).length ∧
        (r.readAll lines).2.line = r.line + lines.length := by
  refine ⟨fun r lines noisy hr h => ?_, fun r lines noisy h => ?_, fun r lines => ?_⟩
  · obtain ⟨hdialect, hmessages⟩ := MessageReader.readAll_noise hr h
    exact ⟨hmessages, hdialect⟩
  · rw [(r.readAll_eq noisy).1, (r.readAll_eq lines).1,
      h.filterMap_eq fun _ => RecordReader.held?_of_noise]
  · obtain ⟨hrecords, hlast⟩ := r.readAll_eq lines
    refine ⟨?_, congrArg RecordReader.line hlast⟩
    rw [hrecords, List.map_map, List.length_map, List.length_zipIdx]
    exact List.zipIdx_map_snd r.nextId _

/-- In front of the first message stand a broken line of the other dialect and a mark of a fault,
and behind it a broken line of its own. Between two records stand a blank line, a line of the
monitor and a record without its version. -/
theorem readAll_of_interspersed_broken :
    let sent :=
      "10 sent \x7bId:1 Src:1 Dest:0 DemuxKey:clientReadRequest Key:[3] Value:[] Ok:true\x7d"
    let messages :=
      ["9 sent \x7bid:1\x7d\r\n", "Node 1 recovered", sent, "11 sent \x7bId:2 Src:1\x7d"]
    let records := ["0 10 write [1] [5] 1 success", "12 20 read [1] [5] 1 true"]
    let noisy := [records[0], "", "\x7b\x7d", "12 20 read [1] [5] true", records[1]]
    Interspersed MessageReader.Noise [sent] messages ∧
      (({} : MessageReader).readAll messages).1.filterMap LogLine.messageOf? =
        (({} : MessageReader).readAll [sent]).1.filterMap LogLine.messageOf? ∧
      (({} : MessageReader).readAll messages).2.dialect? = some .named ∧
      Interspersed RecordReader.Noise records noisy ∧
      (({} : RecordReader).readAll noisy).1.filterMap LogLine.recordOf? =
        (({} : RecordReader).readAll records).1.filterMap LogLine.recordOf? := by
  intro sent messages records noisy
  have hbroken (line : String) (h : MessageReader.messageDialect? line = none) :
      MessageReader.Noise line := MessageReader.messageDialect?_eq_none_iff.mp h
  have hother (line : String) (h : LogLine.recordOf? (({} : RecordReader).read line).1 = none) :
      RecordReader.Noise line := ⟨{}, LogLine.recordOf?_eq_none_iff.mp h⟩
  have hmessages : Interspersed MessageReader.Noise [sent] messages := by
    refine .insert (hbroken _ ?_) (.insert (hbroken _ ?_) (.keep _ (.insert (hbroken _ ?_) .nil)))
    all_goals decide +kernel
  have hrecords : Interspersed RecordReader.Noise records noisy := by
    refine .keep _ (.insert (hother _ ?_) (.insert (hother _ ?_) (.insert (hother _ ?_)
      (.keep _ .nil))))
    all_goals decide +kernel
  obtain ⟨hread, hdialect⟩ :=
    readAll_of_interspersed.1 {} [sent] messages (fun _ h => nomatch h) hmessages
  exact ⟨hmessages, hread, hdialect.trans (by decide +kernel), hrecords,
    readAll_of_interspersed.2.1 {} records noisy hrecords⟩

end StoreAudit
