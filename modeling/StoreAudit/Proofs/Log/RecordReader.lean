import StoreAudit.Log.RecordReader
import StoreAudit.Proofs.Log.Line
import StoreAudit.Proofs.Log.RecordLine

/-! What a reader of records makes of a line: of one that is made up of the parts of a record line,
of one that an operation is written as, and of one that begins with two runs of digits. -/
namespace StoreAudit
open Grammar

namespace Operation
variable (op : Operation)

theorem isPlain_render : ∀ c ∈ op.render.toList, LogLine.isPlain c := by
  have hspace : ∀ c ∈ " ".toList, LogLine.isPlain c := List.all_eq_true.mp rfl
  have haction : ∀ c ∈ op.action.name.toList, LogLine.isPlain c :=
    List.all_eq_true.mp (by cases op.action <;> rfl)
  have hresult : ∀ c ∈ (resultWord op.action op.outcome).toList, LogLine.isPlain c :=
    List.all_eq_true.mp (by cases op.action <;> cases op.outcome <;> rfl)
  rw [toList_render]
  simp only [List.forall_mem_append]
  exact ⟨LogLine.isPlain_toString _, hspace, LogLine.isPlain_toString _, hspace, haction, hspace,
    LogLine.isPlain_words _, hspace, LogLine.isPlain_words _, hspace, LogLine.isPlain_toString _,
    hspace, hresult⟩

theorem notMem_render : '\n' ∉ op.render.toList ∧ '\r' ∉ op.render.toList :=
  ⟨fun hfeed => Bool.false_ne_true (op.isPlain_render _ hfeed),
    fun hreturn => Bool.false_ne_true (op.isPlain_render _ hreturn)⟩

end Operation

namespace RecordReader
variable {line : String} {op : Operation}

theorem read_of_parse (r : RecordReader)
    (h : RecordLine.parse r.nextId (LogLine.content line) = .ok op) :
    r.read line = (.ok (.record op), { nextId := r.nextId + 1, line := r.line + 1 }) := by
  obtain ⟨c, cs, hline, hc⟩ := RecordLine.exists_isDigit_of_parse h
  have hcommon := LogLine.common?_of_isDigit hline hc
  have hstarts := RecordLine.startsLikeRecord_of_parse h
  simp only [read, hcommon, hstarts, h, if_true]

/-- A record ends with its result and blanks, so that no line end is cut off. -/
theorem content_eq_self_of_derivation (t : Trailed RecordLine.Derivation)
    (hline : t.phrase.text ++ t.trailing = line.toList) : LogLine.content line = line := by
  obtain ⟨front, hfront⟩ : ∃ front, t.phrase.text = front ++ t.phrase.result.1.1.toList := by
    simp only [RecordLine.Derivation.text, List.flatten_cons, List.flatten_nil, List.append_nil,
      ← List.append_assoc]
    exact ⟨_, rfl⟩
  have hresult : ∀ spelling ∈ RecordLine.spellings, spelling.1.toList ≠ [] ∧
      ∀ c ∈ spelling.1.toList, (c == '\n' || c == '\r') = false := by
    simp [RecordLine.spellings]
  obtain ⟨hne, hletters⟩ := hresult t.phrase.result.1 t.phrase.result.2
  have hblank : ∀ c ∈ t.trailing, (c == '\n' || c == '\r') = false := by
    intro c hc
    rcases isGap_iff.mp (t.blank c hc) with rfl | rfl <;> rfl
  have hstops : Stops (fun c => c == '\n' || c == '\r') line.toList.reverse := by
    rw [← hline, hfront, List.append_assoc, List.reverse_append]
    refine (stops_append ?_).mpr (stops_of_forall fun c hc => ?_)
    · exact List.reverse_ne_nil_iff.mpr (List.append_ne_nil_of_left_ne_nil hne _)
    · rcases List.mem_append.mp (List.mem_reverse.mp hc) with hc | hc
      · exact hletters c hc
      · exact hblank c hc
  obtain ⟨kept, hcontent, hkept⟩ :=
    LogLine.exists_toList_content (List.append_nil line.toList).symm hstops
  rw [List.prefix_nil.mp hkept, List.append_nil] at hcontent
  exact String.toList_injective hcontent

/-- A line is read as a record exactly if it is made up of the parts of a record line with spaces
and tabs behind them, and the operation is the one that the parts denote. There is no other way to
make the line up. A reader takes every such line for a record, under its next id. -/
theorem parse_and_read_iff_derivation (line : String) :
    (∀ id op, RecordLine.parse id line = .ok op ↔ ∃ t : Trailed RecordLine.Derivation,
      t.phrase.text ++ t.trailing = line.toList ∧ t.phrase.operation id = op) ∧
    (Function.Injective fun t : Trailed RecordLine.Derivation => t.phrase.text ++ t.trailing) ∧
    ∀ t : Trailed RecordLine.Derivation, t.phrase.text ++ t.trailing = line.toList →
      ∀ r : RecordReader, r.read line = (.ok (.record (t.phrase.operation r.nextId)),
        { nextId := r.nextId + 1, line := r.line + 1 }) := by
  have hreads (id : Nat) (op : Operation) : (RecordLine.parse id line = .ok op ↔
      ∃ t : Trailed RecordLine.Derivation,
        t.phrase.text ++ t.trailing = line.toList ∧ t.phrase.operation id = op) ∧
      Function.Injective fun t : Trailed RecordLine.Derivation => t.phrase.text ++ t.trailing := by
    rw [RecordLine.parse_eq_ok_iff]
    exact (RecordLine.recognises_grammar id).readLine
  refine ⟨fun id op => (hreads id op).1, (hreads 0 default).2, fun t hline r => ?_⟩
  refine r.read_of_parse ?_
  rw [content_eq_self_of_derivation t hline]
  exact (hreads _ _).1.mpr ⟨t, hline, rfl⟩

/-- A write with an unknown result, with a space and a tab in most gaps and behind it. -/
theorem read_wideRecord :
    let line := "0 \t18446744073709551615 \twrite \t[1 \t20] [] \t7 unknown\t "
    let op : Operation := ⟨4, .write, [1, 20], [], 0, 18446744073709551615, some 7, .unknown⟩
    (∃ t : Trailed RecordLine.Derivation,
      t.phrase.text ++ t.trailing = line.toList ∧ t.phrase.operation 4 = op) ∧
      RecordLine.parse 4 line = .ok op ∧
      ({ nextId := 4, line := 9 } : RecordReader).read line =
        (.ok (.record op), { nextId := 5, line := 10 }) := by
  intro line op
  let gap : Gap := ⟨[' ', '\t'], by decide, List.all_eq_true.mp rfl⟩
  obtain ⟨t, hline, hop⟩ : ∃ t : Trailed RecordLine.Derivation,
      t.phrase.text ++ t.trailing = line.toList ∧ t.phrase.operation 4 = op := by
    refine ⟨{
      phrase :=
        { start := (.ofNat 0 (by decide), gap)
          finish := (.ofNat 18446744073709551615 (by decide), gap)
          action := (.write, gap)
          key := (some (.ofNat 1 (by decide), [(gap, .ofNat 20 (by decide))]), .space)
          value := (none, gap)
          version := (.ofNat 7 (by decide), .space)
          result := ⟨_, Operation.mem_spellings_resultWord .write .unknown⟩ }
      trailing := ['\t', ' ']
      blank := List.all_eq_true.mp rfl }, ?_, ?_⟩
    · decide
    · decide
  obtain ⟨hparse, -, hread⟩ := parse_and_read_iff_derivation line
  refine ⟨⟨t, hline, hop⟩, (hparse 4 op).mpr ⟨t, hline, hop⟩, ?_⟩
  rw [hread t hline, hop]

theorem read_render (r : RecordReader) (h : op.Fits) : r.read op.render =
    (.ok (.record (op.recorded r.nextId)), { nextId := r.nextId + 1, line := r.line + 1 }) := by
  obtain ⟨hfeed, hreturn⟩ := op.notMem_render
  refine r.read_of_parse ?_
  rw [LogLine.content_eq_self hfeed hreturn]
  exact Operation.parse_render h r.nextId

/-- What becomes of the lines, and the reader after them. -/
def readAll (r : RecordReader) : List String → List (Except ParseError LogLine) × RecordReader
  | [] => ([], r)
  | line :: rest =>
    let (classified, next) := r.read line
    let (others, last) := next.readAll rest
    (classified :: others, last)

theorem readAll_cons (r : RecordReader) (line : String) (lines : List String) :
    r.readAll (line :: lines) =
      ((r.read line).1 :: ((r.read line).2.readAll lines).1,
        ((r.read line).2.readAll lines).2) := by
  rw [readAll]

/-- Operations are read back in their order, under the ids from the next one on. -/
theorem readAll_render (r : RecordReader) {ops : List Operation} (h : ∀ op ∈ ops, op.Fits) :
    r.readAll (ops.map Operation.render) =
      ((ops.zipIdx r.nextId).map fun (op, id) => .ok (.record (op.recorded id)),
        { nextId := r.nextId + ops.length, line := r.line + ops.length }) := by
  induction ops generalizing r with
  | nil => rfl
  | cons op ops ih =>
    obtain ⟨hop, hops⟩ := List.forall_mem_cons.mp h
    rw [List.map_cons, readAll_cons, read_render r hop, ih _ hops]
    simp only [List.zipIdx_cons, List.map_cons, List.length_cons, Prod.mk.injEq,
      RecordReader.mk.injEq, true_and]
    omega

/-- The line is a record, or it is refused as one under its number. -/
def AsRecord (answer : Except ParseError LogLine) (number : Nat) : Prop :=
  (∃ op, answer = .ok (.record op)) ∨ ∃ e, answer = .error e ∧ e.kind = .record ∧ e.line = number

theorem not_asRecord_passthrough (text : String) (number : Nat) :
    ¬ AsRecord (.ok (.passthrough text)) number := by
  rintro (⟨_, h⟩ | ⟨_, h, -⟩) <;> cases h

theorem asRecord_read (r : RecordReader)
    (hcommon : LogLine.common? (LogLine.content line) = none)
    (hstarts : RecordLine.startsLikeRecord (LogLine.content line)) :
    AsRecord (r.read line).1 (r.line + 1) := by
  simp only [read, hcommon, hstarts, if_true]
  unfold RecordLine.parse
  cases readLine (RecordLine.grammar r.nextId) (LogLine.content line) with
  | ok op => exact .inl ⟨op, rfl⟩
  | error s => exact .inr ⟨_, rfl, rfl, rfl⟩

theorem read_eq_passthrough (r : RecordReader)
    (hcommon : LogLine.common? (LogLine.content line) = none)
    (hstarts : RecordLine.startsLikeRecord (LogLine.content line) = false) :
    (r.read line).1 = .ok (.passthrough (LogLine.content line)) := by
  simp only [read, hcommon, hstarts, Bool.false_eq_true, if_false]

section Digits
variable {first second : Run Char.isDigit} {between : Gap} {rest : List Char}

/-- The line ends are cut off, and the runs of digits are what they were. -/
theorem exists_content_of_digits
    (hline : line.toList = first.text ++ (between.text ++ (second.text ++ rest)))
    (hrest : Stops Char.isDigit rest) : ∃ kept, Stops Char.isDigit kept ∧
      (LogLine.content line).toList = first.text ++ (between.text ++ (second.text ++ kept)) := by
  have hfront : Stops (fun c => c == '\n' || c == '\r')
      (first.text ++ (between.text ++ second.text)).reverse := by
    rw [List.reverse_append, List.reverse_append, List.append_assoc]
    refine (stops_append (List.reverse_ne_nil_iff.mpr second.nonempty)).mpr ?_
    refine stops_of_forall fun c hc => Bool.eq_false_iff.mpr fun hend => ?_
    have hdigit := second.all c (List.mem_reverse.mp hc)
    rw [Bool.or_eq_true, beq_iff_eq, beq_iff_eq] at hend
    rcases hend with rfl | rfl <;> cases hdigit
  have hsplit : line.toList = (first.text ++ (between.text ++ second.text)) ++ rest := by
    rw [hline, List.append_assoc, List.append_assoc]
  obtain ⟨kept, hcontent, tail, rfl⟩ := LogLine.exists_toList_content hsplit hfront
  refine ⟨kept, fun c hc => hrest c ?_, ?_⟩
  · rw [List.head?_append, Option.mem_def.mp hc, Option.some_or]
    rfl
  · rw [hcontent, List.append_assoc, List.append_assoc]

/-- A line that begins with two runs of digits is a record, or refused as one, exactly if the runs
are taken for two numbers. Every other such line is passed through. -/
theorem read_of_digits (r : RecordReader)
    (hline : line.toList = first.text ++ (between.text ++ (second.text ++ rest)))
    (hrest : Stops Char.isDigit rest) :
    (AsRecord (r.read line).1 (r.line + 1) ↔ RecordLine.Announces first second) ∧
      ((r.read line).1 = .ok (.passthrough (LogLine.content line)) ↔
        ¬ RecordLine.Announces first second) := by
  obtain ⟨kept, hkept, hcontent⟩ := exists_content_of_digits hline hrest
  have hcommon : LogLine.common? (LogLine.content line) = none := by
    obtain ⟨c, cs, htext⟩ := List.exists_cons_of_ne_nil first.nonempty
    have hc : c.isDigit := first.all c (htext ▸ List.mem_cons_self)
    rw [htext, List.cons_append] at hcontent
    exact LogLine.common?_of_isDigit hcontent hc
  have hstarts := RecordLine.startsLikeRecord_iff hcontent hkept
  by_cases hannounced : RecordLine.Announces first second
  · have hrecord := asRecord_read r hcommon (hstarts.mpr hannounced)
    refine ⟨iff_of_true hrecord hannounced, iff_of_false (fun hpass => ?_) (not_not.mpr hannounced)⟩
    rw [hpass] at hrecord
    exact not_asRecord_passthrough _ _ hrecord
  · have hpass := read_eq_passthrough r hcommon (Bool.eq_false_iff.mpr (hstarts.not.mpr hannounced))
    refine ⟨iff_of_false (fun hrecord => ?_) hannounced, iff_of_true hpass hannounced⟩
    rw [hpass] at hrecord
    exact not_asRecord_passthrough _ _ hrecord

end Digits

/-- The second number has leading zeros, so the line is refused behind the first of them. -/
theorem asRecord_paddedFinish :
    "12 007 read [1] [] 3 true\n".toList = ['1', '2'] ++ ([' '] ++ (['0', '0', '7'] ++
      " read [1] [] 3 true\n".toList)) ∧
    AsRecord (({ nextId := 2, line := 4 } : RecordReader).read "12 007 read [1] [] 3 true\n").1 5 := by
  let first : Run Char.isDigit := ⟨['1', '2'], by decide, List.all_eq_true.mp rfl⟩
  let second : Run Char.isDigit := ⟨['0', '0', '7'], by decide, List.all_eq_true.mp rfl⟩
  have hline : "12 007 read [1] [] 3 true\n".toList =
      first.text ++ (Gap.space.text ++ (second.text ++ " read [1] [] 3 true\n".toList)) := rfl
  have hread := read_of_digits { nextId := 2, line := 4 } hline (stops_cons.mpr rfl)
  exact ⟨rfl, hread.1.mpr (by decide)⟩

/-- A record whose start has leading zeros is passed through as if it were no record. So is one with a
time that is too large. -/
theorem passthrough_paddedStart :
    "007 12 read [1] [] 3 true".toList = ['0', '0', '7'] ++ ([' '] ++ (['1', '2'] ++
      " read [1] [] 3 true".toList)) ∧
    (({} : RecordReader).read "007 12 read [1] [] 3 true").1 =
      .ok (.passthrough "007 12 read [1] [] 3 true") ∧
    ¬ AsRecord (({} : RecordReader).read "007 12 read [1] [] 3 true").1 1 ∧
    (({} : RecordReader).read "7 18446744073709551616 read [1] [] 3 true").1 =
      .ok (.passthrough "7 18446744073709551616 read [1] [] 3 true") := by
  have hpadded : (({} : RecordReader).read "007 12 read [1] [] 3 true").1 =
      .ok (.passthrough "007 12 read [1] [] 3 true") := by decide
  refine ⟨rfl, hpadded, ?_, by decide⟩
  rw [hpadded]
  exact not_asRecord_passthrough _ _

end RecordReader
end StoreAudit
