import StoreAudit.Proofs.Log.MessageLine

/-! The tokens at the front of a text, and the dialect that a line tells by its first field. -/
namespace StoreAudit

namespace Token
open Grammar
variable {c : Char} {cs rest : List Char} {kind : Kind}

/-- The characters that begin a token of this kind, but for the return in front of a line feed. -/
def Kind.begins : Kind → Char → Bool
  | .braceOpen, c => c == '{'
  | .braceClose, c => c == '}'
  | .bracketOpen, c => c == '['
  | .bracketClose, c => c == ']'
  | .colon, c => c == ':'
  | .ident, c => isIdentStart c
  | .integer, c => c.isDigit
  | .newline, c => c == '\n'
  | .whitespace, c => isSpace c

/-- The characters that a token of this kind goes on with. -/
def Kind.continues : Kind → Char → Bool
  | .ident, c => isIdentPart c
  | .integer, c => c.isDigit
  | .whitespace, c => isSpace c
  | _, _ => false

theorem isAlpha_eq_false_of_isDigit (h : c.isDigit) : c.isAlpha = false := by
  have hdigit : c.toNat ≤ 57 := (Char.isDigit_iff_toNat.mp h).2
  refine Bool.eq_false_iff.mpr fun halpha => ?_
  have hletter : 65 ≤ c.toNat := by
    have hcase : c.isUpper ∨ c.isLower := Bool.or_eq_true_iff.mp halpha
    cases hcase with
    | inl hupper => exact UInt32.le_iff_toNat_le.mp (of_decide_eq_true hupper).1
    | inr hlower =>
      have hle : 97 ≤ c.toNat :=
        UInt32.le_iff_toNat_le.mp (of_decide_eq_true (Bool.and_eq_true_iff.mp hlower).1)
      omega
  omega

/-- A letter, a digit or an underscore begins a name or a number. -/
theorem lead?_of_isIdentPart (h : isIdentPart c) (rest : List Char) : lead? c rest =
    if isIdentStart c then some (.ident, (rest.takeWhile isIdentPart).length)
    else some (.integer, (rest.takeWhile Char.isDigit).length) := by
  have hne (x : Char) (hx : isIdentPart x = false) : c ≠ x := by
    rintro rfl
    exact absurd h (Bool.eq_false_iff.mp hx)
  rw [lead?, if_neg (hne '{' rfl), if_neg (hne '}' rfl), if_neg (hne '[' rfl),
    if_neg (hne ']' rfl), if_neg (hne ':' rfl), if_neg (hne '\n' rfl), if_neg (hne '\r' rfl)]
  split_ifs with hstart hdigit
  · rfl
  · rfl
  all_goals
    rw [isIdentPart, Char.isAlphanum, Bool.or_right_comm, Bool.or_eq_true] at h
    exact absurd h (not_or.mpr ⟨hstart, hdigit⟩)

/-- The first character tells the kind of a token, and what may follow it how far the token goes. -/
theorem lead?_of_begins (h : kind.begins c) (rest : List Char) :
    lead? c rest = some (kind, (rest.takeWhile kind.continues).length) := by
  cases kind with
  | ident =>
    have hpart : isIdentPart c := by
      unfold isIdentPart Char.isAlphanum
      rw [Bool.or_right_comm, Bool.or_eq_true]
      exact .inl h
    rw [lead?_of_isIdentPart hpart]
    exact if_pos h
  | integer =>
    have hdigit : c.isDigit := h
    have hpart : isIdentPart c := by simp [isIdentPart, Char.isAlphanum, hdigit]
    have hstart : ¬ isIdentStart c := by
      rw [isIdentStart, isAlpha_eq_false_of_isDigit hdigit, Bool.false_or, beq_iff_eq]
      rintro rfl
      cases hdigit
    rw [lead?_of_isIdentPart hpart]
    exact if_neg hstart
  | whitespace => rcases isGap_iff.mp h with rfl | rfl <;> rfl
  | braceOpen | braceClose | bracketOpen | bracketClose | colon | newline =>
    obtain rfl := beq_iff_eq.mp h
    cases rest <;> rfl

theorem scanFrom_cons {offset n : Nat} (h : lead? c rest = some (kind, n)) :
    scanFrom offset (c :: rest) =
      (⟨kind, offset, offset + byteLength (c :: rest.take n)⟩, c :: rest.take n) ::
        scanFrom (offset + byteLength (c :: rest.take n)) (rest.drop n) := by
  rw [scanFrom]
  simp only [h]

theorem scanFrom_append (hc : kind.begins c) (hcs : ∀ x ∈ cs, kind.continues x)
    (hrest : Stops kind.continues rest) (offset : Nat) : scanFrom offset (c :: cs ++ rest) =
      (⟨kind, offset, offset + byteLength (c :: cs)⟩, c :: cs) ::
        scanFrom (offset + byteLength (c :: cs)) rest := by
  have hlead := lead?_of_begins hc (cs ++ rest)
  rw [takeWhile_append_of_stops hcs hrest] at hlead
  rw [List.cons_append, scanFrom_cons hlead, List.take_left, List.drop_left]

/-- A word of which every character may begin a token of the kind and go on with it. -/
theorem scanFrom_word (kind : Kind) (hne : cs ≠ []) (hbegins : ∀ c ∈ cs, kind.begins c)
    (hcontinues : ∀ c ∈ cs, kind.continues c) (hrest : Stops kind.continues rest) (offset : Nat) :
    scanFrom offset (cs ++ rest) = (⟨kind, offset, offset + byteLength cs⟩, cs) ::
      scanFrom (offset + byteLength cs) rest := by
  obtain ⟨c, tail, rfl⟩ := List.exists_cons_of_ne_nil hne
  have hc := hbegins c List.mem_cons_self
  exact scanFrom_append hc (List.forall_mem_cons.mp hcontinues).2 hrest offset

theorem scanFrom_letters (hne : cs ≠ []) (hcs : ∀ c ∈ cs, c.isAlpha)
    (hrest : Stops isIdentPart rest) (offset : Nat) : scanFrom offset (cs ++ rest) =
      (⟨.ident, offset, offset + byteLength cs⟩, cs) ::
        scanFrom (offset + byteLength cs) rest := by
  have hstart : ∀ c ∈ cs, isIdentStart c := fun c h => by simp [isIdentStart, hcs c h]
  have hpart : ∀ c ∈ cs, isIdentPart c := fun c h => by
    simp [isIdentPart, Char.isAlphanum, hcs c h]
  exact scanFrom_word .ident hne hstart hpart hrest offset

theorem scanFrom_gap (gap : Gap) (hrest : Stops isSpace rest) (offset : Nat) :
    scanFrom offset (gap.text ++ rest) =
      (⟨.whitespace, offset, offset + byteLength gap.text⟩, gap.text) ::
        scanFrom (offset + byteLength gap.text) rest :=
  scanFrom_word .whitespace gap.nonempty gap.all gap.all hrest offset

theorem stops_isSpace_of_isAlpha (hne : cs ≠ []) (hcs : ∀ c ∈ cs, c.isAlpha) :
    Stops isSpace (cs ++ rest) :=
  (stops_append hne).mpr (stops_of_forall fun c hc => isGap_eq_false_of_isAlpha (hcs c hc))

/-- A number, a word, and a brace with a name and a colon after it: the name is the first field. -/
theorem firstField?_eq {line name : String} {digits : Run Char.isDigit} {letters : Run Char.isAlpha}
    {gap gap' : Gap}
    (hline : line.toList = digits.text ++ (gap.text ++ (letters.text ++ (gap'.text ++
      ("\x7b".toList ++ (name.toList ++ (":".toList ++ rest)))))))
    (hname : name.toList ≠ [] ∧ ∀ c ∈ name.toList, c.isAlpha) : firstField? line = some name := by
  have hbrace (offset : Nat) (rest : List Char) : scanFrom offset ("\x7b".toList ++ rest) =
      (⟨.braceOpen, offset, offset + byteLength "\x7b".toList⟩, "\x7b".toList) ::
        scanFrom (offset + byteLength "\x7b".toList) rest := scanFrom_cons (n := 0) rfl
  have hcolon (offset : Nat) (rest : List Char) : scanFrom offset (":".toList ++ rest) =
      (⟨.colon, offset, offset + byteLength ":".toList⟩, ":".toList) ::
        scanFrom (offset + byteLength ":".toList) rest := scanFrom_cons (n := 0) rfl
  rw [firstField?, scan, hline,
    scanFrom_word .integer digits.nonempty digits.all digits.all (gap.stops rfl rfl),
    scanFrom_gap gap (stops_isSpace_of_isAlpha letters.nonempty letters.all),
    scanFrom_letters letters.nonempty letters.all (gap'.stops rfl rfl), scanFrom_gap gap' ?_,
    hbrace, scanFrom_letters hname.1 hname.2 ?_, hcolon]
  · exact congrArg some String.ofList_toList
  · exact stops_cons.mpr rfl
  · exact stops_cons.mpr rfl

end Token

namespace Dialect

theorem mem_of_detect? {line : String} {d : Dialect} (h : detect? line = some d) :
    d ∈ [numeric, named] := by
  unfold detect? at h
  cases hfirst : Token.firstField? line with
  | none =>
    rw [hfirst] at h
    cases h
  | some name =>
    rw [hfirst] at h
    exact List.mem_of_find?_eq_some h

/-- A line that is read as a message of a dialect tells it. -/
theorem detect?_of_parse {d : Dialect} (hd : d ∈ [numeric, named]) {line : String} {m : Message}
    (h : MessageLine.parse d line = .ok m) : detect? line = some d := by
  have hrecognises := MessageLine.recognises_grammar (readable_of_mem hd)
  simp only [List.mem_cons, List.not_mem_nil, or_false] at hd
  have hid : d.id.toList ≠ [] ∧ ∀ c ∈ d.id.toList, c.isAlpha := by
    rcases hd with rfl | rfl <;> exact ⟨by decide, List.all_eq_true.mp rfl⟩
  obtain ⟨t, hline, -⟩ := hrecognises.readLine.1.mp (MessageLine.parse_eq_ok_iff.mp h)
  simp only [MessageLine.Derivation.text, Grammar.fieldPhrase, List.flatten_cons,
    List.append_assoc] at hline
  have hfirst : Token.firstField? line = some d.id := Token.firstField?_eq hline.symm hid
  rw [detect?, hfirst]
  rcases hd with rfl | rfl <;> rfl

/-- A line that is written in a dialect tells it. -/
theorem detect?_render {d : Dialect} (hd : d ∈ [numeric, named]) {event : String} {m : Message}
    (h : d.Carries event m) : detect? (d.render event m) = some d :=
  detect?_of_parse hd (MessageLine.parse_render (readable_of_mem hd) h)

end Dialect
end StoreAudit
