/-! Grammars: readers of the front of a text that say where and why they stop. -/
namespace StoreAudit

/-- What a grammar can say about the place where it stopped. -/
inductive Grammar.Hint where
  | expected (spellings : List String)
  | invalid (part : String)
  deriving DecidableEq, Repr

/-- Where reading stopped: the characters still unread, and a hint if the grammar had one. -/
structure Grammar.Stop where
  rest : List Char
  hint : Option Grammar.Hint := none
  deriving DecidableEq, Repr

/-- A reader takes characters off the front of a text and yields a value and what is left. -/
abbrev Grammar (α : Type) := StateT (List Char) (Except Grammar.Stop) α

namespace Grammar

/-- What stands after `start` in a text that begins with it. -/
def after? : List Char → List Char → Option (List Char)
  | [], cs => some cs
  | _ :: _, [] => none
  | s :: start, c :: cs => if s = c then after? start cs else none

theorem after?_eq_some_iff {start cs rest : List Char} :
    after? start cs = some rest ↔ cs = start ++ rest := by
  induction start generalizing cs with
  | nil => simp [after?]
  | cons s start ih =>
    cases cs with
    | nil => simp [after?]
    | cons c cs =>
      by_cases h : s = c
      · simp [after?, h, ih]
      · simp [after?, h, Ne.symm h]

/-- Exactly this text. -/
def literal (text : String) : Grammar Unit := fun cs =>
  match after? text.toList cs with
  | some rest => .ok ((), rest)
  | none => .error ⟨cs, none⟩

/-- The longest run of characters in the class, which must not be empty. -/
def run (p : Char → Bool) : Grammar (List Char) := fun cs =>
  match cs.takeWhile p with
  | [] => .error ⟨cs, none⟩
  | taken => .ok (taken, cs.dropWhile p)

/-- The first grammar, or else the second from the same place. -/
def either {α : Type} (g h : Grammar α) : Grammar α := fun cs =>
  match g cs with
  | .ok r => .ok r
  | .error _ => h cs

/-- The first spelling in the table that the text begins with, as the value beside it. -/
def oneOf {α : Type} (table : List (String × α)) : Grammar α := fun cs =>
  match table.findSome? fun (text, a) => (after? text.toList cs).map (a, ·) with
  | some r => .ok r
  | none => .error ⟨cs, none⟩

/-- The grammar as a whole, or nothing taken at all. -/
def optional {α : Type} (g : Grammar α) : Grammar (Option α) := fun cs =>
  match g cs with
  | .ok (a, rest) => .ok (some a, rest)
  | .error _ => .ok (none, cs)

/-- `g` must match here, and takes nothing. -/
def ahead {α : Type} (g : Grammar α) : Grammar Unit := fun cs =>
  match g cs with
  | .ok _ => .ok ((), cs)
  | .error s => .error { s with rest := cs }

/-- Gives the hint wherever `g` stops. -/
def hinting {α : Type} (hint : Hint) (g : Grammar α) : Grammar α := fun cs =>
  match g cs with
  | .ok r => .ok r
  | .error s => .error { s with hint := some hint }

/-- All that is left. -/
def everything : Grammar (List Char) := fun cs => .ok (cs, [])

/-- The hint in words. A line break inside a spelling is written as a semicolon and a space. -/
def Hint.describe : Hint → String
  | .expected spellings =>
    "expected " ++ ", ".intercalate (spellings.map fun s => "`" ++ s.replace "\n" "; " ++ "`")
  | .invalid part => "invalid " ++ part

/-- The hint, or else the character at which reading stopped. -/
def Stop.describe (s : Stop) : String :=
  match s.hint with
  | some hint => hint.describe
  | none =>
    match s.rest with
    | [] => "unexpected end of line"
    | c :: _ => "unexpected `" ++ c.toString ++ "`"

theorem run_eq_ok {p : Char → Bool} {cs taken rest : List Char}
    (h : run p cs = .ok (taken, rest)) :
    taken ≠ [] ∧ taken = cs.takeWhile p ∧ rest = cs.dropWhile p := by
  unfold run at h
  split at h
  · cases h
  · next hne =>
    cases h
    exact ⟨fun e => hne e, rfl, rfl⟩

theorem length_lt_of_run {p : Char → Bool} {cs taken rest : List Char}
    (h : run p cs = .ok (taken, rest)) : rest.length < cs.length := by
  obtain ⟨hne, rfl, rfl⟩ := run_eq_ok h
  have hl := congrArg List.length (List.takeWhile_append_dropWhile (p := p) (l := cs))
  have := List.length_pos_iff.2 hne
  simp only [List.length_append] at hl
  omega

end Grammar
end StoreAudit
