import StoreAudit.Grammar.Basic
import StoreAudit.Words

/-! The leaves that the log grammars share: gaps, words, numbers, number lists and fields. -/
namespace StoreAudit.Grammar

def isGap (c : Char) : Bool := c == ' ' || c == '\t'

/-- One or more spaces or tabs. -/
def gap : Grammar Unit := fun cs =>
  match run isGap cs with
  | .ok (_, rest) => .ok ((), rest)
  | .error s => .error s

/-- One or more ASCII letters. -/
def letters : Grammar (List Char) := run Char.isAlpha

/-- The number that a run of decimal digits denotes. -/
def valueOf (digits : List Char) : Nat := Nat.ofDigitChars 10 digits 0

/-- `0`, or digits of which the first is not `0`, below 2^64. So a leading `0` stands alone. -/
def integer : Grammar Nat
  | '0' :: rest => .ok (0, rest)
  | cs => do
    let (digits, rest) ← run Char.isDigit cs
    if valueOf digits < wordLimit then .ok (valueOf digits, rest) else .error ⟨cs, none⟩

theorem length_lt_of_gap {cs rest : List Char} (h : gap cs = .ok ((), rest)) :
    rest.length < cs.length := by
  unfold gap at h
  split at h
  · next hr =>
    cases h
    exact length_lt_of_run hr
  · cases h

theorem length_lt_of_integer {cs rest : List Char} {n : Nat} (h : integer cs = .ok (n, rest)) :
    rest.length < cs.length := by
  unfold integer at h
  split at h
  · cases h
    simp
  · cases hr : run Char.isDigit cs with
    | error s => simp [bind, Except.bind, hr] at h
    | ok r =>
      simp only [bind, Except.bind, hr] at h
      split at h
      · cases h
        exact length_lt_of_run hr
      · cases h

/-- Further numbers, each after a gap. A gap that no number follows is left unread. -/
def moreIntegers (cs : List Char) : List Nat × List Char :=
  match hg : gap cs with
  | .error _ => ([], cs)
  | .ok (_, afterGap) =>
    match hi : integer afterGap with
    | .error _ => ([], cs)
    | .ok (n, rest) =>
      have : rest.length < cs.length :=
        Nat.lt_trans (length_lt_of_integer hi) (length_lt_of_gap hg)
      let (ns, last) := moreIntegers rest
      (n :: ns, last)
termination_by cs.length

/-- One or more numbers with gaps between them. -/
def someIntegers : Grammar Words := fun cs => do
  let (n, rest) ← integer cs
  let (ns, last) := moreIntegers rest
  .ok (n :: ns, last)

/-- Numbers with gaps between them, or none. -/
def integers : Grammar Words := fun cs =>
  match someIntegers cs with
  | .ok r => .ok r
  | .error _ => .ok ([], cs)

/-- Numbers in brackets, possibly none. -/
def words : Grammar Words := do
  literal "["
  let w ← integers
  literal "]"
  return w

/-- At least one number in brackets. -/
def someWords : Grammar Words := do
  literal "["
  let w ← someIntegers
  literal "]"
  return w

def truth : Grammar Bool := oneOf [("true", true), ("false", false)]

/-- A name, a colon and a value. -/
def field {α : Type} (name : String) (value : Grammar α) : Grammar α := do
  hinting (.expected [name]) (literal name)
  literal ":"
  hinting (.invalid "field value") value

/-- The whole line: the grammar, then only spaces and tabs. -/
def readLine {α : Type} (g : Grammar α) (line : String) : Except Stop α := do
  let (a, rest) ← g line.toList
  match rest.dropWhile isGap with
  | [] => .ok a
  | unread => .error ⟨unread, none⟩

end StoreAudit.Grammar
