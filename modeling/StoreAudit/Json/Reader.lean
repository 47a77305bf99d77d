import StoreAudit.Decimal.Scaling
import StoreAudit.Json.Basic

/-! Reading JSON text: first its lexemes, then a value with the help of a stack of the arrays and
objects that are still open. -/
namespace StoreAudit.Json

/-- A mark, a value without parts, or a text, which is `none` if half a surrogate pair is in it. -/
inductive Lexeme where
  | mark (c : Char)
  | scalar (v : Json)
  | text (s : Option String)

def isSpace (c : Char) : Bool := c == ' ' || c == '\t' || c == '\n' || c == '\r'
def isMark (c : Char) : Bool := ['{', '}', '[', ']', ':', ','].contains c

/-- The characters that numbers are made of. -/
def isNumberChar (c : Char) : Bool := c.isDigit || ['+', '-', '.', 'e', 'E'].contains c

/-- The digits after a point, which must be there, and what follows them. Without a point there
are none. -/
def fraction? : List Char → Option (List Char × List Char)
  | '.' :: rest =>
    match rest.takeWhile Char.isDigit with
    | [] => none
    | digits => some (digits, rest.dropWhile Char.isDigit)
  | rest => some ([], rest)

/-- A number: no zero before other digits, and digits on both sides of a point. What is no natural
below 2^64 is read by scaling. -/
def number? (cs : List Char) : Option Json := do
  let unsigned := if cs.head? = some '-' then cs.drop 1 else cs
  let whole := unsigned.takeWhile Char.isDigit
  guard (whole ≠ [] ∧ (whole.length = 1 ∨ whole.head? ≠ some '0'))
  let (fraction, rest) ← fraction? (unsigned.dropWhile Char.isDigit)
  let exponent ← Decimal.exponent? rest
  let n := Decimal.natOf whole
  if cs = whole ∧ n < wordLimit then return .nat n
  return match Decimal.scaled? whole fraction exponent with
    | some x => .real (if cs.head? = some '-' then -x else x)
    | none => .unrepresentable

def word? (cs : List Char) : Option Json :=
  match String.ofList cs with
  | "null" => some .null
  | "true" => some (.bool true)
  | "false" => some (.bool false)
  | _ => none

def hexDigit? (c : Char) : Option Nat :=
  if c.isDigit then some (c.toNat - '0'.toNat)
  else if 'a' ≤ c ∧ c ≤ 'f' then some (c.toNat - 'a'.toNat + 10)
  else if 'A' ≤ c ∧ c ≤ 'F' then some (c.toNat - 'A'.toNat + 10)
  else none

/-- The 16-bit unit that four hexadecimal digits denote. -/
def unit? (a b c d : Char) : Option Nat := do
  return (← hexDigit? a) * 4096 + (← hexDigit? b) * 256 + (← hexDigit? c) * 16 + (← hexDigit? d)

/-- The character that a backslash and this letter stand for. -/
def escaped? (c : Char) : Option Char :=
  [('"', '"'), ('\\', '\\'), ('/', '/'), ('b', '\x08'), ('f', '\x0c'), ('n', '\n'), ('r', '\r'),
    ('t', '\t')].lookup c

/-- What has been read of a text: its characters backwards, the first half of a surrogate pair
whose second half must come next, and whether a half without its other half was seen. -/
structure Quoted where
  done : List Char := []
  pending : Option Nat := none
  broken : Bool := false

namespace Quoted

def push (q : Quoted) (c : Char) : Quoted :=
  { done := c :: q.done, pending := none, broken := q.broken || q.pending.isSome }

/-- Adds a 16-bit unit, which may be one half of a pair. -/
def pushUnit (q : Quoted) (u : Nat) : Quoted :=
  if 0xD800 ≤ u ∧ u < 0xDC00 then
    { q with pending := some u, broken := q.broken || q.pending.isSome }
  else if 0xDC00 ≤ u ∧ u < 0xE000 then
    match q.pending with
    | some high =>
      let c := Char.ofNat (0x10000 + (high - 0xD800) * 0x400 + (u - 0xDC00))
      { q with done := c :: q.done, pending := none }
    | none => { q with broken := true }
  else q.push (Char.ofNat u)

def text? (q : Quoted) : Option String :=
  if q.broken || q.pending.isSome then none else some (String.ofList q.done.reverse)

/-- Reads up to the closing quote. Control characters must be escaped. -/
def read? (q : Quoted) : List Char → Option (Option String × List Char)
  | [] => none
  | '"' :: rest => some (q.text?, rest)
  | '\\' :: 'u' :: a :: b :: c :: d :: rest =>
    match unit? a b c d with
    | some u => read? (q.pushUnit u) rest
    | none => none
  | '\\' :: c :: rest =>
    match escaped? c with
    | some e => read? (q.push e) rest
    | none => none
  | c :: rest => if c.toNat < 0x20 then none else read? (q.push c) rest

theorem length_le_of_read? {q : Quoted} {cs rest : List Char} {s : Option String}
    (h : q.read? cs = some (s, rest)) : rest.length ≤ cs.length := by
  fun_induction read? q cs with
  | case1 => cases h
  | case2 => cases h; simp
  | case3 q a b c d r u hu ih => have := ih h; simp only [List.length_cons]; omega
  | case4 => cases h
  | case5 q c r hne e he ih => have := ih h; simp only [List.length_cons]; omega
  | case6 => cases h
  | case7 => cases h
  | case8 q c r hq hu hb hc ih => have := ih h; simp only [List.length_cons]; omega

end Quoted

/-- The lexemes of a text, or `none` where a character starts none. -/
def lexemes? : List Char → Option (List Lexeme)
  | [] => some []
  | c :: rest =>
    if isSpace c then lexemes? rest
    else if isMark c then do return .mark c :: (← lexemes? rest)
    else if c = '"' then
      match h : Quoted.read? {} rest with
      | none => none
      | some (s, after) =>
        have : after.length ≤ rest.length := Quoted.length_le_of_read? h
        do return .text s :: (← lexemes? after)
    else if isNumberChar c then do
      let v ← number? (c :: rest.takeWhile isNumberChar)
      return .scalar v :: (← lexemes? (rest.dropWhile isNumberChar))
    else do
      let v ← word? (c :: rest.takeWhile Char.isAlpha)
      return .scalar v :: (← lexemes? (rest.dropWhile Char.isAlpha))
termination_by cs => cs.length
decreasing_by
  all_goals
    have hn := (List.dropWhile_suffix isNumberChar (l := rest)).length_le
    have ha := (List.dropWhile_suffix Char.isAlpha (l := rest)).length_le
    simp only [List.length_cons]
    omega

/-- An open array or object: what it holds so far, backwards. The name of the member that is
being read is `none` if it denotes no text. -/
inductive Frame where
  | items (done : List Json)
  | members (done : List (Option String × Json)) (name : Option String)

/-- What may come next. -/
inductive Expect where
  | value
  | firstItem
  | firstName (done : List (Option String × Json))
  | name (done : List (Option String × Json))
  | colon (done : List (Option String × Json)) (name : Option String)
  | separator
  | nothing (v : Json)

structure Reader where
  expect : Expect := .value
  frames : List Frame := []

namespace Reader

/-- A value is complete: it goes into the innermost open array or object. -/
def put (v : Json) : List Frame → Reader
  | [] => { expect := .nothing v }
  | .items done :: outer => { expect := .separator, frames := .items (v :: done) :: outer }
  | .members done name :: outer =>
    { expect := .separator, frames := .members ((name, v) :: done) none :: outer }

/-- An object of members that are given backwards. -/
def object (done : List (Option String × Json)) : Json :=
  match done.reverse.mapM fun (name, v) => name.map (·, v) with
  | some members => .obj members
  | none => .unrepresentable

def ofText : Option String → Json
  | some s => .str s
  | none => .unrepresentable

def step (r : Reader) (l : Lexeme) : Option Reader :=
  match r.expect, l, r.frames with
  | .value, .scalar v, fs | .firstItem, .scalar v, fs => some (put v fs)
  | .value, .text s, fs | .firstItem, .text s, fs => some (put (ofText s) fs)
  | .value, .mark '[', fs | .firstItem, .mark '[', fs =>
    some { expect := .firstItem, frames := .items [] :: fs }
  | .value, .mark '{', fs | .firstItem, .mark '{', fs =>
    some { expect := .firstName [], frames := fs }
  | .firstItem, .mark ']', .items done :: outer => some (put (.arr done.reverse) outer)
  | .firstName done, .text s, fs | .name done, .text s, fs =>
    some { expect := .colon done s, frames := fs }
  | .firstName done, .mark '}', fs => some (put (object done) fs)
  | .colon done name, .mark ':', fs =>
    some { expect := .value, frames := .members done name :: fs }
  | .separator, .mark ',', .items done :: outer =>
    some { expect := .value, frames := .items done :: outer }
  | .separator, .mark ']', .items done :: outer => some (put (.arr done.reverse) outer)
  | .separator, .mark ',', .members done _ :: outer =>
    some { expect := .name done, frames := outer }
  | .separator, .mark '}', .members done _ :: outer => some (put (object done) outer)
  | _, _, _ => none

end Reader

/-- The value that the whole text denotes. -/
def read? (text : String) : Option Json := do
  let r ← (← lexemes? text.toList).foldlM Reader.step {}
  match r.expect with
  | .nothing v => some v
  | _ => none

end StoreAudit.Json
