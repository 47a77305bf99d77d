import StoreAudit.Decimal.Layout
import StoreAudit.Json.Basic

/-! Writing JSON text over several lines, indented by two spaces. -/
namespace StoreAudit.Json

/-- Numbers of JSON texts: positional from 0.00001 up to 10^16, exponents as short as possible,
and of two equally near decimals the even one. -/
def numberLayout : Decimal.Layout where
  lowest := -5
  beyond := 16
  exponentDigits := 1
  tie := .even

/-- Two letters for the common control characters, six for the others. -/
def escape (c : Char) : List Char :=
  match c with
  | '"' => ['\\', '"']
  | '\\' => ['\\', '\\']
  | '\x08' => ['\\', 'b']
  | '\x0c' => ['\\', 'f']
  | '\n' => ['\\', 'n']
  | '\r' => ['\\', 'r']
  | '\t' => ['\\', 't']
  | c =>
    if c.toNat < 0x20 then
      ['\\', 'u', '0', '0', Nat.digitChar (c.toNat / 16), Nat.digitChar (c.toNat % 16)]
    else [c]

def quote (s : String) : String := "\"" ++ String.ofList (s.toList.flatMap escape) ++ "\""

/-- A value without parts. What has no number or text is written as null. -/
def scalar : Json → String
  | .bool b => toString b
  | .nat n => toString n
  | .real x => if x.isFinite then numberLayout.render x else "null"
  | .str s => quote s
  | _ => "null"

/-- The line break before a line that is indented `level` times. -/
def lineBreak (level : Nat) : String := "\n" ++ String.join (List.replicate level "  ")

mutual

/-- The value, where the lines after the first are indented `level` times. -/
def renderAt (level : Nat) : Json → String
  | .arr [] => "[]"
  | .arr (v :: rest) => "[" ++ renderItems (level + 1) (v :: rest) ++ lineBreak level ++ "]"
  | .obj [] => "\x7b\x7d"
  | .obj (m :: rest) => "\x7b" ++ renderMembers (level + 1) (m :: rest) ++ lineBreak level ++ "\x7d"
  | v => scalar v

def renderItems (level : Nat) : List Json → String
  | [] => ""
  | [v] => lineBreak level ++ renderAt level v
  | v :: rest => lineBreak level ++ renderAt level v ++ "," ++ renderItems level rest

def renderMembers (level : Nat) : List (String × Json) → String
  | [] => ""
  | [(name, v)] => lineBreak level ++ quote name ++ ": " ++ renderAt level v
  | (name, v) :: rest =>
    lineBreak level ++ quote name ++ ": " ++ renderAt level v ++ "," ++ renderMembers level rest

end

/-- Each item and member stands on a line of its own. Empty arrays and objects take no line. -/
def render (v : Json) : String := renderAt 0 v

end StoreAudit.Json
