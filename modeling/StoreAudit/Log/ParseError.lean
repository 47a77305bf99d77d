import StoreAudit.Grammar.Basic

/-! Lines that a log reader refuses, with the place where it stopped. -/
namespace StoreAudit

/-- What the refused line was taken for. -/
inductive ParseError.Kind where
  | message
  | record
  | dialectMismatch
  deriving DecidableEq, Repr, Inhabited

/-- Lines and columns count from 1, columns in characters. -/
structure ParseError where
  kind : ParseError.Kind
  message : String
  line : Nat := 1
  column : Nat := 1
  deriving DecidableEq, Repr, Inhabited

namespace ParseError

/-- The characters that make up the first `size` bytes of a text in UTF-8, unless these end inside a
character. -/
def front? (size : Nat) : List Char → Option (List Char)
  | [] => if size = 0 then some [] else none
  | c :: cs =>
    if size = 0 then some []
    else if c.utf8Size ≤ size then (front? (size - c.utf8Size) cs).map (c :: ·)
    else none

/-- The refusal of `line` behind its first `offset` bytes. The column counts the characters among
them, and is 1 if they end inside a character. -/
def atByte (kind : Kind) (message line : String) (offset : Nat) : ParseError where
  kind := kind
  message := message
  column :=
    match front? (min offset line.utf8ByteSize) line.toList with
    | some front => front.length + 1
    | none => 1

/-- How many bytes of `line` a grammar had taken when it stopped. -/
def offset (line : String) (s : Grammar.Stop) : Nat :=
  line.utf8ByteSize - (String.ofList s.rest).utf8ByteSize

/-- The refusal of `line` at the place where a grammar stopped. -/
def ofStop (kind : Kind) (line : String) (s : Grammar.Stop) : ParseError :=
  atByte kind s.describe line (offset line s)

def render (e : ParseError) : String :=
  "parse error at line " ++ toString e.line ++ ", column " ++ toString e.column ++ ": " ++ e.message

end ParseError
end StoreAudit
