/-! Tokens of a message line. Scanning takes the longest token and skips what starts none. -/
namespace StoreAudit

/-- The kinds of token. A line feed may have a carriage return before it. -/
inductive Token.Kind where
  | braceOpen
  | braceClose
  | bracketOpen
  | bracketClose
  | colon
  | ident
  | integer
  | newline
  | whitespace
  deriving DecidableEq, Repr, Inhabited

/-- A token with the bytes that it covers in the UTF-8 form of the text. -/
structure Token where
  kind : Token.Kind
  start : Nat
  stop : Nat
  deriving DecidableEq, Repr, Inhabited

namespace Token

def isIdentStart (c : Char) : Bool := c.isAlpha || c == '_'
def isIdentPart (c : Char) : Bool := c.isAlphanum || c == '_'
def isSpace (c : Char) : Bool := c == ' ' || c == '\t'

/-- The kind of the token that starts with `c`, and how many of the characters after `c` are
part of it. -/
def lead? (c : Char) (rest : List Char) : Option (Kind × Nat) :=
  if c = '{' then some (.braceOpen, 0)
  else if c = '}' then some (.braceClose, 0)
  else if c = '[' then some (.bracketOpen, 0)
  else if c = ']' then some (.bracketClose, 0)
  else if c = ':' then some (.colon, 0)
  else if c = '\n' then some (.newline, 0)
  else if c = '\r' then if rest.head? = some '\n' then some (.newline, 1) else none
  else if isIdentStart c then some (.ident, (rest.takeWhile isIdentPart).length)
  else if c.isDigit then some (.integer, (rest.takeWhile Char.isDigit).length)
  else if isSpace c then some (.whitespace, (rest.takeWhile isSpace).length)
  else none

/-- How many bytes the characters take in UTF-8. -/
def byteLength (cs : List Char) : Nat := (cs.map Char.utf8Size).foldr (· + ·) 0

/-- The tokens of `cs` and their texts, where `offset` bytes stand before `cs`. -/
def scanFrom (offset : Nat) : List Char → List (Token × List Char)
  | [] => []
  | c :: rest =>
    match lead? c rest with
    | none => scanFrom (offset + c.utf8Size) rest
    | some (kind, n) =>
      let text := c :: rest.take n
      let stop := offset + byteLength text
      (⟨kind, offset, stop⟩, text) :: scanFrom stop (rest.drop n)
termination_by cs => cs.length
decreasing_by
  · simp
  · simp only [List.length_drop, List.length_cons]
    omega

/-- The tokens of a text, each with the characters it covers. -/
def scan (text : String) : List (Token × String) :=
  (scanFrom 0 text.toList).map fun (t, cs) => (t, String.ofList cs)

/-- The name right after the first opening brace, if a colon follows it. -/
def firstField? (line : String) : Option String :=
  match (scan line).dropWhile fun (t, _) => t.kind != .braceOpen with
  | _ :: (name, text) :: (colon, _) :: _ =>
    if name.kind = .ident ∧ colon.kind = .colon then some text else none
  | _ => none

end Token
end StoreAudit
