import StoreAudit.Decimal.Reader
import StoreAudit.Generate.Params
import StoreAudit.Log.Dialect

/-! The arguments of the command line: a command, its options and its input. -/
namespace StoreAudit.Command

/-- Why arguments are refused. -/
inductive Refusal where
  | nothingGiven
  | helpAsked
  | unknownCommand
  | unknownArgument
  | invalidValue
  | needlessValue
  | repeatedOption
  | malformedValue
  | missingOption
  deriving DecidableEq, Repr, Inhabited

/-- What an option takes: nothing, one of some words, a number below 2^64, a ratio from 0 to 1,
or a path. -/
inductive Kind where
  | switch
  | choice (words : List String)
  | number
  | ratio
  | path
  deriving DecidableEq, Repr

/-- What was given for an option. -/
inductive Value where
  | switch
  | text (s : String)
  | number (n : Nat)
  | ratio (x : Float)

/-- A number in decimal digits, possibly after a plus sign. -/
def number? (text : String) : Option Nat :=
  let digits := if text.toList.head? = some '+' then text.toList.drop 1 else text.toList
  if digits ≠ [] ∧ digits.all Char.isDigit ∧ Decimal.natOf digits < wordLimit then
    some (Decimal.natOf digits)
  else none

def ratio? (text : String) : Option Float := do
  let x ← Decimal.read? text
  if 0 ≤ x && x ≤ 1 then some x else none

/-- The value that the text stands for. -/
def Kind.read (text : String) : Kind → Except Refusal Value
  | .switch => .ok .switch
  | .choice words => if words.contains text then .ok (.text text) else .error .invalidValue
  | .number => ((number? text).map Value.number).elim (.error .malformedValue) .ok
  | .ratio => ((ratio? text).map Value.ratio).elim (.error .malformedValue) .ok
  | .path => if text.isEmpty then .error .invalidValue else .ok (.text text)

/-- The options of a command, and whether it takes an input. -/
structure Form where
  options : List (String × Kind)
  input : Bool
  deriving DecidableEq, Repr

/-- The name under which the input is kept. -/
def inputName : String := "input"

/-- An option, or the input, whose value is not read yet, or is still to come. -/
structure Pending where
  name : String
  kind : Kind
  text : Option String
  deriving DecidableEq, Repr

/-- What the arguments so far amount to. After a lone `--` all arguments are plain. -/
structure Scan where
  given : List (String × Value) := []
  pending : Option Pending := none
  inputSeen : Bool := false
  plainOnly : Bool := false

namespace Scan

/-- Keeps the value of an option, which must not have one yet. -/
def give (s : Scan) (name : String) (kind : Kind) (text : String) : Except Refusal Scan := do
  if (s.given.lookup name).isSome then .error .repeatedOption
  else .ok { s with given := s.given ++ [(name, ← kind.read text)], pending := none }

/-- Reads the value that is pending, which must have come. -/
def settle (s : Scan) : Except Refusal Scan :=
  match s.pending with
  | none => .ok s
  | some ⟨_, _, none⟩ => .error .invalidValue
  | some ⟨name, kind, some text⟩ => s.give name kind text

/-- A plain argument can only be the input. -/
def plain (form : Form) (s : Scan) (arg : String) : Except Refusal Scan := do
  if form.input && !s.inputSeen then
    let s ← s.settle
    .ok { s with pending := some ⟨inputName, .path, some arg⟩, inputSeen := true }
  else .error .unknownArgument

/-- An option by its name. A value may be attached to it. -/
def option (form : Form) (s : Scan) (name : String) (attached : Option String) :
    Except Refusal Scan :=
  match form.options.lookup name, attached with
  | some .switch, none => do (← s.settle).give name .switch ""
  | some .switch, some _ => .error .needlessValue
  | some kind, some text => do (← s.settle).give name kind text
  | some kind, none => do return { ← s.settle with pending := some ⟨name, kind, none⟩ }
  | none, none => if name = "help" then do let _ ← s.settle; .error .helpAsked
    else .error .unknownArgument
  | none, some _ => .error (if name = "help" then .needlessValue else .unknownArgument)

/-- The name of an option and the value attached to it by the first equals sign. -/
def splitOption (cs : List Char) : String × Option String :=
  let name := String.ofList (cs.takeWhile (· ≠ '='))
  match cs.dropWhile (· ≠ '=') with
  | [] => (name, none)
  | _ :: value => (name, some (String.ofList value))

/-- Takes the next argument in. -/
def step (form : Form) (s : Scan) (arg : String) : Except Refusal Scan :=
  if s.plainOnly then s.plain form arg
  else match arg.toList with
    | ['-', '-'] => .ok { s with plainOnly := true }
    | '-' :: '-' :: rest => let (name, attached) := splitOption rest; s.option form name attached
    | '-' :: 'h' :: _ => do let _ ← s.settle; .error .helpAsked
    | '-' :: _ :: _ => .error .unknownArgument
    | _ =>
      match s.pending with
      | some ⟨name, kind, none⟩ => .ok { s with pending := some ⟨name, kind, some arg⟩ }
      | _ => s.plain form arg

/-- All values that the arguments give. -/
def all (form : Form) (args : List String) : Except Refusal (List (String × Value)) := do
  let s ← args.foldlM (step form) {}
  return (← s.settle).given

end Scan

/-- How the log of a generated history is written. -/
inductive LogFormat where
  | records
  | messages (dialect : Dialect)
  deriving DecidableEq, Repr

/-- A command with its options. A missing dialect is detected, a missing input is the standard
input. -/
inductive Arguments where
  | check (dialect? : Option Dialect) (matchVersion : Bool) (input? : Option String)
  | stats (dialect? : Option Dialect) (json : Bool) (input? : Option String)
  | analyze (matchVersion percentiles verbose json : Bool) (input? : Option String)
  | oracle (dialect? : Option Dialect) (matchVersion json : Bool) (input? : Option String)
  | generate (count : Nat) (params : Generate.Params) (format : LogFormat) (directory : String)
  | schema

namespace Arguments

def dialectOption : String × Kind := ("dialect", .choice ["auto", "numeric", "named"])

/-- The forms of the commands by their names. -/
def forms : List (String × Form) :=
  [("check", ⟨[dialectOption, ("match-version", .switch)], true⟩),
    ("stats", ⟨[dialectOption, ("json", .switch)], true⟩),
    ("analyze",
      ⟨[("match-version", .switch), ("percentiles", .switch), ("verbose", .switch),
        ("json", .switch)], true⟩),
    ("oracle", ⟨[dialectOption, ("match-version", .switch), ("json", .switch)], true⟩),
    ("generate",
      ⟨[("n-hist", .number), ("n-client", .number), ("n-key", .number), ("n-op", .number),
        ("write-ratio", .ratio), ("stale-ratio", .ratio), ("seed", .number),
        ("format", .choice ["records", "numeric", "named"]), ("output-dir", .path)], false⟩),
    ("schema", ⟨[], false⟩)]

variable (given : List (String × Value))

def has (name : String) : Bool := (given.lookup name).isSome

def text? (name : String) : Option String :=
  match given.lookup name with
  | some (.text s) => some s
  | _ => none

def number? (name : String) : Option Nat :=
  match given.lookup name with
  | some (.number n) => some n
  | _ => none

def ratio? (name : String) : Option Float :=
  match given.lookup name with
  | some (.ratio x) => some x
  | _ => none

def dialect? : Option Dialect :=
  match text? given "dialect" with
  | some "numeric" => some .numeric
  | some "named" => some .named
  | _ => none

def format : LogFormat :=
  match text? given "format" with
  | some "numeric" => .messages .numeric
  | some "named" => .messages .named
  | _ => .records

/-- A value that must have been given. -/
def required {α : Type} : Option α → Except Refusal α
  | some a => .ok a
  | none => .error .missingOption

def generation : Except Refusal Arguments := do
  let count ← required (number? given "n-hist")
  let clients ← required (number? given "n-client")
  let keys ← required (number? given "n-key")
  let operations ← required (number? given "n-op")
  let directory ← required (text? given "output-dir")
  return .generate count
    { clients, keys, operations, writeRatio := (ratio? given "write-ratio").getD 0.5,
      staleRatio := (ratio? given "stale-ratio").getD 0, seed := number? given "seed" }
    (format given) directory

/-- The command of this name with the options that were given. -/
def ofGiven (name : String) : Except Refusal Arguments :=
  let input? := text? given inputName
  match name with
  | "check" => .ok (.check (dialect? given) (has given "match-version") input?)
  | "stats" => .ok (.stats (dialect? given) (has given "json") input?)
  | "analyze" =>
    .ok (.analyze (has given "match-version") (has given "percentiles") (has given "verbose")
      (has given "json") input?)
  | "oracle" =>
    .ok (.oracle (dialect? given) (has given "match-version") (has given "json") input?)
  | "generate" => generation given
  | "schema" => .ok .schema
  | _ => .error .unknownCommand

/-- Names that may stand where a command is expected. -/
def isCommand (name : String) : Bool := name == "help" || (forms.lookup name).isSome

/-- After `help` at most one command may be named. -/
def help : List String → Refusal
  | [] => .helpAsked
  | [name] => if isCommand name then .helpAsked else .unknownCommand
  | _ => .unknownCommand

/-- Reads the arguments, of which the first has to name a command. -/
def parse : List String → Except Refusal Arguments
  | [] => .error .nothingGiven
  | ["--"] => .error .nothingGiven
  | "--" :: name :: _ => .error (if isCommand name then .unknownArgument else .unknownCommand)
  | "help" :: rest => .error (help rest)
  | name :: rest =>
    match forms.lookup name with
    | some form => do ofGiven (← Scan.all form rest) name
    | none =>
      match name.toList with
      | '-' :: '-' :: cs =>
        match Scan.splitOption cs with
        | ("help", none) => .error .helpAsked
        | ("help", some _) => .error .needlessValue
        | _ => .error .unknownArgument
      | '-' :: 'h' :: _ => .error .helpAsked
      | '-' :: _ :: _ => .error .unknownArgument
      | _ => .error .unknownCommand

end Arguments
end StoreAudit.Command
