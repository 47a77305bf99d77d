import StoreAudit.Log.Token
import StoreAudit.Message

/-! The spellings of a message line. Dialects share one grammar and differ in field names and in
how the purpose of a message is written. -/
namespace StoreAudit

/-- Whether the four known purposes are written as digits or as names. -/
inductive PurposeCode where
  | digits
  | names
  deriving DecidableEq, Repr, Inhabited

/-- The field names of a dialect, in the order in which a line has them. -/
structure Dialect where
  name : String
  id : String
  sender : String
  receiver : String
  purpose : String
  key : String
  value : String
  version : String
  ok : String
  code : PurposeCode
  deriving DecidableEq, Repr, Inhabited

namespace PurposeCode

/-- The spellings of the four known purposes. -/
def table : PurposeCode → List (String × Purpose)
  | .digits =>
    [("1", .request .read), ("2", .request .write), ("3", .response .read), ("4", .response .write)]
  | .names =>
    [("clientReadRequest", .request .read), ("clientWriteRequest", .request .write),
      ("clientReadResponse", .response .read), ("clientWriteResponse", .response .write)]

/-- A spelling that is not in the table names a purpose of its own. -/
def decode (code : PurposeCode) (text : String) : Purpose :=
  (code.table.lookup text).getD (.other text)

def encode : PurposeCode → Purpose → String
  | _, .other text => text
  | .digits, .request .read => "1"
  | .digits, .request .write => "2"
  | .digits, .response .read => "3"
  | .digits, .response .write => "4"
  | .names, .request .read => "clientReadRequest"
  | .names, .request .write => "clientWriteRequest"
  | .names, .response .read => "clientReadResponse"
  | .names, .response .write => "clientWriteResponse"

/-- The characters of which a purpose is written. -/
def isCodeChar : PurposeCode → Char → Bool
  | .digits => Char.isDigit
  | .names => Char.isAlphanum

end PurposeCode

namespace Dialect

/-- Field names in lower case, purposes as digits. -/
def numeric : Dialect where
  name := "numeric"
  id := "id"
  sender := "src"
  receiver := "dest"
  purpose := "demuxKey"
  key := "key"
  value := "value"
  version := "timestamp"
  ok := "ok"
  code := .digits

/-- Capitalised field names, purposes by name. -/
def named : Dialect where
  name := "named"
  id := "Id"
  sender := "Src"
  receiver := "Dest"
  purpose := "DemuxKey"
  key := "Key"
  value := "Value"
  version := "Timestamp"
  ok := "Ok"
  code := .names

/-- The dialect that the first field name of a line tells. -/
def detect? (line : String) : Option Dialect :=
  match Token.firstField? line with
  | some name => [numeric, named].find? fun d => d.id == name
  | none => none

/-- The message as a line. A missing version leaves its field out. -/
def render (d : Dialect) (event : String) (m : Message) : String :=
  toString m.time ++ " " ++ event ++ " \x7b" ++
    " ".intercalate
      ([d.id ++ ":" ++ toString m.id,
        d.sender ++ ":" ++ toString m.sender,
        d.receiver ++ ":" ++ toString m.receiver,
        d.purpose ++ ":" ++ d.code.encode m.purpose,
        d.key ++ ":" ++ m.key.render,
        d.value ++ ":" ++ m.value.render] ++
        (m.version.map fun v => d.version ++ ":" ++ toString v).toList ++
        [d.ok ++ ":" ++ toString m.ok]) ++
    "\x7d"

end Dialect
end StoreAudit
