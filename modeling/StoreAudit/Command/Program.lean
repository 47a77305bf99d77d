import StoreAudit.Command.Analyze
import StoreAudit.Command.Arguments
import StoreAudit.Command.Check
import StoreAudit.Command.Messages
import StoreAudit.Generate.History
import StoreAudit.Json.Printer

/-! The whole program: from its arguments to what it writes and how it ends. -/
namespace StoreAudit.Command

/-- What a command has to do: turn a log into output, or write files into a directory and close
with a line. -/
inductive Task where
  | judge (input? : Option String) (run : ByteArray → Run Unit)
  | produce (directory : String) (files : List (String × String)) (closing : String)

/-- The path that stands for the standard input: a dash, possibly with slashes after it. -/
def isStandardInput (path : String) : Bool :=
  match FileTree.names path with
  | "-" :: rest => rest.all fun name => name == "" || name == "."
  | _ => false

/-- A history as its two files: the operations as JSON, and a log. -/
def historyFiles (format : LogFormat) (h : Generate.History) : List (String × String) :=
  let name := toString h.params.id
  let log := match format with
    | .records => Generate.recordLog h.operations
    | .messages d => Generate.messageLog d h.operations
  [(name ++ ".json", h.toJson.render), (name ++ ".log", log)]

/-- The task of a command. The fallback takes the place of a missing seed. The schema of the
reports is not written. -/
def Arguments.task (fallback : Nat) : Arguments → Task
  | .check dialect? matchVersion input? =>
    .judge input? fun log => (Command.check dialect? matchVersion log).conclude
  | .stats dialect? json input? =>
    .judge input? fun log => (Command.stats dialect? json log).conclude
  | .analyze matchVersion percentiles verbose json input? =>
    .judge input? fun log => (Command.analyze matchVersion percentiles verbose json log).conclude
  | .oracle dialect? matchVersion json input? =>
    .judge input? fun log => (Command.oracle dialect? matchVersion json log).conclude
  | .generate count params format directory =>
    .produce directory
      ((Generate.History.several count params fallback).flatMap (historyFiles format))
      ("Generated " ++ toString count ++ " histories to " ++ directory)
  | .schema => .judge none fun _ => { out := "", result := .ok () }

/-- How the program ended. Failures are told on the error stream. -/
structure Ending where
  exit : Nat
  out : String := ""
  err : String := ""
  files : FileTree := {}

namespace Ending

def ofRun (files : FileTree) (r : Run Unit) : Ending :=
  match r.result with
  | .ok () => { exit := 0, out := r.out, files }
  | .error e => { exit := 1, out := r.out, err := e.render ++ "\n", files }

def ofFault (files : FileTree) (fault : FileFault) : Ending :=
  { exit := 1, err := (Failure.file fault).render ++ "\n", files }

/-- Writes files one after the other until one cannot be written. -/
def writeAll (directory closing : String) (t : FileTree) : List (String × String) → Ending
  | [] => { exit := 0, out := closing ++ "\n", files := t }
  | (name, text) :: rest =>
    match t.write directory name text with
    | .ok t => writeAll directory closing t rest
    | .error fault => ofFault t fault

end Ending

/-- The log that a command reads: the standard input, or a file. -/
def inputLog (stdin : ByteArray) (files : FileTree) (input? : Option String) :
    Except FileFault ByteArray :=
  match input? with
  | none => .ok stdin
  | some path =>
    if isStandardInput path then .ok stdin else (files.read path).map String.toUTF8

/-- The exit code for refused arguments. Who asks for help gets it. -/
def Refusal.exit : Refusal → Nat
  | .helpAsked => 0
  | _ => 2

/-- The program on a tree of files. A failure ends it with 1. The text of the help is left out. -/
def runProgram (args : List String) (stdin : ByteArray) (files : FileTree) (fallback : Nat) :
    Ending :=
  match Arguments.parse args with
  | .error e => { exit := e.exit, files }
  | .ok arguments =>
    match arguments.task fallback with
    | .judge input? run =>
      match inputLog stdin files input? with
      | .ok log => .ofRun files (run log)
      | .error fault => .ofFault files fault
    | .produce directory produced closing =>
      match files.makeDirectories directory with
      | .ok t => .writeAll directory closing t produced
      | .error fault => .ofFault files fault

end StoreAudit.Command
