import StoreAudit.Command.Program

/-! The command line program. -/
namespace StoreAudit

/-- The number of an error. Some calls of the operating system give it with its sign changed. -/
def errorNumber (code : UInt32) : Nat := if code < 0x80000000 then code.toNat else (-code).toNat

/-- The fault that an error of the operating system is. -/
def FileFault.ofError : IO.Error → FileFault
  | .noFileOrDirectory .. => .notFound
  | .alreadyExists .. => .alreadyExists
  | .inappropriateType _ code details =>
    if errorNumber code = 20 then .notDirectory
    else if errorNumber code = 21 then .isDirectory
    else .other details (errorNumber code)
  | .invalidArgument _ 36 _ => .nameTooLong
  | .permissionDenied _ code details => .other details (errorNumber code)
  | e => .other (toString e) 0

namespace Command

/-- The result, or the fault that kept it from coming about. -/
def attempt {α : Type} (action : IO α) : IO (Except FileFault α) := do
  match ← action.toBaseIO with
  | .ok a => return .ok a
  | .error e => return .error (.ofError e)

/-- All bytes that are left in the stream. -/
partial def readAll (stream : IO.FS.Stream) (read : ByteArray) : IO ByteArray := do
  let chunk ← stream.read 65536
  if chunk.isEmpty then return read else readAll stream (read ++ chunk)

/-- The log that a command reads: the standard input, or a file. -/
def readLog : Option String → IO ByteArray
  | none => do readAll (← IO.getStdin) .empty
  | some path =>
    if isStandardInput path then do readAll (← IO.getStdin) .empty else IO.FS.readBinFile path

/-- Every directory has an entry for itself. -/
def isDirectory (path : String) : IO Bool := do
  match ← attempt (IO.FS.createDir (path ++ "/.")) with
  | .error .alreadyExists => return true
  | _ => return false

/-- Makes a directory. One that is there already is as good as made. -/
def makeDirectory (path : String) : IO Unit := do
  try IO.FS.createDir path
  catch e => unless ← isDirectory path do throw e

/-- Makes a directory, given by its names from the last to the first, and before it those of its
parents that are missing. -/
def makeReversed : List String → IO Unit
  | [] => return ()
  | name :: outer => do
    let path := "/".intercalate (name :: outer).reverse
    if path.isEmpty then return ()
    match ← attempt (makeDirectory path) with
    | .error .notFound =>
      makeReversed outer
      makeDirectory path
    | _ => makeDirectory path

/-- Writes the files below the directory, which is made if it is missing. -/
def writeFiles (directory : String) (files : List (String × String)) : IO Unit := do
  makeReversed (FileTree.names directory).reverse
  for (name, text) in files do
    IO.FS.writeFile (directory ++ "/" ++ name) text

/-- Writes what a run wrote, tells its failure, and gives the exit code. -/
def conclude (r : Run Unit) : IO UInt32 := do
  IO.print r.out
  match r.result with
  | .ok () => return 0
  | .error e =>
    IO.eprintln e.render
    return 1

def runTask : Task → IO UInt32
  | .judge input? run => do
    match ← attempt (readLog input?) with
    | .ok log => conclude (run log)
    | .error fault => conclude { out := "", result := .error (.file fault) }
  | .produce directory files closing => do
    match ← attempt (writeFiles directory files) with
    | .ok () => conclude { out := closing ++ "\n", result := .ok () }
    | .error fault => conclude { out := "", result := .error (.file fault) }

/-- How the program is called. -/
def usage : String :=
  "usage: storeaudit check|stats|analyze|oracle [OPTIONS] [INPUT]\n" ++
    "       storeaudit generate [OPTIONS] --output-dir DIRECTORY\n"

/-- Tells how the program is called, to who asks for it or else as an error. -/
def refuse (e : Refusal) : IO UInt32 := do
  if e = .helpAsked then IO.print usage else IO.eprint usage
  return e.exit.toUInt32

end Command
end StoreAudit

def main (args : List String) : IO UInt32 := do
  match StoreAudit.Command.Arguments.parse args with
  | .error e => StoreAudit.Command.refuse e
  | .ok arguments =>
    let fallback ← IO.rand 0 (StoreAudit.wordLimit - 1)
    StoreAudit.Command.runTask (arguments.task fallback)
