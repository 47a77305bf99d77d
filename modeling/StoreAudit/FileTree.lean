/-! A tree of directories and files, and what the operating system does with paths in it. -/
namespace StoreAudit

/-- What can go wrong with files and their text. -/
inductive FileFault where
  | notFound
  | alreadyExists
  | notDirectory
  | isDirectory
  | nameTooLong
  | invalidText
  | other (description : String) (code : Nat)
  deriving DecidableEq, Repr, Inhabited

/-- The fault in words, with the number that the operating system has for it. -/
def FileFault.render : FileFault → String
  | .notFound => "No such file or directory (os error 2)"
  | .alreadyExists => "File exists (os error 17)"
  | .notDirectory => "Not a directory (os error 20)"
  | .isDirectory => "Is a directory (os error 21)"
  | .nameTooLong => "File name too long (os error 36)"
  | .invalidText => "stream did not contain valid UTF-8"
  | .other description code => description ++ " (os error " ++ toString code ++ ")"

/-- What stands at a place in the tree. -/
inductive FileTree.Entry where
  | directory
  | file (text : String)
  deriving DecidableEq, Repr, Inhabited

/-- The entries by the names that lead to them from the working directory. -/
structure FileTree where
  entries : List (List String × FileTree.Entry) := []
  deriving DecidableEq, Repr, Inhabited

namespace FileTree

/-- The name of the root. -/
def root : String := "/"

/-- What every system has: the root, and in it an empty device. -/
def system : List (List String × Entry) :=
  [([root], .directory), ([root, "dev"], .directory), ([root, "dev", "null"], .file "")]

/-- Whether the place is the working directory or lies above it. -/
def isAbove (place : List String) : Bool := place.all (· == "..")

def find? (t : FileTree) (place : List String) : Option Entry :=
  if isAbove place then some .directory else (t.entries ++ system).lookup place

/-- The names in a path, which slashes divide. A slash at the front names the root. -/
def names (path : String) : List String :=
  match path.splitOn "/" with
  | "" :: name :: rest => root :: name :: rest
  | names => names

/-- The place that a name leads to. Two dots cancel the last name, unless that is two dots as
well. -/
def enter (place : List String) (name : String) : List String :=
  if name = "" ∨ name = "." then place
  else if name = root then [root]
  else if name = ".." then
    if isAbove place then place ++ [name] else if place = [root] then place else place.dropLast
  else place ++ [name]

/-- How many bytes a name may have. -/
def nameLimit : Nat := 255

/-- Follows names from a place. Only directories can be entered, also by a slash at the end. -/
def walk (t : FileTree) (place : List String) : List String → Except FileFault (List String × Entry)
  | [] =>
    match t.find? place with
    | none => .error .notFound
    | some entry => .ok (place, entry)
  | name :: rest =>
    match t.find? place with
    | none => .error .notFound
    | some (.file _) => .error .notDirectory
    | some .directory =>
      if nameLimit < name.utf8ByteSize then .error .nameTooLong else t.walk (enter place name) rest

/-- What the path leads to. The empty path leads nowhere. -/
def locate (t : FileTree) (path : String) : Except FileFault Entry :=
  if path.isEmpty then .error .notFound else (t.walk [] (names path)).map (·.2)

/-- The text of the file at the path. -/
def read (t : FileTree) (path : String) : Except FileFault String := do
  match ← t.locate path with
  | .file text => .ok text
  | .directory => .error .isDirectory

/-- The directory at the end of the names. -/
def parent (t : FileTree) (names : List String) : Except FileFault (List String) := do
  match ← t.walk [] names with
  | (place, .directory) => .ok place
  | (_, .file _) => .error .notDirectory

/-- Makes one directory, whose parent must be there. -/
def makeDirectory (t : FileTree) (names : List String) : Except FileFault FileTree := do
  let name := names.getLastD "."
  let place := enter (← t.parent names.dropLast) name
  if nameLimit < name.utf8ByteSize then .error .nameTooLong
  match t.find? place with
  | some _ => .error .alreadyExists
  | none => .ok ⟨t.entries ++ [(place, .directory)]⟩

/-- A directory that is there already is as good as made. -/
def orDirectory (t : FileTree) (names : List String) (made : Except FileFault FileTree) :
    Except FileFault FileTree :=
  match made with
  | .ok made => .ok made
  | .error e =>
    match t.walk [] names with
    | .ok (_, .directory) => .ok t
    | _ => .error e

/-- Makes a directory, given by its names from the last to the first, and before it those of its
parents that are missing. -/
def makeReversed (t : FileTree) : List String → Except FileFault FileTree
  | [] => .ok t
  | name :: outer =>
    let path := (name :: outer).reverse
    match t.makeDirectory path with
    | .error .notFound => do
      let t ← t.makeReversed outer
      t.orDirectory path (t.makeDirectory path)
    | made => t.orDirectory path made

def makeDirectories (t : FileTree) (path : String) : Except FileFault FileTree :=
  t.makeReversed ((names path).filter fun name => name ≠ "" ∧ name ≠ ".").reverse

/-- Writes a file into a directory in place of the one that was there. -/
def write (t : FileTree) (directory name text : String) : Except FileFault FileTree := do
  let place := enter (← t.parent (names directory)) name
  match t.find? place with
  | some .directory => .error .isDirectory
  | _ => .ok ⟨t.entries.filter (fun e => e.1 ≠ place) ++ [(place, .file text)]⟩

/-- The paths of all files below the working directory, in ascending order. -/
def filePaths (t : FileTree) : List String :=
  let paths := t.entries.filterMap fun (place, entry) =>
    if entry = .directory ∨ place.head? = some ".." ∨ place.head? = some root then none
    else some ("/".intercalate place)
  paths.mergeSort fun p q => decide (p ≤ q)

/-- A tree of these files, given by their paths. -/
def ofFiles (files : List (String × String)) : FileTree :=
  let parents (place : List String) : List (List String) :=
    (List.range place.length).tail.map place.take
  let directories := (files.flatMap fun (path, _) => parents (names path)).eraseDups
  ⟨directories.map (·, .directory) ++ files.map fun (path, text) => (names path, .file text)⟩

end FileTree
end StoreAudit
