import StoreAudit.FileTree
import StoreAudit.Log.ParseError

/-! What a command leaves behind: what it wrote, and how it ended. -/
namespace StoreAudit.Command

/-- Why a command stopped. -/
inductive Failure where
  | file (fault : FileFault)
  | parse (e : ParseError)
  deriving DecidableEq, Repr

def Failure.render : Failure → String
  | .file fault => "I/O error: " ++ fault.render
  | .parse e => e.render

/-- The text that was written, also before a failure, and the result. -/
structure Run (α : Type) where
  out : String
  result : Except Failure α

/-- The run without its result, if it ended well. -/
def Run.conclude {α : Type} (r : Run α) : Run Unit where
  out := r.out
  result := r.result.map fun _ => ()

/-- The run in a build that gets from its result to its end only if `completes` says so. What the
build wrote before it stopped is left out. -/
def Run.inBuild? {α : Type} (r : Run α) (completes : α → Bool) : Option (Run α) :=
  match r.result with
  | .ok a => if completes a then some r else none
  | .error _ => some r

/-- The lines as a text, each with its line end. -/
def unlines (lines : List String) : String := String.join (lines.map (· ++ "\n"))

end StoreAudit.Command
