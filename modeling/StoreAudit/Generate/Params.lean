import StoreAudit.Json.Basic
import StoreAudit.Random.Draws
import StoreAudit.Words

/-! What a history to be generated looks like. -/
namespace StoreAudit.Generate

/-- So many clients with so many operations each, over so many keys. The ratios say how many of
the operations are writes, and how many reads return a superseded value where there is one. -/
structure Params where
  id : Nat := 0
  clients : Nat
  keys : Nat
  operations : Nat
  writeRatio : Float := 0.5
  staleRatio : Float := 0
  seed : Option Nat := none

namespace Params

def writeChance (p : Params) : Random.Chance := .ofRatio p.writeRatio
def staleChance (p : Params) : Random.Chance := .ofRatio p.staleRatio

/-- The parameters of history `i` of several: its id is `i`, and its seed is so much higher. -/
def nth (p : Params) (i : Nat) : Params :=
  { p with id := i, seed := p.seed.map fun seed => (seed + i) % wordLimit }

def toJson (p : Params) : Json :=
  .obj [("id", .nat p.id), ("n_client", .nat p.clients), ("n_key", .nat p.keys),
    ("n_op", .nat p.operations), ("write_ratio", .real p.writeRatio),
    ("stale_ratio", .real p.staleRatio), ("seed", Json.ofOption .nat p.seed)]

end Params
end StoreAudit.Generate
