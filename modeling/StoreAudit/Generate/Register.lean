import StoreAudit.Generate.Schedule

/-! What the operations of a generated history write and read. -/
namespace StoreAudit.Generate
open StoreAudit.Random

/-- A committed write of a key. -/
structure Commit where
  value : Nat
  version : Nat
  finish : Nat
  deriving DecidableEq, Repr, Inhabited

/-- The commits whose successors were over before `start`. -/
def superseded (start : Nat) (commits : List Commit) : List Commit :=
  (commits.zip commits.tail).filterMap fun (commit, next) =>
    if next.finish < start then some commit else none

/-- An operation that was carried out. `stale` marks a read that returned a superseded value. -/
structure Executed where
  client : Nat
  stale : Bool
  operation : Operation
  deriving DecidableEq, Repr, Inhabited

/-- The operation with the value it wrote or read. -/
def Planned.execute (p : Planned) (stale : Bool) (c : Commit) : Executed where
  client := p.client
  stale := stale
  operation :=
    { id := 0, action := p.action, key := [p.key], value := [c.value], start := p.start,
      finish := p.finish, version := some c.version, outcome := .success }

variable {σ : Type}

/-- The commit that a read observes, and whether it is a superseded one: the last commit, or with
the chance of staleness any superseded one. -/
def observe (d : Draws σ) (chance : Chance) (start : Nat) (commits : List Commit) (s : σ) :
    Option (Commit × Bool) × σ :=
  let old := superseded start commits
  if old.isEmpty then (commits.getLast?.map (·, false), s)
  else
    let (stale, s) := d.happens chance s
    if stale then
      let (i, s) := d.index old.length s
      (old[i]?.map (·, true), s)
    else (commits.getLast?.map (·, false), s)

/-- Carries the operations out in their order. `values` counts the values written so far, and
`registers` holds the commits of each key, oldest first. An operation on a key without a register is
left out, and so is a read of a key without commits. -/
def execute (d : Draws σ) (chance : Chance) :
    List Planned → Nat → List (List Commit) → σ → List Executed × σ
  | [], _, _, s => ([], s)
  | p :: rest, values, registers, s =>
    match registers[p.key]? with
    | none => execute d chance rest values registers s
    | some commits =>
      match p.action with
      | .write =>
        let commit : Commit :=
          { value := values + 1, version := commits.length + 1, finish := p.finish }
        let (done, s) :=
          execute d chance rest (values + 1) (registers.set p.key (commits ++ [commit])) s
        (p.execute false commit :: done, s)
      | .read =>
        let (observed, s) := observe d chance p.start commits s
        let (done, s) := execute d chance rest values registers s
        match observed with
        | some (commit, stale) => (p.execute stale commit :: done, s)
        | none => (done, s)

end StoreAudit.Generate
