/-! JSON values. -/
namespace StoreAudit

/-- A JSON value. Members of an object keep their order and may repeat a name. Numbers that are
written as naturals below 2^64 are kept apart from all others. -/
inductive Json where
  | null
  | bool (b : Bool)
  | nat (n : Nat)
  | real (x : Float)
  | str (s : String)
  | arr (items : List Json)
  | obj (members : List (String × Json))
  /-- Well-formed text that denotes no value: a number beyond the doubles, or half a surrogate
  pair. -/
  | unrepresentable
  deriving Inhabited

namespace Json

def nats (ns : List Nat) : Json := .arr (ns.map .nat)

/-- The encoded value, or null. -/
def ofOption {α : Type} (encode : α → Json) (a : Option α) : Json := (a.map encode).getD .null

mutual

/-- How deeply arrays and objects are nested. -/
def depth : Json → Nat
  | .arr items => depthOfItems items + 1
  | .obj members => depthOfMembers members + 1
  | _ => 0

def depthOfItems : List Json → Nat
  | [] => 0
  | v :: rest => max (depth v) (depthOfItems rest)

def depthOfMembers : List (String × Json) → Nat
  | [] => 0
  | (_, v) :: rest => max (depth v) (depthOfMembers rest)

end

mutual

/-- No part of the value is unrepresentable. -/
def representable : Json → Bool
  | .unrepresentable => false
  | .arr items => allRepresentable items
  | .obj members => membersRepresentable members
  | _ => true

def allRepresentable : List Json → Bool
  | [] => true
  | v :: rest => representable v && allRepresentable rest

def membersRepresentable : List (String × Json) → Bool
  | [] => true
  | (_, v) :: rest => representable v && membersRepresentable rest

end

end Json
end StoreAudit
