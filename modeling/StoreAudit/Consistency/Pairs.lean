/-! Pairs of the members of a list. -/
namespace StoreAudit

/-- Each member with each later one, in the order of the first and then of the second. -/
def pairs {α : Type} : List α → List (α × α)
  | [] => []
  | a :: rest => rest.map (a, ·) ++ pairs rest

end StoreAudit
