/-! Keys and values of the store: finite sequences of numbers. -/
namespace StoreAudit

/-- What no unsigned 64-bit number reaches: 2^64. -/
def wordLimit : Nat := 18446744073709551616

/-- The encoding of keys and values, compared and ordered element by element. -/
abbrev Words := List Nat

namespace Words

/-- The numbers in brackets, one space between neighbours. -/
def render (w : Words) : String :=
  "[" ++ " ".intercalate (w.map toString) ++ "]"

/-- `v` comes no later than `w` in the element-wise order, in which a beginning is no greater than
the whole. -/
def le : Words → Words → Bool
  | [], _ => true
  | _ :: _, [] => false
  | a :: v, b :: w => a < b || a == b && le v w

/-- The distinct members of `ws` in ascending order. -/
def distinct (ws : List Words) : List Words := (ws.mergeSort le).eraseReps

/-- Every number fits an unsigned 64-bit word. -/
def Fits (w : Words) : Prop := ∀ n ∈ w, n < wordLimit

end Words
end StoreAudit
