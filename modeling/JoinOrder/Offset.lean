import JoinOrder.Fault

/-! # Offsets

An offset into a list counts from the end when it is negative. -/

namespace JoinOrder

/-- The position that an offset denotes in a list of the given length. -/
def resolveOffset (length : Nat) (offset : Int) : Option Nat :=
  let i := if offset < 0 then offset + length else offset
  if 0 ≤ i ∧ i < length then some i.toNat else none

def atOffset {α : Type} (xs : List α) (offset : Int) : Checked α :=
  match (resolveOffset xs.length offset).bind (xs[·]?) with
  | some x => .ok x
  | none => .error .outOfRange

def atPosition {α : Type} (xs : List α) (i : Nat) : Checked α :=
  match xs[i]? with
  | some x => .ok x
  | none => .error .outOfRange

end JoinOrder
