import JoinOrder.Cost.Basic

/-! # Cost formulas

What joining an intermediate result of size `B` with a relation of size `L` costs: probing the
relation for each tuple (`B * c1 * probe`), materialising it first (`L * log2 L + B * c2`), or
testing each of its tuples (`L * c3`). The cheapest strategy is chosen, the first one of equally
cheap ones. The formulas make sense for numbers of any kind; costs are computed with those of
double precision (`CostArithmetic.double`). -/

namespace JoinOrder

/-- What costs are computed with. -/
structure CostArithmetic (α : Type) where
  zero : α
  one : α
  isZero : α → Bool
  lt : α → α → Bool
  add : α → α → α
  mul : α → α → α
  log2 : α → α

namespace CostArithmetic

variable {α : Type} (A : CostArithmetic α)

/-- A product from the left, which is zero if a factor is. -/
def product (factors : List α) : α :=
  match factors with
  | [] => A.one
  | x :: rest => if factors.any A.isZero then A.zero else rest.foldl A.mul x

/-- What materialising a relation costs; at most one tuple is free. -/
def materialization (large : α) : α :=
  if A.lt A.one large then A.product [large, A.log2 large] else A.zero

/-- The costs for known sizes, where those of all probes are known. -/
def costsOf (c2 c3 bound large iterate : α) : StrategyCosts α where
  iterate := iterate
  intermediate := A.add (A.materialization large) (A.product [bound, c2])
  filter := A.product [large, c3]

/-- The strategy with the least costs, the first of equally cheap ones. -/
def cheapest (c : StrategyCosts α) : JoinStrategy :=
  let better (best s : JoinStrategy) : JoinStrategy := if A.lt (c.of s) (c.of best) then s else best
  better (better .iterate .intermediate) .filter

/-- Numbers of double precision. -/
def double : CostArithmetic Binary64 where
  zero := 0
  one := 1
  isZero := Binary64.isZero
  lt := Binary64.lt
  add x y := x + y
  mul x y := x * y
  log2 := Binary64.log2

end CostArithmetic
end JoinOrder
