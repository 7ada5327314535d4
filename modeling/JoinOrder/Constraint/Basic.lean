import JoinOrder.NameSet

/-! # Degree constraints

For fixed values of the domain attributes, the number of distinct values of the range attributes
lies between two bounds. An upper bound of one is a functional dependency. -/

namespace JoinOrder

structure DegreeConstraint where
  lower : Nat
  /-- No value means unbounded. -/
  upper : Option Nat
  domain : NameSet
  range : NameSet
deriving DecidableEq

namespace DegreeConstraint

/-- All attributes that are mentioned. -/
def attributes (c : DegreeConstraint) : NameSet := NameSet.ofList (c.domain ++ c.range)

def isFunctionalDependency (c : DegreeConstraint) : Bool := c.upper = some 1

/-- Whether the constraint bounds the values of `target` once the `bound` attributes are fixed. -/
def appliesTo (c : DegreeConstraint) (bound : List Name) (target : Name) : Bool :=
  NameSet.covers bound c.domain && decide (target ∈ c.range)

def upperText (c : DegreeConstraint) : String :=
  match c.upper with
  | none => "*"
  | some n => toString n

def text (c : DegreeConstraint) : String :=
  s!"({Name.joined c.domain}) -> [{c.lower}..{c.upperText}] ({Name.joined c.range})"

end DegreeConstraint
end JoinOrder
