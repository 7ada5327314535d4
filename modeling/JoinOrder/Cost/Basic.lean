import JoinOrder.Number
import JoinOrder.Tag

/-! # Cost constants and strategy costs -/

namespace JoinOrder

/-- The cost constants of the join strategies, each for one operation. -/
structure CostModel where
  /-- Probing a relation for one intermediate tuple. -/
  iterateCost : Number
  /-- Probing a materialised relation. -/
  lookupCost : Number
  /-- Testing a tuple for membership in the intermediate result. -/
  membershipCost : Number
deriving DecidableEq

namespace CostModel

/-- All constants are one. -/
def unit : CostModel := ⟨.real 1, .real 1, .real 1⟩

instance : Inhabited CostModel := ⟨unit⟩

/-- The constants with the names under which they are given and exported. -/
def fields (m : CostModel) : List (String × Number) :=
  [("iterate_cost", m.iterateCost), ("lookup_cost", m.lookupCost),
    ("membership_cost", m.membershipCost)]

def text (m : CostModel) : String :=
  s!"CostModel(c1={m.iterateCost.text}, c2={m.lookupCost.text}, c3={m.membershipCost.text})"

def description (m : CostModel) : String :=
  let parts := m.fields.map fun (name, value) => name ++ "=" ++ value.text
  "CostModel(" ++ String.intercalate ", " parts ++ ")"

/-- The same constants, as numbers. -/
def same (a b : CostModel) : Bool :=
  a.iterateCost.eq b.iterateCost && a.lookupCost.eq b.lookupCost &&
    a.membershipCost.eq b.membershipCost

end CostModel

/-- The costs of all strategies for one join. -/
structure StrategyCosts (α : Type) where
  iterate : α
  intermediate : α
  filter : α
deriving DecidableEq

namespace StrategyCosts

variable {α : Type}

/-- The costs of one strategy. -/
def of (c : StrategyCosts α) : JoinStrategy → α
  | .iterate => c.iterate
  | .intermediate => c.intermediate
  | .filter => c.filter

/-- The strategies with their costs, written one after the other. -/
def textWith (c : StrategyCosts α) (write : α → String) : String :=
  "iterate=" ++ write c.iterate ++ ", intermediate=" ++ write c.intermediate ++ ", filter=" ++
    write c.filter

end StrategyCosts
end JoinOrder
