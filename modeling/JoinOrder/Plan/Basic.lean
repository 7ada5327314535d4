import JoinOrder.Cost.Model
import JoinOrder.Estimation.Estimate

/-! # Join plans

A plan resolves atoms step by step. Once the remaining atoms fall apart, each of the independent
parts has a plan of its own, a branch, and the results of the branches are combined on the
variables that were bound at the cut. -/

namespace JoinOrder

/-- The resolution of one atom. -/
structure Step where
  atom : Nat
  label : String
  kind : StepKind
  strategy : JoinStrategy
  /-- The variables of the atom that are bound before the step. -/
  boundVariables : List Variable
  /-- The estimates of all atoms that could have been resolved instead, this one included. -/
  candidates : List (Nat × Estimate)
  estimate : Estimate
  /-- The size of the intermediate result before the step. -/
  boundSize : Cardinality
  /-- The size of the relation. -/
  extent : Cardinality
  /-- The number of tuples of the atom for one intermediate tuple. -/
  fanout : Cardinality
  /-- The costs of all strategies; a lookup has none. -/
  costs : Option (StrategyCosts Binary64)
deriving DecidableEq

inductive Plan
  | node (steps : List Step) (branches : List Plan) (cut : List Variable)
    (cardinality : Cardinality)

namespace Plan

def steps : Plan → List Step
  | node steps _ _ _ => steps

def branches : Plan → List Plan
  | node _ branches _ _ => branches

/-- The variables that were bound when the atoms fell apart. -/
def cut : Plan → List Variable
  | node _ _ cut _ => cut

/-- The expected number of results. -/
def cardinality : Plan → Cardinality
  | node _ _ _ cardinality => cardinality

/-- The plan with another step before it. -/
def after (step : Step) : Plan → Plan
  | node steps branches cut cardinality => node (step :: steps) branches cut cardinality

mutual

/-- All steps, those of the branches after those of the plan itself. -/
def allSteps : Plan → List Step
  | node steps branches _ _ => steps ++ branchSteps branches

def branchSteps : List Plan → List Step
  | [] => []
  | p :: rest => allSteps p ++ branchSteps rest

end

/-- The atoms in the order in which they are resolved. -/
def joinOrder (p : Plan) : List Nat := p.allSteps.map Step.atom

/-- Kind and strategy of all steps. -/
def strategies (p : Plan) : List (Nat × StepKind × JoinStrategy) :=
  p.allSteps.map fun s => (s.atom, s.kind, s.strategy)

def isSplit (p : Plan) : Bool := !p.branches.isEmpty

end Plan
end JoinOrder
