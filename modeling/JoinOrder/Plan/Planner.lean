import JoinOrder.Plan.Basic
import JoinOrder.Plan.States

/-! # The planner

Planning is greedy: of all atoms on the frontier, which are those that have a bound variable, the one
with the smallest estimate is resolved next. Atoms that are not on the frontier are considered only
if it is empty. Before each step the remaining atoms are split into components that no unbound
variable links, and each component is planned on its own. What the sizes are estimated from is left
to an estimator. -/

namespace JoinOrder

/-- What a planner asks about an atom under a binding: the estimate by which it is compared with
other atoms, and how many tuples it contributes for each tuple of the intermediate result. -/
structure Estimator where
  cheapest : QueryGraph → Binding → Nat → Checked Estimate
  output : QueryGraph → Binding → Nat → Checked Cardinality

namespace Estimator

/-- Estimates from indexes, degree constraints and sizes. -/
def standard : Estimator where
  cheapest q b i := do (← q.atom i).cheapestEstimate b
  output q b i := do (← q.atom i).outputEstimate b

/-- The estimates of some atoms. -/
def estimates (e : Estimator) (q : QueryGraph) (b : Binding) (atoms : List Nat) :
    Checked (List (Nat × Estimate)) :=
  atoms.mapM fun i => do return (i, ← e.cheapest q b i)

end Estimator

namespace QueryGraph

/-- Whether an atom has a bound variable. -/
def touched (q : QueryGraph) (b : Binding) (i : Nat) : Bool := (q.atomVariables i).any b.isBound

/-- The step that resolves an atom. An index on exactly the bound attributes makes it a lookup,
otherwise the cost model chooses the strategy. A probe is cheap with a usable index and reads the
whole relation without. -/
def resolve (q : QueryGraph) (m : CostModel) (b : Binding) (candidates : List (Nat × Estimate))
    (chosen : Nat × Estimate) (boundSize fanout : Cardinality) : Checked Step := do
  let atom ← q.atom chosen.1
  let boundVariables := atom.boundVariables b
  let boundAttributes := atom.attributes boundVariables
  let found := if boundAttributes.isEmpty then none else atom.relation.indexMatch boundAttributes
  let extent ← atom.relation.extent
  let step (kind : StepKind) (strategy : JoinStrategy)
      (costs : Option (StrategyCosts Binary64)) : Checked Step := do
    let label ← atom.label.text?
    return {
      atom := chosen.1, label, kind, strategy
      boundVariables := Variable.sorted boundVariables, candidates, estimate := chosen.2
      boundSize, extent, fanout, costs }
  if found.any IndexMatch.exact then step .lookup .iterate none
  else
    let probe := if found.isSome then 1 else extent.toBinary64
    let costs ← m.costs boundSize.toBinary64 extent.toBinary64 (.real probe)
    step .join costs.cheapest (some costs)

/-- The standard estimates of some atoms. -/
def estimates (q : QueryGraph) (b : Binding) (atoms : List Nat) : Checked (List (Nat × Estimate)) :=
  Estimator.standard.estimates q b atoms

/-- The estimates of the atoms that may be resolved next, which are reported before one of them is
chosen. -/
def candidates (q : QueryGraph) (e : Estimator) (b : Binding) (atoms : List Nat) :
    Checked (List (Nat × Estimate)) := do
  let all ← e.estimates q b atoms
  all.forM fun (_, e) => e.requireShown
  return all

/-- The preferred one of some estimates. -/
def best (first : Nat × Estimate) (rest : List (Nat × Estimate)) : Checked (Nat × Estimate) :=
  Sorting.least
    (total fun x y => Estimate.preferred (x.1, x.2) (y.1, y.2)) first rest

/-- Combines the plans of the components, the smallest first. -/
def split (b : Binding) (size : Cardinality) (parts : List Plan) : Checked Plan := do
  let branches ←
    Sorting.sort (total fun p q => p.cardinality.toBinary64.lt q.cardinality.toBinary64) parts
  let cardinality := branches.foldl (fun c p => c * p.cardinality) size
  return .node [] branches b.boundVariables cardinality

/-- Plans the remaining ones of some atoms, of which there are fewer than `fuel`, for an intermediate
result of the given size. -/
def planComponent (q : QueryGraph) (e : Estimator) (m : CostModel) :
    (fuel : Nat) → AtomStates → Binding → Cardinality → Checked Plan
  | 0, _, _, _ => .error .stalled
  | fuel + 1, states, b, size => do
    if states.remaining.isEmpty then return .node [] [] [] size
    let components ← q.components states.remaining b.boundVariables
    if 1 < components.length then
      let parts ← components.mapM fun atoms =>
        planComponent q e m fuel (.start atoms) b (.known 1)
      split b size parts
    else
      let states := states.advance (q.touched b)
      match ← q.candidates e b states.candidates with
      | [] => throw .stalled
      | candidate :: candidates =>
        let chosen ← best candidate candidates
        states.requireOpen chosen.1
        let atom ← q.atom chosen.1
        let fanout ← e.output q b chosen.1
        let step ← q.resolve m b (candidate :: candidates) chosen size fanout
        let rest ← planComponent q e m fuel (states.resolve chosen.1) (b.bind atom.vars)
          (size * fanout)
        return rest.after step

/-- The plan of a query for the estimates of an estimator. -/
def planWith (q : QueryGraph) (e : Estimator) (m : CostModel) : Checked Plan :=
  planComponent q e m (q.size + 1) (.start q.indices) (.ofConstants q.constants) (.known 1)

/-- The plan of a query. -/
def plan (q : QueryGraph) (m : CostModel) : Checked Plan := q.planWith .standard m

end QueryGraph
end JoinOrder
