import JoinOrder.Constraint.Declaration
import JoinOrder.Estimation.Binding

/-! # Estimates

How many values a variable of an atom can take under a binding. Three kinds of information are
consulted in turn: an index on exactly the bound attributes, which counts exactly if all values
are known; the tightest degree constraint that applies; the size of the whole relation. -/

namespace JoinOrder

structure Estimate where
  cardinality : Cardinality
  method : EstimationMethod
  /-- The variable that was estimated; none if all variables of the atom are bound. -/
  target : Option Variable
  /-- How many variables of the atom are unbound. -/
  unbound : Nat
  constraint : Option DegreeConstraint
  indexKey : Option (List Name)
deriving DecidableEq

namespace Estimate

/-- Whether an estimate of the atom `i` is preferred to one of the atom `j`: smaller ones first,
then fewer unbound variables, then the order of the atoms. An unknown cardinality is neither
smaller nor greater than another one. -/
def preferred (a b : Int × Estimate) : Bool :=
  if a.2.cardinality.same b.2.cardinality then
    a.2.unbound < b.2.unbound || (a.2.unbound = b.2.unbound && a.1 < b.1)
  else a.2.cardinality.toBinary64.lt b.2.cardinality.toBinary64

/-- The text of an estimate of an atom, whose index is shown as it is given. -/
def text (e : Estimate) (atom : Value) : String :=
  let target := match e.target with
    | some v => v.text
    | none => "*"
  s!"|{target}@{atom.display}| = {e.cardinality.text} ({e.method.text})"

/-- Fails for an estimate that cannot be written. -/
def requireShown (e : Estimate) : Checked Unit :=
  match e.target with
  | some v => v.name.requireText.map fun _ => ()
  | none => .ok ()

end Estimate

/-- What an index says about the bound attributes: an exact count if the key values are known, and
a bound from statistics otherwise. -/
structure IndexEstimate where
  cardinality : Cardinality
  key : List Name
  exact : Bool

namespace Atom

/-- The variables of an atom that are bound. -/
def boundVariables (a : Atom) (b : Binding) : List Variable := a.vars.filter b.isBound

/-- The variables of an atom that are not bound. -/
def unboundVariables (a : Atom) (b : Binding) : List Variable := a.vars.filter (!b.isBound ·)

/-- What an index on exactly the attributes of the bound variables says. -/
def indexEstimate (a : Atom) (b : Binding) (bound : List Variable) :
    Checked (Option IndexEstimate) := do
  if bound.isEmpty then return none
  let attributes := a.attributes bound
  match a.relation.indexMatch attributes with
  | some { key, exact := true } =>
    if bound.all b.isKnown then
      let found ← a.relation.lookup (a.relationBinding b.values)
      return some ⟨found.cardinality, key, true⟩
    else
      return (← a.relation.keyFrequency attributes).map fun size => ⟨size, key, false⟩
  | _ => return none

/-- Whether a constraint with bound `n` is tighter than one with bound `m`: by the bound, then by
the size of the domain. -/
def tighter (a b : Nat × DegreeConstraint) : Bool :=
  a.1 < b.1 || (a.1 = b.1 && a.2.domain.length < b.2.domain.length)

/-- The constraints that bound one of the target attributes, with their bounds. -/
def applicable (constraints : List DegreeConstraint) (bound targets : List Name) :
    Checked (List (Nat × DegreeConstraint)) :=
  constraints.filterMapM fun c => do
    if ← c.hasBound then
      match c.upper with
      | some n => return if targets.any (c.appliesTo bound) then some (n, c) else none
      | none => return none
    else return none

/-- The tightest constraint that bounds one of the target attributes once the bound ones are
fixed; of equally tight ones the first. -/
def tightestConstraint (constraints : List DegreeConstraint) (bound targets : List Name) :
    Checked (Option (Nat × DegreeConstraint)) := do
  match ← applicable constraints bound targets with
  | [] => return none
  | c :: rest => return some (← Sorting.least (total tighter) c rest)

/-- Whether a bound from an index is to be used beside a constraint. -/
def indexPrevails (index : IndexEstimate) (constraint : Option (Nat × DegreeConstraint)) :
    Checked Bool :=
  if index.exact then .ok true
  else
    match constraint with
    | none => .ok true
    | some (n, _) => index.cardinality.leValue (.ofNat n)

/-- How many values a variable of the atom can take. -/
def estimate (a : Atom) (b : Binding) (target : Variable) : Checked Estimate := do
  if target ∉ a.vars then throw (.usage (.notInAtom target.name a.label))
  let bound := a.boundVariables b
  let unbound := a.vars.length - bound.length
  let index ← a.indexEstimate b bound
  let constraint ←
    tightestConstraint a.relation.constraints (a.attributes bound) (← a.attributesOf target)
  let useIndex ← match index with
    | none => pure none
    | some i => do pure (if ← indexPrevails i constraint then some i else none)
  match useIndex, constraint with
  | some i, _ => return ⟨i.cardinality, .index, target, unbound, none, i.key⟩
  | none, some (n, c) =>
    return ⟨← Cardinality.ofValue (.ofNat n), .degree, target, unbound, c, none⟩
  | none, none => return ⟨← a.relation.extent, .scan, target, unbound, none, none⟩

/-- The estimate of the cheapest unbound variable, the first of equally cheap ones. An atom without
unbound variables only confirms the binding: it is estimated by an index if possible, and as a
single tuple otherwise. -/
def cheapestEstimate (a : Atom) (b : Binding) : Checked Estimate := do
  match ← (a.unboundVariables b).mapM (a.estimate b) with
  | first :: rest =>
    Sorting.least
      (total fun x y => x.cardinality.toBinary64.lt y.cardinality.toBinary64) first rest
  | [] =>
    match ← a.indexEstimate b a.vars with
    | some i => return ⟨i.cardinality, .index, none, 0, none, i.key⟩
    | none => return ⟨.known 1, .degree, none, 0, none, none⟩

/-- How many tuples the atom contributes for each tuple of the intermediate result. An exact count
is used as it is; otherwise the product over all unbound variables, the size of the relation and
the statistics of a matching index are bounds, of which the smallest is used. -/
def outputEstimate (a : Atom) (b : Binding) : Checked Cardinality := do
  let bound := a.boundVariables b
  let unbound := a.unboundVariables b
  match ← a.indexEstimate b bound with
  | some { cardinality, exact := true, .. } => return cardinality
  | index =>
    if unbound.isEmpty then return (← a.cheapestEstimate b).cardinality
    let estimates ← unbound.mapM (a.estimate b)
    let product := estimates.foldl (fun c e => c * e.cardinality) (.known 1)
    let extent ← a.relation.extent
    Sorting.least (total fun x y => x.toBinary64.lt y.toBinary64) product
      (extent :: (index.map IndexEstimate.cardinality).toList)

end Atom
end JoinOrder
