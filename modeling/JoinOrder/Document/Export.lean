import JoinOrder.Document.Basic
import JoinOrder.Plan.Basic
import JoinOrder.Sorting

/-! # Exporting values and plans

Tags are exported by their texts, sets as lists in the order of their items' texts, paths as
texts, and the library's own types as objects. An infinite number becomes the text `inf`, except
among the items of a set, where it is left as it is. -/

namespace JoinOrder
namespace Document

/-- A number, where infinities are replaced by a text. -/
def ofReal (x : Binary64) : Document := if x.isInfinite then text "inf" else real x

def ofNumber : Number → Document
  | .int n => int n
  | .real x => ofReal x

def ofCardinality (c : Cardinality) : Document := ofReal c.toBinary64

/-- The largest number of tuples, or the text for infinity. -/
def ofUpper (upper : Option Nat) : Document :=
  match upper with
  | some n => int n
  | none => text "inf"

def ofBounds (lower : Nat) (upper : Option Nat) (domain range : Document) : Document :=
  object [("lower_bound", int lower), ("upper_bound", ofUpper upper), ("domain", domain),
    ("range", range)]

/-- Some names, all of which have to be texts. -/
def ofNames (names : List Name) : Checked Document := do
  return list ((← names.mapM Name.requireText).map text)

def ofConstraint (c : DegreeConstraint) : Checked Document := do
  return ofBounds c.lower c.upper (← ofNames c.domain) (← ofNames c.range)

def ofModel (m : CostModel) : Document :=
  object (m.fields.map fun (name, value) => (name, ofNumber value))

/-- The name of a field for a key: a text, or the literal of a scalar. -/
def keyText : Value → Checked String
  | .text s => .ok s
  | .bool b => .ok (if b then "true" else "false")
  | .null => .ok "null"
  | .int n => .ok (toString n)
  | .real x => .ok (numberText x)
  | .undefined _ => .ok (numberText .nan)
  | _ => .error (.mismatch .noDocumentForm)

/-- Orders the fields of a map by their keys. -/
def sortFields (keys : List Value) (fields : List (String × Document)) :
    Checked (List (String × Document)) := do
  let sorted ← Sorting.sort (fun a b => Value.lt a.1 b.1) (keys.zip fields)
  return sorted.map Prod.snd

/-- Orders the documents of some items as the items are ordered. -/
def sortByValue (xs : List Value) (items : List Document) : Checked (List Document) := do
  let sorted ← Sorting.sort (fun a b => Value.lt a.1 b.1) (xs.zip items)
  return sorted.map Prod.snd

/-- Orders the items of a set by their texts. -/
def sortItems (xs : List Value) (items : List Document) : Checked (List Document) := do
  let keyed := (xs.map Value.display).zip items
  let sorted ← Sorting.sort (total fun a b => a.1 < b.1) keyed
  return sorted.map Prod.snd

mutual

/-- The document of a value. -/
def ofValue (sortKeys inSet : Bool) : Value → Checked Document
  | .null => .ok null
  | .bool b => .ok (bool b)
  | .int n => .ok (int n)
  | .real x => .ok (if inSet then real x else ofReal x)
  | .undefined _ => .ok (real .nan)
  | .text s | .path s => .ok (text s)
  | .list xs | .tuple xs => do return list (← ofValues sortKeys inSet xs)
  | .set xs | .sealedSet xs => do
    Value.requireAllShown xs
    return list (← sortItems xs (← ofValues sortKeys true xs))
  | .map entries => do
    if sortKeys then
      let _ ← Sorting.sort Value.lt (entries.map Prod.fst)
    let fields ← ofEntries sortKeys inSet entries
    if sortKeys then return object (← sortFields (entries.map Prod.fst) fields)
    return object fields
  | .tag t => .ok (text t.text)
  | .cardinality c => .ok (ofCardinality c)
  | .constraint lower upper domain range => do
    let _ ← Sorting.sort Value.lt domain
    let _ ← Sorting.sort Value.lt range
    let domain ← sortByValue domain (← ofValues sortKeys false domain)
    let range ← sortByValue range (← ofValues sortKeys false range)
    return inOrder sortKeys (ofBounds lower upper (list domain) (list range))
  | .model m => .ok (inOrder sortKeys (ofModel m))
  | .costs a b c => do
    let fields := [("iterate", ← ofValue sortKeys false a),
      ("intermediate", ← ofValue sortKeys false b), ("filter", ← ofValue sortKeys false c)]
    return inOrder sortKeys (object fields)
  | .var _ | .foreign _ | .brokenText _ => .error (.mismatch .noDocumentForm)
where
  /-- The fields of an object by their names, if that is asked for. -/
  inOrder (sortKeys : Bool) (d : Document) : Document :=
    match d with
    | object fields =>
      if sortKeys then
        object (fields.mergeSort fun a b => !decide (b.1 < a.1))
      else d
    | d => d

def ofValues (sortKeys inSet : Bool) : List Value → Checked (List Document)
  | [] => .ok []
  | x :: xs => do return (← ofValue sortKeys inSet x) :: (← ofValues sortKeys inSet xs)

def ofEntries (sortKeys inSet : Bool) : List (Value × Value) →
    Checked (List (String × Document))
  | [] => .ok []
  | (k, v) :: rest => do
    return (← keyText k, ← ofValue sortKeys inSet v) :: (← ofEntries sortKeys inSet rest)

end

def ofEstimate (e : Estimate) (atom : Nat) : Checked Document := do
  let constraint ← e.constraint.mapM ofConstraint
  let key ← e.indexKey.mapM ofNames
  return object [
    ("cardinality", ofCardinality e.cardinality),
    ("method", text e.method.text),
    ("atom", int atom),
    ("variable", (e.target.map fun v => text v.text).getD null),
    ("unbound", int e.unbound),
    ("constraint", constraint.getD null),
    ("index_key", key.getD null)]

def ofCosts (c : StrategyCosts Binary64) : Document :=
  object [("iterate", ofReal c.iterate), ("intermediate", ofReal c.intermediate),
    ("filter", ofReal c.filter)]

def ofStep (s : Step) : Checked Document := do
  return object [
    ("atom", int s.atom),
    ("label", text s.label),
    ("kind", text s.kind.text),
    ("strategy", text s.strategy.text),
    ("bound_variables", ← ofNames (Variable.names s.boundVariables)),
    ("estimate", ← ofEstimate s.estimate s.atom),
    ("bound_size", ofCardinality s.boundSize),
    ("extent", ofCardinality s.extent),
    ("fanout", ofCardinality s.fanout),
    ("costs", (s.costs.map ofCosts).getD null)]

mutual

def ofPlan : Plan → Checked Document
  | .node steps branches cut cardinality => do
    return object [
      ("steps", list (← steps.mapM ofStep)),
      ("branches", list (← ofPlans branches)),
      ("cut_variables", ← ofNames (Variable.names cut)),
      ("cardinality", ofCardinality cardinality)]

def ofPlans : List Plan → Checked (List Document)
  | [] => .ok []
  | p :: rest => do return (← ofPlan p) :: (← ofPlans rest)

end

/-- How estimates are made. -/
def ofEstimation : Document :=
  object [("name", text "degree-constraint-estimator"),
    ("priority", texts (EstimationMethod.all.map EstimationMethod.text))]

/-- The settings of the planner. -/
def ofPlanner (m : CostModel) : Document :=
  object [("name", text "global-frontier-greedy"), ("estimator", ofEstimation),
    ("cost_model", ofModel m)]

end Document

/-- The settings of the planner on one line. -/
def CostModel.plannerText (m : CostModel) : String :=
  "JoinOrderPlanner(estimator=CardinalityEstimator(), cost_model=" ++ m.text ++ ")"

end JoinOrder
