import JoinOrder.Relation.View

/-! # Relations

What queries need of a relation: attribute names, degree constraints, lookups, and what its
indexes offer. Stored relations and their views have indexes, a listed relation has none. -/

namespace JoinOrder

/-- A relation without access paths: each lookup reads the list of all its tuples. -/
structure ListedRelation where
  name : Value
  attributes : List Name
  rows : List (List Value)
  constraints : List DegreeConstraint

namespace ListedRelation

def label (r : ListedRelation) : Label := .ofNames r.name "(" r.attributes ")"

/-- The size is that of the whole list, whatever is bound. -/
def lookup (r : ListedRelation) (binding : NamedValues) : Checked LookupResult := do
  requireAttributes r.attributes r.label binding
  let checks := binding.map fun (name, v) => (r.attributes.idxOf name, v)
  return {
    cardinality := .known r.rows.length
    finite := true
    rows := fun _ => (Rows.ofList r.rows).filterMap fun row => do
      return if ← Source.agrees row checks then some row else none }

end ListedRelation

inductive Relation
  | stored (r : StoredRelation)
  | view (v : ReorderedView)
  | listed (r : ListedRelation)

namespace Relation

def name : Relation → Value
  | stored r => r.name
  | view v => v.base.name
  | listed r => r.name

def attributes : Relation → List Name
  | stored r => r.attributes
  | view v => v.attributes
  | listed r => r.attributes

def types : Relation → List Value
  | stored r => r.types
  | view v => v.types
  | listed r => r.attributes.map fun _ => .text "any"

def constraints : Relation → List DegreeConstraint
  | stored r => r.constraints
  | view v => v.base.constraints
  | listed r => r.constraints

def label : Relation → Label
  | stored r => r.label
  | view v => v.label
  | listed r => r.label

/-- The tuples with the given values and how many there are: exactly that many if the bound
attributes are an index key, otherwise an upper bound. -/
def lookup (r : Relation) (binding : NamedValues) : Checked LookupResult :=
  match r with
  | stored r => r.lookup binding
  | view v => v.lookup binding
  | listed r => r.lookup binding

/-- The best index for a set of bound attributes. -/
def indexMatch (r : Relation) (bound : List Name) : Option IndexMatch :=
  match r with
  | stored r => r.indexMatch bound
  | view v => v.base.indexMatch bound
  | listed _ => none

/-- A bound on the number of tuples that agree on the bound attributes, whatever their values. -/
def keyFrequency (r : Relation) (bound : List Name) : Checked (Option Cardinality) :=
  match r with
  | stored r => r.keyFrequency bound
  | view v => v.base.keyFrequency bound
  | listed _ => .ok none

/-- The total number of tuples. -/
def extent (r : Relation) : Checked Cardinality := do return (← r.lookup []).cardinality

/-- The access paths, in the order of the relation's attributes. -/
def sources : Relation → Checked (List Source)
  | stored r => .ok r.sources
  | view v => v.sources
  | listed _ => .error .unsupported

/-- A view with another order of the attributes, which only stored relations have. -/
def reordered (r : Relation) (attributes : Value) : Checked Relation :=
  match r with
  | stored r => (ReorderedView.parse? r attributes).map view
  | _ => .error .unsupported

/-- The best index for attributes that are given as a value. -/
def indexMatchOf (r : Relation) (given : Value) : Checked (Option IndexMatch) :=
  match r with
  | listed _ => .ok none
  | r => do return r.indexMatch (← given.keyNames)

/-- The bound for attributes that are given as a value. -/
def keyFrequencyOf (r : Relation) (given : Value) : Checked (Option Cardinality) :=
  match r with
  | listed _ => .ok none
  | r => do r.keyFrequency (← given.keyNames)

/-- Values for the attributes, given under keys of any kind. -/
def attributeValues (r : Relation) (d : Dictionary) : Checked NamedValues :=
  NamedValues.ofEntries? r.attributes (.foreignAttributes · r.label) d.entries

end Relation
end JoinOrder
