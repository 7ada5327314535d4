import JoinOrder.Relation.Stored

/-! # Reordered views

A view presents a stored relation with another order of its attributes. Everything is delegated
to the relation, and the tuples are rearranged on the way. -/

namespace JoinOrder

structure ReorderedView where
  base : StoredRelation
  attributes : List Name

namespace ReorderedView

def declare? (base : StoredRelation) (attributes : List Name) : Checked ReorderedView :=
  if attributes.isPerm base.attributes && (firstRepeat [] attributes).isNone then
    .ok { base, attributes }
  else .error (.schema (.notRelationPermutation (attributes.map .ofName)))

/-- A view with an order that is given as a value. -/
def parse? (base : StoredRelation) (given : Value) : Checked ReorderedView := do
  declare? base (← parsePermutation .notRelationPermutation base.attributes given)

def label (v : ReorderedView) : Label := .ofNames v.base.name "[" v.attributes "]"

/-- Where the attributes of the view stand in the tuples of the relation. -/
def permutation (v : ReorderedView) : List Nat := v.attributes.map (v.base.attributes.idxOf ·)

def types (v : ReorderedView) : List Value := v.permutation.filterMap (v.base.types[·]?)

/-- The attributes of a source in the order of the view, those unknown to the view last. -/
def sourceOrder (v : ReorderedView) (source : Source) : List Name :=
  let shown := v.attributes.filter (· ∈ source.attributes)
  shown ++ source.attributes.filter (· ∉ shown)

/-- A source in the order of the view, if its sort key attributes keep their relative order in it;
otherwise the source as it is. -/
def arrangeSource (v : ReorderedView) (source : Source) : Checked Source :=
  let order := v.sourceOrder source
  if strictlyIncreasing (source.sortKey.map (order.idxOf ·)) then source.reordered order
  else .ok source

def sources (v : ReorderedView) : Checked (List Source) := v.base.sources.mapM v.arrangeSource

def lookup (v : ReorderedView) (binding : NamedValues) : Checked LookupResult := do
  requireAttributes v.attributes v.label binding
  let found ← v.base.lookup binding
  return { found with
    rows := fun _ => (found.rows ()).map fun row => v.permutation.mapM (atPosition row) }

end ReorderedView
end JoinOrder
