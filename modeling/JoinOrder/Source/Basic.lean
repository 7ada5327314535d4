import JoinOrder.Source.Declaration
import JoinOrder.Storage.Stream
import JoinOrder.Storage.Table

/-! # Sources

A source is an access path: a schema together with the handle that reaches the tuples. A view of
a source presents the attributes in another order than they are stored in. -/

namespace JoinOrder

structure Source where
  schema : Schema
  /-- Without a handle only the schema can be asked for. -/
  handle : Option Handle
  /-- The order in which the handle provides the attribute values. -/
  stored : List Name

namespace Source

def columns (s : Source) : List Name := s.schema.columns
def attributes (s : Source) : List Name := s.schema.attributes
def position (s : Source) : Option Name := s.schema.position
def sortKey (s : Source) : List Name := s.schema.sortKey
def isFinite (s : Source) : Bool := s.schema.isFinite
def text (s : Source) : String := s.schema.text
def description (s : Source) : String := s.schema.description

def ofSchema (schema : Schema) (handle : Option Handle) : Source :=
  { schema, handle, stored := schema.attributes }

def declare? (kind : Value) (handle : Option Handle) (attributes position sorted : Value) :
    Checked Source := do
  return ofSchema (← Schema.declare? kind attributes position sorted) handle

/-- A table source over rows that are sorted as declared. The declaration is checked first. -/
def ofTable? (rows attributes position sorted : Value) : Checked Source := do
  let schema ← Schema.declare? (.tag (.source .table)) attributes position sorted
  let rows ← (← rows.elements).mapM Value.elements
  let table ← SortedTable.build rows (schema.sortOffsets.map Value.ofNat)
  return ofSchema schema (some table.handle)

/-- A stream source. -/
def ofStream? (rows length attributes position : Value) : Checked Source := do
  let schema ← Schema.declare? (.tag (.source .stream)) attributes position (.int 0)
  return ofSchema schema (some (RowStream.ofValue rows length).handle)

/-- Presents the attributes in another order. The sort key stays the same, so its attributes have
to keep their relative order. -/
def reordered (s : Source) (attributes : List Name) : Checked Source :=
  if !attributes.isPerm s.attributes then
    .error (.schema (.notSourcePermutation (attributes.map .ofName)))
  else
    let sortOffsets := s.sortKey.map (attributes.idxOf ·)
    if !strictlyIncreasing sortOffsets then
      .error (.schema (.sortedOffsetsNotIncreasing sortOffsets))
    else .ok { s with schema := { s.schema with attributes, sortOffsets } }

/-- Presents the attributes in an order that is given as a value. -/
def reorderedAs (s : Source) (given : Value) : Checked Source := do
  s.reordered (← parsePermutation .notSourcePermutation s.attributes given)

end Source
end JoinOrder
