import JoinOrder.Value.Text

/-! # Source schemas

What is declared about a source: its kind, its attributes, an optional position column that
holds the ordinal of each stored tuple, and the offsets of the attributes it is sorted by. -/

namespace JoinOrder

structure Schema where
  kind : SourceKind
  attributes : List Name
  position : Option Name
  sortOffsets : List Nat
deriving DecidableEq

namespace Schema

/-- The names of the values of a scanned tuple: the attributes, then the position. -/
def columns (s : Schema) : List Name := s.attributes ++ s.position.toList

/-- The attributes that the source is sorted by, in sort order. -/
def sortKey (s : Schema) : List Name := s.sortOffsets.filterMap (s.attributes[·]?)

def isTable (s : Schema) : Bool := s.kind = .table
def isStream (s : Schema) : Bool := s.kind = .stream

/-- Tables are bounded, streams count as unbounded. -/
def isFinite (s : Schema) : Bool := s.isTable

def text (s : Schema) : String :=
  let position := match s.position with
    | some name => "; " ++ name.display
    | none => ""
  s.kind.text ++ "(" ++ Name.joined s.attributes ++ position ++ ")"

def description (s : Schema) : String :=
  let attributes := Value.description (Value.nameTuple s.attributes)
  let offsets := Value.description (.tuple (s.sortOffsets.map Value.ofNat))
  "Source(kind=" ++ s.kind.text ++ ", attributes=" ++ attributes ++ ", position=" ++
    (s.position.map Name.display).getD "None" ++ ", sorted_prefix=" ++ offsets ++ ")"

end Schema
end JoinOrder
