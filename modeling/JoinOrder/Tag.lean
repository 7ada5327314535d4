/-! # Tags

The small vocabularies of the library: what a source is, what an estimate rests on, how a step
joins, and how far an atom has come in planning. Each tag has a name and an exported text. -/

namespace JoinOrder

/-- A table can be searched by its sort key, a stream is read from its beginning. -/
inductive SourceKind
  | table
  | stream
deriving DecidableEq, Inhabited

/-- What an estimate rests on, in order of preference. -/
inductive EstimationMethod
  | index
  | degree
  | scan
deriving DecidableEq, Inhabited

/-- How a step joins its atom, in tie-breaking order. -/
inductive JoinStrategy
  | iterate
  | intermediate
  | filter
deriving DecidableEq, Inhabited

/-- A lookup is answered by an index on exactly the bound attributes, everything else is joined. -/
inductive StepKind
  | lookup
  | join
deriving DecidableEq, Inhabited

/-- How far an atom has come: a bound variable moves it to the frontier. -/
inductive AtomState
  | unresolved
  | frontier
  | resolved
deriving DecidableEq, Inhabited

def SourceKind.text : SourceKind → String
  | table => "table"
  | stream => "stream"

def EstimationMethod.text : EstimationMethod → String
  | index => "index"
  | degree => "degree"
  | scan => "scan"

def EstimationMethod.all : List EstimationMethod := [index, degree, scan]

def JoinStrategy.text : JoinStrategy → String
  | iterate => "iterate"
  | intermediate => "intermediate"
  | filter => "filter"

def JoinStrategy.all : List JoinStrategy := [iterate, intermediate, filter]

def StepKind.text : StepKind → String
  | lookup => "lookup"
  | join => "join"

def AtomState.text : AtomState → String
  | unresolved => "unresolved"
  | frontier => "frontier"
  | resolved => "resolved"

/-- A tag of any of the vocabularies. -/
inductive Tag
  | source (kind : SourceKind)
  | method (m : EstimationMethod)
  | strategy (s : JoinStrategy)
  | step (k : StepKind)
  | atom (s : AtomState)
deriving DecidableEq

namespace Tag

def all : List Tag :=
  [.source .table, .source .stream, .method .index, .method .degree, .method .scan,
    .strategy .iterate, .strategy .intermediate, .strategy .filter, .step .lookup, .step .join,
    .atom .unresolved, .atom .frontier, .atom .resolved]

/-- The exported text. -/
def text : Tag → String
  | source k => k.text
  | method m => m.text
  | strategy s => s.text
  | step k => k.text
  | atom s => s.text

def family : Tag → String
  | source _ => "SourceKind"
  | method _ => "EstimationMethod"
  | strategy _ => "JoinStrategy"
  | step _ => "StepKind"
  | atom _ => "AtomState"

/-- The name within the vocabulary. -/
def member (t : Tag) : String := t.text.capitalize

/-- The vocabulary and the member, such as `JoinStrategy.Filter`. -/
def name (t : Tag) : String := t.family ++ "." ++ t.member

def description (t : Tag) : String := "<" ++ t.name ++ ": '" ++ t.text ++ "'>"

/-- The tag with a given name. -/
def ofName? (name : String) : Option Tag := all.find? fun t => t.name = name

end Tag
end JoinOrder
