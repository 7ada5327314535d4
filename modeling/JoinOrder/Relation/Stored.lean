import JoinOrder.Cardinality.Checked
import JoinOrder.Constraint.Declaration
import JoinOrder.Source.Scan

/-! # Stored relations

A relation over sources. The primary source stores all attributes. An auxiliary source either
provides all attributes as well, or it provides the position column of the primary source, from
which the missing attributes are then fetched. A lookup uses the source whose index fits best. -/

namespace JoinOrder

/-- The size that a lookup announces, whether its tuples come to an end, and the tuples. -/
structure LookupResult where
  cardinality : Cardinality
  finite : Bool
  rows : Unit → Rows (List Value)

/-- Attributes that a relation does not have. -/
def requireAttributes (attributes : List Name) (label : Label) (binding : NamedValues) :
    Checked Unit :=
  let foreign := binding.names.filter (· ∉ attributes)
  if foreign = [] then .ok () else .error (.usage (.foreignAttributes (foreign.map .ofName) label))

structure StoredRelation where
  /-- Only shown, never interpreted, as are the types. -/
  name : Value
  attributes : List Name
  types : List Value
  primary : Source
  auxiliaries : List Source
  constraints : List DegreeConstraint

namespace StoredRelation

def sources (r : StoredRelation) : List Source := r.primary :: r.auxiliaries

def label (r : StoredRelation) : Label := .ofNames r.name "(" r.attributes ")"

/-- Whether a source can serve as an auxiliary one. -/
def isUsable (attributes : List Name) (primary auxiliary : Source) : Bool :=
  NameSet.covers auxiliary.columns attributes || primary.position.any (· ∈ auxiliary.columns)

/-- The first value that is the same as an earlier one. All values before it have to be keys. -/
def firstRepeatedKey : (seen : List Value) → List Value → Checked (Option Value)
  | _, [] => .ok none
  | seen, x :: rest => do
    x.requireMember
    if seen.any (Value.same · x) then return some x
    x.requireKey
    firstRepeatedKey (x :: seen) rest

/-- A constraint of the relation, all of whose attributes are attributes of the relation. -/
def parseConstraint (attributes : List Name) (c : ConstraintDraft) :
    Checked DegreeConstraint := do
  let foreign := c.foreign attributes
  if !foreign.isEmpty then
    throw (.schema (.foreignConstraint (← Sorting.sort Value.lt foreign)))
  return c.resolve

/-- Checks a declaration. The primary source is the first one, and it must have all attributes. -/
def declare? (name : Value) (attributes types : List Value) (sources : List Source)
    (constraints : List ConstraintDraft) : Checked StoredRelation := do
  if attributes.length ≠ types.length then
    throw (.schema (.typeCount attributes.length types.length))
  match ← firstRepeatedKey [] attributes with
  | some repeated => throw (.schema (.duplicateName repeated))
  | none => pure ()
  match sources with
  | [] => throw (.schema (.noSource name))
  | primary :: auxiliaries =>
    let missing := attributes.filter fun x => x.toName ∉ primary.columns
    if !missing.isEmpty then throw (.schema (.incompletePrimary missing))
    let attributes := attributes.map Value.toName
    match auxiliaries.find? (!isUsable attributes primary ·) with
    | some auxiliary => throw (.schema (.unusableAuxiliary auxiliary.schema))
    | none => pure ()
    let constraints ← constraints.mapM (parseConstraint attributes)
    return { name, attributes, types, primary, auxiliaries, constraints }

/-- What a source offers for the bound attributes of the relation. -/
def sourceMatch (bound : List Name) (source : Source) : Option IndexMatch :=
  let shared := bound.filter (· ∈ source.columns)
  (source.bestMatch shared).map fun m => ⟨m.key, m.exact && NameSet.agree shared bound⟩

/-- The first source with an exact match, or else the first of those with the longest key. -/
def selectAmong (bound : List Name) (best : Source × Option IndexMatch) :
    List Source → Source × Option IndexMatch
  | [] => best
  | source :: rest =>
    match sourceMatch bound source with
    | none => selectAmong bound best rest
    | some m =>
      if m.exact then (source, some m)
      else if best.2.all (·.key.length < m.key.length) then
        selectAmong bound (source, some m) rest
      else selectAmong bound best rest

/-- The source that a lookup of these attributes uses; without any index it is the primary one. -/
def selectSource (r : StoredRelation) (bound : List Name) : Source × Option IndexMatch :=
  selectAmong bound (r.primary, none) r.sources

def indexMatch (r : StoredRelation) (bound : List Name) : Option IndexMatch :=
  (r.selectSource bound).2

/-- How many tuples at most agree on the bound attributes, if they are an index key on which
statistics are kept. -/
def keyFrequency (r : StoredRelation) (bound : List Name) : Checked (Option Cardinality) := do
  match r.selectSource bound with
  | (source, some { key, exact := true }) =>
    match ← source.maxFrequency key with
    | some v => return some (← Cardinality.ofValue v)
    | none => return none
  | _ => return none

/-- Whether the attributes have the given values, tested one after the other. -/
def agrees (values : NamedValues) : NamedValues → Checked Bool
  | [] => .ok true
  | (name, v) :: rest => do
    if Value.eq (← values.get name) v then agrees values rest else return false

/-- The values of a scanned tuple, completed from the primary source if the source does not
provide all attributes. A position that the primary source does not have completes nothing. -/
def complete (r : StoredRelation) (source : Source) (row : List Value) :
    Checked (Option NamedValues) := do
  let values := source.columns.zip row
  if NameSet.covers source.columns r.attributes then return some values
  let position := r.primary.position.getD (.text "")
  let ordinal ← NamedValues.get values position
  match ← (r.primary.scan [(position, ordinal)]).first? with
  | none => return none
  | some stored =>
    let fetched := r.primary.columns.zip stored
    return some (values.foldl (fun all (name, v) => NamedValues.set all name v) fetched)

/-- The tuples of a source as tuples of the relation, with all bound attributes applied. -/
def produce (r : StoredRelation) (source : Source) (binding : NamedValues) : Rows (List Value) :=
  (source.scan (binding.restrict source.columns)).filterMap fun row => do
    match ← r.complete source row with
    | none => return none
    | some values =>
      if ← agrees values binding then
        return some (← r.attributes.mapM fun name => NamedValues.get values name)
      else return none

def lookup (r : StoredRelation) (binding : NamedValues) : Checked LookupResult := do
  requireAttributes r.attributes r.label binding
  let (source, _) := r.selectSource binding.names
  let cardinality ←
    Cardinality.ofValue (← source.estimate (binding.restrict source.columns))
  return { cardinality, finite := source.isFinite, rows := fun _ => r.produce source binding }

end StoredRelation
end JoinOrder
