import JoinOrder.Value.Shown

/-! # Declaring degree constraints

A constraint is declared by two bounds and two collections of attributes, which may be any keys.
`ConstraintDraft` keeps them as they are given; the constraint of a relation has their names. -/

namespace JoinOrder

/-- A constraint whose attributes may be any keys. -/
structure ConstraintDraft where
  lower : Nat
  upper : Option Nat
  domain : List Value
  range : List Value

/-- Attributes given by one name or by a collection, each once. -/
def attributeKeys (given : Value) : Checked (List Value) :=
  match given with
  | .text s => .ok [.text s]
  | given => given.keyElements.map Value.distinct

namespace ConstraintDraft

/-- Reads a bound: a number of tuples, or infinity, which is no value. A bound that is no whole
number is reported as given, a negative one as the integer it is. -/
def parseBound (fault : Value → SchemaFault) (given : Value) : Checked (Option Nat) :=
  match given with
  | .int n => if n < 0 then .error (.schema (fault given)) else .ok (some n.toNat)
  | .real (.infinity false) => .ok none
  | .real (.infinity true) => .error (.schema (fault given))
  | .real x =>
    match x.toInt? with
    | some n => if n < 0 then .error (.schema (fault (.int n))) else .ok (some n.toNat)
    | none => .error (.schema (fault given))
  | _ => .error (.schema (fault given))

/-- The values that two collections have in common, as they stand in the smaller one. -/
def overlap (xs ys : List Value) : List Value :=
  if xs.length < ys.length then xs.filter fun x => ys.any (Value.same · x)
  else ys.filter fun y => xs.any (Value.same · y)

/-- A constraint with the given bounds; an upper bound of null is unbounded. -/
def declare? (lower upper domain range : Value) : Checked ConstraintDraft := do
  let least ← match ← parseBound .lowerBound lower with
    | some n => pure n
    | none => throw (.schema (.infiniteLowerBound lower))
  if (Binary64.ofInt? least).isNone then throw .tooLarge
  let greatest ← match upper with
    | .null => pure none
    | given => parseBound .upperBound given
  if greatest.any (· < least) then throw (.schema (.boundsCrossed lower upper))
  let domain ← attributeKeys domain
  let range ← attributeKeys range
  let shared := overlap domain range
  if !shared.isEmpty then throw (.schema (.domainMeetsRange (← Sorting.sort Value.lt shared)))
  return { lower := least, upper := greatest, domain, range }

/-- The domain attributes determine the range attributes. -/
def functionalDependency? (domain range : Value) : Checked ConstraintDraft :=
  declare? (.int 1) (.int 1) domain range

/-- The key attributes determine all others. -/
def uniqueness? (key attributes : Value) : Checked ConstraintDraft := do
  let key ← attributeKeys key
  let attributes ← attributes.elements
  attributes.forM Value.requireMember
  let others := attributes.filter fun x => !key.any (Value.same · x)
  functionalDependency? (.sealedSet key) (.list others)

/-- The attributes of the constraint that are none of the given ones. -/
def foreign (c : ConstraintDraft) (attributes : List Name) : List Value :=
  (Value.distinct (c.domain ++ c.range)).filter fun x => x.toName ∉ attributes

/-- Fails if the attributes have no order, or if the upper bound cannot be asked for. -/
def requireOrdered (c : ConstraintDraft) : Checked Unit := do
  for attributes in [c.domain, c.range, Value.distinct (c.domain ++ c.range)] do
    let _ ← Sorting.sort Value.lt attributes
  let _ ← hasUpper c.upper

/-- The constraint over the names of the attributes. -/
def resolve (c : ConstraintDraft) : DegreeConstraint where
  lower := c.lower
  upper := c.upper
  domain := .ofList (c.domain.map Value.toName)
  range := .ofList (c.range.map Value.toName)

def toValue (c : ConstraintDraft) : Value := .constraint c.lower c.upper c.domain c.range

end ConstraintDraft

namespace DegreeConstraint

/-- A constraint over names. -/
def declare? (lower upper : Value) (domain range : List String) : Checked DegreeConstraint := do
  let texts (names : List String) : Value := .list (names.map .text)
  return (← ConstraintDraft.declare? lower upper (texts domain) (texts range)).resolve

/-- Whether there is an upper bound. -/
def hasBound (c : DegreeConstraint) : Checked Bool := hasUpper c.upper

/-- The text of the constraint. It depends on whether there is a bound, and all attributes have to
be texts. -/
def text? (c : DegreeConstraint) : Checked String := do
  let _ ← c.hasBound
  let _ ← (c.domain ++ c.range).mapM Name.requireText
  return c.text

/-- Whether the constraint applies to a target, where both it and what is bound are values. -/
def appliesToValue (c : DegreeConstraint) (bound target : Value) : Checked Bool := do
  let names ← bound.keyNames
  if !NameSet.covers names c.domain then return false
  target.requireMember
  return c.appliesTo names target.toName

end DegreeConstraint
end JoinOrder
