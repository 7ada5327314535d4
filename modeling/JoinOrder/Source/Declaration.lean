import JoinOrder.Sorting
import JoinOrder.Value.Order

/-! # Declaring sources

`Schema.declare?` checks what is given about a source, in the order kind, attribute names,
position name, duplicates, sort key. The first thing that is wrong is reported. -/

namespace JoinOrder

/-- Whether each number is smaller than the next one. -/
def strictlyIncreasing : List Nat → Bool
  | m :: n :: rest => m < n && strictlyIncreasing (n :: rest)
  | _ => true

/-- Reads an order of some names from a sequence. Its items are sorted to find out whether they are
these names, so they must have an order. -/
def parsePermutation (fault : List Value → SchemaFault) (names : List Name) (given : Value) :
    Checked (List Name) := do
  let xs ← given.elements
  let _ ← Sorting.sort Value.lt xs
  let order := xs.map Value.toName
  if order.isPerm names then return order else throw (.schema (fault xs))

namespace Schema

/-- A kind is given by its tag, or by its text in any case. -/
def parseKind (given : Value) : Checked SourceKind :=
  match given with
  | .tag (.source kind) => .ok kind
  | .text s =>
    if s.toLower = "table" then .ok .table
    else if s.toLower = "stream" then .ok .stream
    else .error (.schema (.unknownKind given))
  | _ => .error (.schema (.unknownKind given))

def isNameStart (c : Char) : Bool := c.isAlpha || c = '_'

def isNameRest (c : Char) : Bool := c.isAlphanum || c ∈ ['_', '-', '?', '*']

/-- Names are identifiers of letters, digits, underscores, dashes, question marks and stars that
begin with a letter or an underscore. One line end may follow. -/
def isName (s : String) : Bool :=
  match s.toList with
  | [] => false
  | c :: rest =>
    let rest := if rest.getLast? = some '\n' then rest.dropLast else rest
    isNameStart c && rest.all isNameRest

def parseName (given : Value) : Checked Name :=
  match given with
  | .text s => if isName s then .ok (.text s) else .error (.schema (.invalidName given))
  | _ => .error (.schema (.invalidName given))

/-- An offset of one of `count` attributes. -/
def parseOffset (count : Nat) (given : Value) : Checked Nat :=
  match given with
  | .int n =>
    if 0 ≤ n ∧ n < count then .ok n.toNat else .error (.schema (.sortedOffsetOutOfRange given))
  | _ => .error (.schema (.sortedOffsetOutOfRange given))

/-- The sort key of `count` attributes is given by its length or by its offsets. -/
def parseSorted (count : Nat) (given : Value) : Checked (List Nat) :=
  match given with
  | .bool _ => .error (.schema (.sortedPrefixShape given))
  | .int n =>
    if 0 ≤ n ∧ n ≤ count then .ok (List.range n.toNat)
    else .error (.schema (.sortedLengthOutOfRange n))
  | _ => do
    let offsets ← (← given.elements).mapM (parseOffset count)
    if strictlyIncreasing offsets then return offsets
    else throw (.schema (.sortedOffsetsNotIncreasing offsets))

/-- Checks a declaration. A position of null means that there is none. -/
def declare? (kind attributes position sorted : Value) : Checked Schema := do
  let kind ← parseKind kind
  let attributes ← (← attributes.elements).mapM parseName
  let position ← match position with
    | .null => pure none
    | given => (parseName given).map some
  match firstRepeat [] (attributes ++ position.toList) with
  | some name => throw (.schema (.duplicateName (.ofName name)))
  | none => pure ()
  let sortOffsets ← parseSorted attributes.length sorted
  if kind = .stream ∧ sortOffsets ≠ [] then throw (.schema (.sortedStream sorted))
  return { kind, attributes, position, sortOffsets }

end Schema
end JoinOrder
