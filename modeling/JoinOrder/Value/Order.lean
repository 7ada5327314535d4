import JoinOrder.Binary64.Reading
import JoinOrder.Fault
import JoinOrder.Text.Digit
import JoinOrder.Value.Name

/-! # Order and conversion of values

Numbers are ordered among themselves, texts by code points, sequences by their first unequal
items. Values of different shapes have no order, and asking for one is a fault. -/

namespace JoinOrder

/-- The nearest double-precision number. -/
def Number.rounded (x : Number) : Checked Binary64 :=
  match x.toBinary64? with
  | some y => .ok y
  | none => .error .tooLarge

namespace Value

def incomparable {α : Type} : Checked α := .error (.mismatch .incomparable)

/-- The order of numbers, strict or not. -/
def precedesReal (orEqual : Bool) (x y : Binary64) : Bool := if orEqual then x.le y else x.lt y

/-- The order of numbers and cardinalities. A cardinality compares as a double-precision number, so
the other side is rounded first. -/
def precedesScalar (orEqual : Bool) (v w : Value) : Checked Bool :=
  match v, w with
  | cardinality c, cardinality d => .ok (precedesReal orEqual c.toBinary64 d.toBinary64)
  | cardinality c, w =>
    match w.number? with
    | some x => x.rounded.map (precedesReal orEqual c.toBinary64)
    | none => incomparable
  | v, cardinality d =>
    match v.number? with
    | some x => x.rounded.map (precedesReal orEqual · d.toBinary64)
    | none => incomparable
  | v, w =>
    match v.number?, w.number? with
    | some x, some y => .ok (precedesReal orEqual x.exact y.exact)
    | _, _ => incomparable

/-- The order of code points, texts and their parts. -/
def precedesText {α : Type} [LT α] [DecidableLT α] (orEqual : Bool) (a b : α) : Bool :=
  if orEqual then !decide (b < a) else decide (a < b)

/-- The code points of a text. -/
def points (s : String) : List Nat := s.toList.map Char.toNat

/-- Names of variables: texts are ordered, and integers are. -/
def precedesName (orEqual : Bool) (a b : Name) : Checked Bool :=
  if a = b then .ok orEqual
  else
    match a, b with
    | .text a, .text b => .ok (precedesText orEqual a b)
    | .key a, .key b =>
      match a.toInt?, b.toInt? with
      | some m, some n => .ok (m < n)
      | _, _ => incomparable
    | _, _ => incomparable

mutual

/-- Whether a value comes before another one, or also, with `orEqual`, in the same place. -/
def precedes (orEqual : Bool) : Value → Value → Checked Bool
  | text a, text b => .ok (precedesText orEqual a b)
  | text a, brokenText b => .ok (precedesText orEqual (points a) b)
  | brokenText a, text b => .ok (precedesText orEqual a (points b))
  | brokenText a, brokenText b => .ok (precedesText orEqual a b)
  | list xs, list ys => precedesList orEqual xs ys
  | tuple xs, tuple ys => precedesList orEqual xs ys
  | set xs, set ys | set xs, sealedSet ys | sealedSet xs, set ys | sealedSet xs, sealedSet ys =>
    .ok ((if orEqual then xs.length ≤ ys.length else xs.length < ys.length) && within xs ys)
  | var a, var b => precedesName orEqual a.name b.name
  | path a, path b => .ok (precedesText orEqual (pathParts a) (pathParts b))
  | v, w => precedesScalar orEqual v w

/-- The first items that are not the same decide, then the lengths. Items that are the same need
not have an order. -/
def precedesList (orEqual : Bool) : List Value → List Value → Checked Bool
  | [], ys => .ok (orEqual || !ys.isEmpty)
  | _ :: _, [] => .ok false
  | x :: xs, y :: ys => if same x y then precedesList orEqual xs ys else precedes orEqual x y

end

def lt (v w : Value) : Checked Bool := precedes false v w

def le (v w : Value) : Checked Bool := precedes true v w

def ltList (xs ys : List Value) : Checked Bool := precedesList false xs ys

/-- The text of some code points. -/
def ofPoints (points : List Nat) : Value :=
  if points.all fun n => n.isValidChar then text (String.ofList (points.map Char.ofNat))
  else brokenText points

/-- The items of a sequence; a text is the sequence of its characters. -/
def elements : Value → Checked (List Value)
  | list xs | tuple xs | set xs | sealedSet xs => .ok xs
  | map entries => .ok (entries.map Prod.fst)
  | text s => .ok (s.toList.map fun c => text c.toString)
  | brokenText points => .ok (points.map fun n => ofPoints [n])
  | _ => .error (.mismatch .notASequence)

/-- The items of a sequence of two. -/
def pair (v : Value) : Checked (Value × Value) := do
  match ← v.elements with
  | [x, y] => return (x, y)
  | items => throw (.usage (.itemCount 2 items.length))

/-- The items of a sequence of three. -/
def triple (v : Value) : Checked (Value × Value × Value) := do
  match ← v.elements with
  | [x, y, z] => return (x, y, z)
  | items => throw (.usage (.itemCount 3 items.length))

/-- A double-precision number, possibly read from a text. -/
def toBinary64 : Value → Checked Binary64
  | text s =>
    match Binary64.read? s with
    | some x => .ok x
    | none => .error (.usage (.notANumber (text s)))
  | brokenText points => .error (.usage (.notANumber (brokenText points)))
  | cardinality c => .ok c.toBinary64
  | v =>
    match v.number? with
    | some x => x.rounded
    | none => .error (.mismatch .notANumber)

/-- Reads an integer from a text. -/
def parseInteger (s : String) : Checked Int :=
  match Text.readInteger s with
  | some n => .ok n
  | none => .error (.usage (.notAnInteger 10 s))

/-- An integer, possibly read from a text. -/
def toInteger (v : Value) : Checked Int :=
  match v, v.integer? with
  | text s, _ => parseInteger s
  | _, some n => .ok n
  | _, none => .error (.mismatch .notANumber)

/-- Fails for what cannot be a key. -/
def requireKey (v : Value) : Checked Unit :=
  if v.isKey then .ok () else .error (.mismatch .notAKey)

/-- Fails for what cannot be looked up in a set. A set can, as it is compared with the sets that are
members. -/
def requireMember : Value → Checked Unit
  | set _ => .ok ()
  | v => v.requireKey

/-- The values without those that are the same as an earlier one. -/
def distinct (xs : List Value) : List Value :=
  (xs.foldl (fun found x => if found.any (same · x) then found else x :: found) []).reverse

/-- The text that a value is; other values are a fault. -/
def requireText : Value → Checked String
  | text s => .ok s
  | _ => .error (.mismatch .notAText)

/-- The items of a collection, all of which may be keys. -/
def keyElements (v : Value) : Checked (List Value) := do
  let xs ← v.elements
  xs.forM requireKey
  return xs

/-- The variable that a key is or names. -/
def keyVariable (v : Value) : Checked Variable := do
  v.requireKey
  return v.asVariable

/-- The names in a collection of keys. -/
def keyNames (v : Value) : Checked (List Name) := do return (← v.keyElements).map toName

end Value

/-- The text that a name is; other keys are a fault. -/
def Name.requireText : Name → Checked String
  | .text s => .ok s
  | .key _ => .error (.mismatch .notAText)

end JoinOrder
