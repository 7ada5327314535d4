import JoinOrder.Value.Order

/-! # Cardinalities from given values

Sizes reach the library as values: answers of a storage handle, operands, bounds. A size must be
a number that is not negative and not too large. -/

namespace JoinOrder
namespace Cardinality

/-- A number as a size. -/
def ofNumber (x : Number) : Checked Cardinality :=
  if x.lt (.int 0) then .error (.usage (.negativeCardinality x))
  else
    match x with
    | .int n => if (Binary64.ofInt? n).isSome then .ok (known n.toNat) else .error .tooLarge
    | .real y => .ok (ofBinary64 y)

/-- A value as a new size; the size of a cardinality is taken as a number. -/
def ofValue (v : Value) : Checked Cardinality :=
  match v with
  | .cardinality c => .ok (ofBinary64 c.toBinary64)
  | v =>
    match v.number? with
    | some x => ofNumber x
    | none => Value.incomparable

/-- A value as a size, where a cardinality stays what it is. -/
def of (v : Value) : Checked Cardinality :=
  match v with
  | .cardinality c => .ok c
  | v => ofValue v

/-- The other operand of an operation on sizes, as a number. -/
def operand (v : Value) : Checked Binary64 :=
  match v with
  | .cardinality c => .ok c.toBinary64
  | v =>
    match v.number? with
    | some x => x.rounded
    | none => .error (.mismatch .notANumber)

def plus (c : Cardinality) (v : Value) : Checked Cardinality := do
  ofNumber (.real (c.toBinary64 + (← operand v)))

/-- A value plus a size: the rule of the left operand applies if that is a size itself, and the
rule of the right one otherwise. -/
def adding (v : Value) (c : Cardinality) : Checked Cardinality :=
  match v with
  | .cardinality d => d.plus (.cardinality c)
  | v => c.plus v

def scaled (c : Cardinality) (v : Value) : Checked Cardinality := do
  ofNumber (.real (c.times (← operand v)))

/-- A value times a size: the rule of the left factor applies if that is a size itself, and the
rule of the right one otherwise. -/
def scaling (v : Value) (c : Cardinality) : Checked Cardinality :=
  match v with
  | .cardinality d => d.scaled (.cardinality c)
  | v => c.scaled v

def ltValue (c : Cardinality) (v : Value) : Checked Bool := do
  return c.toBinary64.lt (← operand v)

def leValue (c : Cardinality) (v : Value) : Checked Bool := do
  return c.toBinary64.le (← operand v)

def gtValue (c : Cardinality) (v : Value) : Checked Bool := do
  return (← operand v).lt c.toBinary64

def geValue (c : Cardinality) (v : Value) : Checked Bool := do
  return (← operand v).le c.toBinary64

/-- The number of tuples, which only a known size has. -/
def value (c : Cardinality) : Checked Nat :=
  match c with
  | known n => .ok n
  | _ => .error .noKnownSize

end Cardinality
end JoinOrder
