import JoinOrder.Number

/-! # Cardinalities

The size of a relation or of an intermediate result: a known number of tuples, an unbounded one
(streams), or an unknown one. Arithmetic goes through double-precision numbers and rounds up,
since an estimate is an upper bound. -/

namespace JoinOrder

inductive Cardinality
  | known (n : Nat)
  | infinite
  | unknown
deriving DecidableEq, Inhabited

namespace Cardinality

def toBinary64 : Cardinality → Binary64
  | known n => .ofInt n
  | infinite => .infinity false
  | unknown => .nan

/-- A size computed as a number, which is not negative: fractional tuples are rounded up. -/
def ofBinary64 : Binary64 → Cardinality
  | .nan => unknown
  | .infinity _ => infinite
  | x => known x.ceil.toNat

def isKnown : Cardinality → Bool
  | known _ => true
  | _ => false

def add (a b : Cardinality) : Cardinality := ofBinary64 (a.toBinary64 + b.toBinary64)

/-- The product before it is rounded up. An empty relation stays empty, no matter how large its
partner is; nothing else annihilates an unknown size. -/
def times (c : Cardinality) (x : Binary64) : Binary64 :=
  if c = known 0 || (x.isZero && c != unknown) then 0 else c.toBinary64 * x

def mul (a b : Cardinality) : Cardinality := ofBinary64 (a.times b.toBinary64)

instance : Add Cardinality := ⟨add⟩
instance : Mul Cardinality := ⟨mul⟩

/-- Two unknown sizes are the same, other sizes are compared as numbers. -/
def same (a b : Cardinality) : Bool :=
  (a == unknown && b == unknown) || a.toBinary64.eq b.toBinary64

def text : Cardinality → String
  | known n => toString n
  | infinite => "inf"
  | unknown => "NaN"

def description : Cardinality → String
  | known n => s!"Cardinality({n})"
  | infinite => "Cardinality(inf)"
  | unknown => "Cardinality(unknown)"

end Cardinality
end JoinOrder
