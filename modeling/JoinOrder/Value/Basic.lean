import JoinOrder.Cardinality
import JoinOrder.Cost.Basic
import JoinOrder.Variable

/-! # Values

Tuples hold values of any shape, and declarations are given as values before they are checked.
Sets and maps keep the order in which they were built. -/

namespace JoinOrder

inductive Value
  | null
  | bool (b : Bool)
  | int (n : Int)
  | real (x : Binary64)
  /-- An undefined number, one of several. The label tells which. -/
  | undefined (label : Nat)
  | text (s : String)
  /-- A text with code points that are no characters, but halves of pairs. -/
  | brokenText (points : List Nat)
  | list (xs : List Value)
  | tuple (xs : List Value)
  | set (xs : List Value)
  /-- A set that never changes, and so may be a key. -/
  | sealedSet (xs : List Value)
  | map (entries : List (Value × Value))
  | path (s : String)
  | var (v : Variable)
  | tag (t : Tag)
  | cardinality (c : Cardinality)
  /-- A degree constraint, whose attributes may be any keys. -/
  | constraint (lower : Nat) (upper : Option Nat) (domain range : List Value)
  | model (m : CostModel)
  | costs (iterate intermediate filter : Value)
  /-- Something without a form of its own. The label tells one from another. -/
  | foreign (label : Nat)

namespace Value

instance : Inhabited Value := ⟨null⟩

/-- Truth values count as zero and one. -/
def number? : Value → Option Number
  | bool b => some (.int (if b then 1 else 0))
  | int n => some (.int n)
  | real x => some (.real x)
  | undefined _ => some (.real .nan)
  | _ => none

/-- An integer, not a truth value. -/
def int? : Value → Option Int
  | int n => some n
  | _ => none

/-- An integer, also one that is a truth value. -/
def integer? (v : Value) : Option Int :=
  match v.number? with
  | some (.int n) => some n
  | _ => none

/-- The text that a value is. -/
def text? : Value → Option String
  | text s => some s
  | _ => none

/-- Whether a value counts as true: zero, null and what is empty do not. -/
def isTrue : Value → Bool
  | null => false
  | bool b => b
  | int n => n ≠ 0
  | real x => !x.isZero
  | text s => !s.isEmpty
  | brokenText points => !points.isEmpty
  | list xs | tuple xs | set xs | sealedSet xs => !xs.isEmpty
  | map entries => !entries.isEmpty
  | cardinality c => c.isKnown
  | _ => true

def ofNat (n : Nat) : Value := int n

def ofNumber : Number → Value
  | .int n => int n
  | .real x => real x

/-- A name as a value; of a key that is no text only the form is known. -/
def ofName (name : Name) : Value := text name.display

def names (xs : List Name) : Value := list (xs.map ofName)

def nameTuple (xs : List Name) : Value := tuple (xs.map ofName)

/-! ## Equality

Numbers are equal when their exact values are, whatever they are made of. An undefined number
equals nothing, but it is the same as itself: where items of collections are compared, sameness
is enough. -/

/-- Whether two values are one undefined number. Those without a label are all one. -/
def isOne : Value → Value → Bool
  | undefined a, undefined b => a = b
  | real .nan, real .nan => true
  | _, _ => false

mutual

def eq : Value → Value → Bool
  | null, null => true
  | bool a, w => eqNumber (.int (if a then 1 else 0)) w
  | int a, w => eqNumber (.int a) w
  | real a, w => eqNumber (.real a) w
  | text a, text b => a = b
  | brokenText a, brokenText b => a = b
  | list xs, list ys => eqList xs ys
  | tuple xs, tuple ys => eqList xs ys
  | set xs, set ys | set xs, sealedSet ys | sealedSet xs, set ys | sealedSet xs, sealedSet ys =>
    xs.length = ys.length && within xs ys
  | map xs, map ys => xs.length = ys.length && entriesWithin xs ys
  | path a, path b => a = b
  | var a, var b => a = b
  | tag a, tag b => a = b
  | cardinality a, cardinality b => a.same b
  | cardinality a, w =>
    match w.number? with
    | some x => a.toBinary64.eq x.exact
    | none => false
  | constraint m a xs ys, constraint n b zs ws =>
    m = n && a = b && xs.length = zs.length && within xs zs && ys.length = ws.length && within ys ws
  | model a, model b => a.same b
  | costs a b c, costs x y z =>
    (isOne a x || eq a x) && (isOne b y || eq b y) && (isOne c z || eq c z)
  | foreign a, foreign b => a = b
  | _, _ => false
termination_by structural x => x
where
  /-- A number equals a number or a cardinality of the same value. -/
  eqNumber (a : Number) : Value → Bool
    | bool b => a.eq (.int (if b then 1 else 0))
    | int b => a.eq (.int b)
    | real b => a.eq (.real b)
    | cardinality c => a.exact.eq c.toBinary64
    | _ => false

/-- The same items in the same order. -/
def eqList : List Value → List Value → Bool
  | [], [] => true
  | x :: xs, y :: ys => (isOne x y || eq x y) && eqList xs ys
  | _, _ => false
termination_by structural x => x

/-- Every value on the left is the same as one on the right. -/
def within : List Value → List Value → Bool
  | [], _ => true
  | x :: xs, ys => ys.any (fun y => isOne x y || eq x y) && within xs ys
termination_by structural x => x

/-- Every entry on the left has an equal one on the right. -/
def entriesWithin : List (Value × Value) → List (Value × Value) → Bool
  | [], _ => true
  | (k, v) :: xs, ys =>
    ys.any (fun e => (isOne k e.1 || eq k e.1) && (isOne v e.2 || eq v e.2)) &&
      entriesWithin xs ys
termination_by structural x => x

end

/-- Whether two values are equal or one undefined number. -/
def same (v w : Value) : Bool := isOne v w || eq v w

/-! ## Keys -/

mutual

/-- Whether a value may be a key: lists, sets and maps may not, nor what holds them. -/
def isKey : Value → Bool
  | list _ | set _ | map _ => false
  | tuple xs | sealedSet xs => areKeys xs
  | costs a b c => isKey a && isKey b && isKey c
  | _ => true

def areKeys : List Value → Bool
  | [] => true
  | x :: xs => isKey x && areKeys xs

end

end Value
end JoinOrder
