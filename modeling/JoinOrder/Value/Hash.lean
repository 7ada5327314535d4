import JoinOrder.Value.Text

/-! # Hash codes

Values that are equal have equal hash codes, and so may some values that differ. The code of a
number is its value modulo a prime, and the codes of sequences and sets are mixed from those of
their items by fixed rules. Of the codes of texts, of null and of things without a form nothing is
known but that equal ones have the same code; so a code that such a code goes into is not computed
but kept as what it is mixed from. -/

namespace JoinOrder

inductive HashCode
  | number (code : UInt64)
  | null
  | text (s : String)
  | brokenText (points : List Nat)
  | undefined (label : Option Nat)
  | foreign (label : Nat)
  | sequence (items : List HashCode)
  /-- A set of some size. The codes of its members that are numbers have been mixed. -/
  | collection (size : Nat) (mixed : UInt64) (others : List HashCode)

namespace HashCode

mutual

/-- Whether two codes are known to be equal. -/
def eq : HashCode → HashCode → Bool
  | number a, number b => a = b
  | null, null => true
  | text a, text b => a = b
  | brokenText a, brokenText b => a = b
  | undefined a, undefined b => a = b
  | foreign a, foreign b => a = b
  | sequence xs, sequence ys => eqList xs ys
  | collection m a xs, collection n b ys =>
    m = n && a = b && xs.length = ys.length && within xs ys
  | _, _ => false
termination_by structural x => x

def eqList : List HashCode → List HashCode → Bool
  | [], [] => true
  | x :: xs, y :: ys => eq x y && eqList xs ys
  | _, _ => false
termination_by structural x => x

def within : List HashCode → List HashCode → Bool
  | [], _ => true
  | x :: xs, ys => ys.any (fun y => eq x y) && within xs ys
termination_by structural x => x

end

def number? : HashCode → Option UInt64
  | number code => some code
  | _ => none

/-! ## Numbers -/

/-- The prime that numbers are reduced by. -/
def modulus : Nat := 0x1FFFFFFFFFFFFFFF

/-- The code of `sign * magnitude`; minus one is no code. -/
def ofResidue (negative : Bool) (magnitude : Nat) : HashCode :=
  let n : Int := if negative then -(magnitude : Int) else magnitude
  number (.ofInt (if n = -1 then -2 else n))

/-- The code of a dyadic number. Halving is multiplying by `2 ^ 60`, the inverse of two. -/
def ofDyadic : Dyadic → HashCode
  | .zero => number 0
  | .ofOdd n k _ =>
    let shift := (-k % 61).toNat
    ofResidue (n < 0) ((n.natAbs % modulus) <<< shift % modulus)

/-- The code of a number that is not undefined. -/
def ofBinary64 (x : Binary64) : HashCode :=
  match x with
  | .infinity negative => ofResidue negative 314159
  | x => ofDyadic x.value

/-! ## Sequences -/

def rotate (x : UInt64) : UInt64 := (x <<< 31) ||| (x >>> 33)

/-- Mixes the code of an item into that of the items before it. -/
def mixItem (mixed item : UInt64) : UInt64 :=
  rotate (mixed + item * 14029467366897019727) * 11400714785074694791

/-- The code of a sequence of items whose codes are known. -/
def ofNumbers (items : List UInt64) : UInt64 :=
  let seed : UInt64 := 2870177450012600261
  let mixed := items.foldl mixItem seed + (items.length.toUInt64 ^^^ seed ^^^ 3527539)
  if mixed = -1 then 1546275796 else mixed

def ofItems (items : List HashCode) : HashCode :=
  match items.mapM number? with
  | some codes => number (ofNumbers codes)
  | none => sequence items

/-! ## Sets -/

/-- Spreads the code of a member before all of them are combined bit by bit. -/
def spread (x : UInt64) : UInt64 := (x ^^^ (89869747 : UInt64) ^^^ (x <<< 16)) * 3644798167

/-- The code of a set from its combined members. -/
def ofCombined (size : Nat) (combined : UInt64) : UInt64 :=
  let x : UInt64 := combined ^^^ (size.toUInt64 + 1) * 1927868237
  let x := x ^^^ (x >>> 11) ^^^ (x >>> 25)
  let x := x * 69069 + 907133923
  if x = -1 then 590923713 else x

/-- Adds a code to others; two equal codes cancel each other when they are combined. -/
def toggle (others : List HashCode) (x : HashCode) : List HashCode :=
  if others.any x.eq then others.filter fun y => !x.eq y else x :: others

def ofMembers (members : List HashCode) : HashCode :=
  let combined := (members.filterMap number?).foldl (fun x y => x ^^^ spread y) 0
  match (members.filter fun x => x.number?.isNone).foldl toggle [] with
  | [] => number (ofCombined members.length combined)
  | others => collection members.length combined others

def ofName (name : String) : HashCode := if name.isEmpty then number 0 else text name

end HashCode

namespace Number

def hashCode (x : Number) : HashCode := .ofBinary64 x.exact

end Number

namespace Cardinality

/-- An unknown size hashes as a text of its own. -/
def hashCode : Cardinality → HashCode
  | unknown => .ofName "nan-cardinality"
  | c => .ofBinary64 c.toBinary64

end Cardinality

namespace Value

/-- The code of an upper bound; where there is none, that of infinity. -/
def upperCode (upper : Option Nat) : HashCode :=
  match upper with
  | some n => (Number.int n).hashCode
  | none => .ofBinary64 (.infinity false)

mutual

/-- The code of a value that may be a key. -/
def hashCode : Value → HashCode
  | null => .null
  | bool b => (Number.int (if b then 1 else 0)).hashCode
  | int n => (Number.int n).hashCode
  | real .nan => .undefined none
  | real x => (Number.real x).hashCode
  | undefined label => .undefined (some label)
  | text s => .ofName s
  | brokenText points => .brokenText points
  | list xs | tuple xs => .ofItems (hashCodes xs)
  | set xs | sealedSet xs => .ofMembers (hashCodes xs)
  | map entries => .ofMembers (entryCodes entries)
  | path s => .ofItems ((pathParts s).map .ofName)
  | var v => .ofItems [.ofName v.text]
  | tag t => .ofName t.member
  | cardinality c => c.hashCode
  | constraint lower upper domain range =>
    .ofItems [(Number.int lower).hashCode, upperCode upper, .ofMembers (hashCodes domain),
      .ofMembers (hashCodes range)]
  | model m => .ofItems (m.fields.map fun (_, x) => x.hashCode)
  | costs a b c => .ofItems [hashCode a, hashCode b, hashCode c]
  | foreign label => .foreign label

def hashCodes : List Value → List HashCode
  | [] => []
  | x :: xs => hashCode x :: hashCodes xs

/-- Entries are hashed as pairs. -/
def entryCodes : List (Value × Value) → List HashCode
  | [] => []
  | (k, v) :: rest => .ofItems [hashCode k, hashCode v] :: entryCodes rest

end

end Value
end JoinOrder
