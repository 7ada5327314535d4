import JoinOrder.Value.Hash
import JoinOrder.Value.Shown

/-! # Dictionaries

Read-only maps from keys to values in the order of insertion. An equal key replaces the value and
keeps the place and the key that came first. -/

namespace JoinOrder

structure Dictionary where
  entries : List (Value × Value)

namespace Dictionary

/-- Puts something under a key. -/
def put {α : Type} : List (Value × α) → Value → α → List (Value × α)
  | [], k, v => [(k, v)]
  | (l, w) :: rest, k, v => if Value.same l k then (l, v) :: rest else (l, w) :: put rest k v

def ofPairs (pairs : List (Value × Value)) : Checked Dictionary := do
  pairs.forM fun (k, _) => k.requireKey
  return { entries := pairs.foldl (fun all (k, v) => put all k v) [] }

def size (d : Dictionary) : Nat := d.entries.length

def keys (d : Dictionary) : List Value := d.entries.map Prod.fst

/-- The value under a key. -/
def get (d : Dictionary) (k : Value) : Checked Value := do
  k.requireKey
  match d.entries.find? fun e => Value.same e.1 k with
  | some e => return e.2
  | none =>
    match k with
    | .text s => throw (.missingKey (some s))
    | _ => throw (.missingKey none)

def toValue (d : Dictionary) : Value := .map d.entries

/-- The same keys with equal values. -/
def same (d : Dictionary) (v : Value) : Bool := Value.eq d.toValue v

/-- The hash code of the entries, all of whose values have to be usable as keys. -/
def hashCode (d : Dictionary) : Checked HashCode := do
  d.entries.forM fun (_, v) => v.requireKey
  return d.toValue.hashCode

/-- Entries are never assigned. -/
def assign (_ : Dictionary) (_ _ : Value) : Checked Dictionary := .error .unsupported

/-- Keys and values without quotes. -/
def text (d : Dictionary) : String :=
  Value.curly (d.entries.map fun (k, v) => k.display ++ ": " ++ v.display)

/-- Fails for a dictionary that cannot be written without quotes. -/
def requireShown (d : Dictionary) : Checked Unit := do
  d.entries.forM fun (k, v) => do
    k.requireDisplayed
    v.requireDisplayed

def description (d : Dictionary) : String := "frozendict(" ++ d.toValue.description ++ ")"

end Dictionary
end JoinOrder
