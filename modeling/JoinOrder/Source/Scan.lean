import JoinOrder.Dictionary
import JoinOrder.Source.Match

/-! # Lookups in a source

A binding of columns is turned into what the storage handle understands: the values of a sort key
prefix and possibly a position. The handle narrows the tuples down, and all bound columns are
then checked for each of them. -/

namespace JoinOrder

/-- Values for some names, each of which occurs once. -/
abbrev NamedValues := List (Name × Value)

namespace NamedValues

def names (b : NamedValues) : List Name := b.map Prod.fst

def restrict (b : NamedValues) (names : List Name) : NamedValues := b.filter (·.1 ∈ names)

/-- The value under a name, which has to be there. -/
def get (b : NamedValues) (name : Name) : Checked Value :=
  match b.lookup name with
  | some v => .ok v
  | none => .error (.missingKey name.text?)

/-- Binds a name; a name that is bound already keeps its place. -/
def set (b : NamedValues) (name : Name) (v : Value) : NamedValues :=
  match b with
  | [] => [(name, v)]
  | (n, w) :: rest => if n = name then (n, v) :: rest else (n, w) :: set rest name v

/-- Binds a sequence of names and values one after the other. Names that are not known are a
fault. -/
def ofEntries? (known : List Name) (fault : List Value → UsageFault)
    (entries : List (Value × Value)) : Checked NamedValues :=
  let foreign := (entries.map Prod.fst).filter fun k => k.toName ∉ known
  if foreign.isEmpty then .ok (entries.map fun (k, v) => (k.toName, v))
  else .error (.usage (fault foreign))

end NamedValues

namespace Source

/-- The position to ask a handle for; null asks for none. -/
def askedPosition (v : Value) : Option Value :=
  match v with
  | .null => none
  | v => some v

/-- The key values and the position that a binding asks the handle for. -/
def searchTerms (s : Source) (binding : NamedValues) : Checked (List Value × Option Value) := do
  let foreign := binding.names.filter (· ∉ s.columns)
  if foreign ≠ [] then throw (.usage (.foreignColumns (foreign.map .ofName) s.schema))
  match s.bestMatch binding.names with
  | none => return ([], none)
  | some { key, .. } =>
    match s.position with
    | some position =>
      if key.getLast? = some position then
        return (← key.dropLast.mapM binding.get, askedPosition (← binding.get position))
      else return (← key.mapM binding.get, none)
    | none => return (← key.mapM binding.get, none)

/-- Values for the columns, given under keys of any kind. -/
def columnValues (s : Source) (d : Dictionary) : Checked NamedValues :=
  NamedValues.ofEntries? s.columns (.foreignColumns · s.schema) d.entries

def requireHandle (s : Source) : Checked Handle :=
  match s.handle with
  | some h => .ok h
  | none => .error .unsupported

/-- How many tuples the handle expects for a binding. -/
def estimate (s : Source) (binding : NamedValues) : Checked Value := do
  let (lead, position) ← s.searchTerms binding
  (← s.requireHandle).estimate lead position

/-- How many tuples at most agree on an index key. A key that ends with the position identifies a
tuple, plain prefixes of the sort key are answered from statistics if there are any. -/
def maxFrequency (s : Source) (key : List Name) : Checked (Option Value) :=
  if s.position.isSome && key.getLast? = s.position then .ok (some (.int 1))
  else if key ≠ s.sortKey.take key.length then .ok none
  else
    match s.handle.bind Handle.frequency with
    | none => .ok none
    | some frequency => do
      match ← frequency (.ofNat key.length) with
      | .null => return none
      | v => return some v

/-- The same for a key that is given as a value. -/
def maxFrequencyOf (s : Source) (given : Value) : Checked (Option Value) := do
  s.maxFrequency ((← given.elements).map Value.toName)

/-- The values of a stored tuple in the order of the attributes. -/
def arrange (s : Source) (row : List Value) : Checked (List Value) :=
  if s.stored = s.attributes then .ok row
  else s.attributes.mapM fun name => atPosition row (s.stored.idxOf name)

/-- Whether a tuple has the given values at the given places, tested one after the other. -/
def agrees (row : List Value) : List (Nat × Value) → Checked Bool
  | [] => .ok true
  | (i, v) :: rest => do if Value.eq (← atPosition row i) v then agrees row rest else return false

/-- The bound columns with their places. -/
def checks (s : Source) (binding : NamedValues) : List (Nat × Value) :=
  s.columns.zipIdx.filterMap fun (name, i) => (binding.lookup name).map (i, ·)

/-- All tuples with the given values, in the order of the columns. -/
def scan (s : Source) (binding : NamedValues) : Rows (List Value) :=
  .ofChecked do
    let (lead, position) ← s.searchTerms binding
    let handle ← s.requireHandle
    let checks := s.checks binding
    return (handle.scan lead position).filterMap fun (i, row) => do
      let row ← s.arrange row
      let row := if s.position.isSome then row ++ [Value.ofNat i] else row
      return if ← agrees row checks then some row else none

end Source
end JoinOrder
