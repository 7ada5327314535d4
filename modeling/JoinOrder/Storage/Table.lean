import JoinOrder.Offset
import JoinOrder.Storage.Handle
import JoinOrder.Value.Shown

/-! # Sorted tables

A table in memory, sorted by its key and then by the whole row. The rows that begin with given
key values form a range, whose ends are found by bisection. -/

namespace JoinOrder

structure SortedTable where
  /-- Offsets of the key attributes, negative ones count from the end. -/
  sortKey : List Value
  rows : Array (List Value)
  /-- The key values of the rows, in the same order. -/
  keys : Array (List Value)

namespace SortedTable

/-- The item of a row at an offset, which has to be an integer. -/
def itemAt (row : List Value) (offset : Value) : Checked Value :=
  match offset.integer? with
  | some n => atOffset row n
  | none => .error (.mismatch .notAnOffset)

def keyOf (sortKey : List Value) (row : List Value) : Checked (List Value) :=
  sortKey.mapM (itemAt row)

/-- Keys are compared first, then whole rows. -/
def keyedLt (a b : List Value × List Value) : Checked Bool :=
  Value.ltList [.tuple a.1, .tuple a.2] [.tuple b.1, .tuple b.2]

def build (rows : List (List Value)) (sortKey : List Value) : Checked SortedTable := do
  let keyed ← rows.mapM fun row => do return (← keyOf sortKey row, row)
  let sorted ← Sorting.sort keyedLt keyed
  return { sortKey, rows := (sorted.map Prod.snd).toArray, keys := (sorted.map Prod.fst).toArray }

/-- The first values of the key of a row. -/
def keyLead (t : SortedTable) (length i : Nat) : List Value := (t.keys.getD i []).take length

/-- The range of positions whose keys begin with the given values. -/
def range (t : SortedTable) (lead : List Value) : Checked (Nat × Nat) :=
  if lead.isEmpty then .ok (0, t.rows.size)
  else if t.sortKey.length < lead.length then .error (.usage (.keyTooLong lead t.sortKey))
  else do
    let lower ← bisect (fun i => Value.ltList (t.keyLead lead.length i) lead) 0 t.rows.size
    let upper ← bisect (fun i => (Value.ltList lead (t.keyLead lead.length i)).map (!·))
      lower t.rows.size
    return (lower, upper)

/-- The position that a value denotes within a range; only integers denote one. -/
def positionIn (position : Value) (range : Nat × Nat) : Option Nat :=
  match position.int? with
  | some n => if (range.1 : Int) ≤ n ∧ n < range.2 then some n.toNat else none
  | none => none

def estimate (t : SortedTable) (lead : List Value) (position : Option Value) : Checked Nat := do
  let range ← t.range lead
  match position with
  | some p => return if (positionIn p range).isSome then 1 else 0
  | none => return range.2 - range.1

/-- The rows of a range with their positions. -/
def slice (t : SortedTable) (range : Nat × Nat) : List StoredRow :=
  (List.range' range.1 (range.2 - range.1)).map fun i => (i, t.rows.getD i [])

def scan (t : SortedTable) (lead : List Value) (position : Option Value) : Rows StoredRow :=
  .ofChecked do
    let range ← t.range lead
    match position with
    | some p =>
      match positionIn p range with
      | some i => return .single (i, t.rows.getD i [])
      | none => return .done
    | none => return .ofList (t.slice range)

/-- The size of the largest group of neighbouring equal items, where the group of `current` has
`size` members so far. -/
def largestGroup (same : List Value → List Value → Bool) (best size : Nat) (current : List Value) :
    List (List Value) → Nat
  | [] => max best size
  | x :: xs =>
    if same current x then largestGroup same best (size + 1) current xs
    else largestGroup same (max best size) 1 x xs

/-- How many rows at most agree on the first `length` key attributes. -/
def maxFrequency (t : SortedTable) (length : Nat) : Nat :=
  if length = 0 then t.rows.size
  else
    match t.keys.toList.map (·.take length) with
    | [] => 0
    | x :: xs => largestGroup Value.eqList 0 1 x xs

/-- The statistics for a length that is given as a value. -/
def frequency (t : SortedTable) (length : Value) : Checked Nat := do
  let fits ← do
    if ← Value.le (.int 0) length then length.le (.ofNat t.sortKey.length) else pure false
  if !fits then throw (.usage (.keyLength length t.sortKey))
  match length.integer? with
  | some n => return t.maxFrequency n.toNat
  | none => throw (.mismatch .notAnOffset)

def handle (t : SortedTable) : Handle where
  estimate lead position := (t.estimate lead position).map Value.ofNat
  scan := t.scan
  frequency := some fun length => (t.frequency length).map Value.ofNat

def description (t : SortedTable) : Checked String := do
  Value.requireAllShown t.sortKey
  return s!"MemoryTable(rows={t.rows.size}, sort_key={UsageFault.tupleText t.sortKey})"

end SortedTable
end JoinOrder
