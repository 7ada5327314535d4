import JoinOrder.Storage.Handle
import JoinOrder.Value.Shown

/-! # Streams in memory

A stream can only be read from its beginning, and each scan begins anew. Its rows are checked as
they are read. The length, if it is known, only serves to answer for positions behind the end. -/

namespace JoinOrder

structure RowStream where
  /-- The rows, or the fault that any scan ends with. -/
  rows : Checked (List Value)
  length : Option Value

namespace RowStream

/-- A stream of rows that are given as a value. A length of null is not known. -/
def ofValue (rows length : Value) : RowStream where
  rows := rows.elements
  length := match length with
    | .null => none
    | length => some length

/-- Whether a value lies from zero up to, and without, the length. -/
def withinLength (position length : Value) : Checked Bool := do
  if ← Value.le (.int 0) position then position.lt length else return false

def estimate (s : RowStream) (lead : List Value) (position : Option Value) : Checked Value :=
  if !lead.isEmpty then .error (.usage (.streamSearched lead))
  else
    match position with
    | none => .ok (.real (.infinity false))
    | some p =>
      match s.length with
      | none => .ok (.int 1)
      | some length => do return .int (if ← withinLength p length then 1 else 0)

/-- All rows with their positions, each checked when it is reached. -/
def numbered (rows : List Value) : Rows StoredRow :=
  (Rows.ofList rows.zipIdx).map fun (row, i) => do return (i, ← row.elements)

/-- The row behind the first `n` rows, which have to be read as well. -/
def skip : Nat → Rows StoredRow → Rows StoredRow
  | _, .done => .done
  | _, .broken fault => .broken fault
  | 0, .row x _ => .single x
  | n + 1, .row _ tail => skip n (tail ())

def scan (s : RowStream) (lead : List Value) (position : Option Value) : Rows StoredRow :=
  if !lead.isEmpty then .broken (.usage (.streamSearched lead))
  else .ofChecked do
    let rows ← s.rows
    match position with
    | none => return numbered rows
    | some p =>
      match p.integer? with
      | none => return .done
      | some n =>
        if n < 0 then return .done
        else if !inWord (n + 1) then throw (.usage .positionTooLarge)
        else return skip n.toNat (numbered rows)

def handle (s : RowStream) : Handle where
  estimate := s.estimate
  scan := s.scan
  frequency := none

def description (s : RowStream) : Checked String := do
  let length := (← s.length.mapM Value.display?).getD "?"
  return s!"MemoryStream(rows={length})"

end RowStream
end JoinOrder
