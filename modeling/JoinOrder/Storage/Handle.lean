import JoinOrder.Rows

/-! # Storage handles

What the storage layer has to offer for an opened, read-only source. An operation receives the
values of the leading attributes of the sort key, and possibly a position; then only the tuple at
that position is meant. Positions are the ordinals of the tuples in stored order. -/

namespace JoinOrder

/-- A stored tuple with its position. -/
abbrev StoredRow := Nat × List Value

structure Handle where
  /-- How many tuples match. -/
  estimate : (lead : List Value) → (position : Option Value) → Checked Value
  /-- The matching tuples in stored order. -/
  scan : (lead : List Value) → (position : Option Value) → Rows StoredRow
  /-- The largest number of tuples that agree on a number of key attributes, if such statistics
  are kept. -/
  frequency : Option ((length : Value) → Checked Value)

namespace Handle

def withoutStatistics (h : Handle) : Handle := { h with frequency := none }

/-- A handle with fixed answers. It returns all rows whatever is asked for, or the row at the
position. -/
def fixed (answer : Value) (frequency : Option Value) (rows : List (List Value)) : Handle where
  estimate _ _ := .ok answer
  scan _ position :=
    let numbered := rows.zipIdx.map fun (row, i) => (i, row)
    match position with
    | none => .ofList numbered
    | some p => .ofList (numbered.filter fun (i, _) => Value.eq (.ofNat i) p)
  frequency := frequency.map fun v _ => .ok v

end Handle
end JoinOrder
