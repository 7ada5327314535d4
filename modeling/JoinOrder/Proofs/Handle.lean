import JoinOrder.Cardinality.Checked
import JoinOrder.Proofs.Cardinality
import JoinOrder.Proofs.Ordered
import JoinOrder.Proofs.Rows
import JoinOrder.Storage.Handle

/-!
# Storage handles

What sources rely on is that a handle selects the stored rows that begin with some key values and
that stand at a position, and that it announces some size for them (`Handle.Serves`).
-/

namespace JoinOrder

theorem Value.eq_int (m n : Int) : Value.eq (.int m) (.int n) = decide (m = n) := by
  rw [Value.eq, Value.eq.eqNumber, Number.eq_int]

theorem Value.lt_int (m n : Int) : Value.lt (.int m) (.int n) = .ok (decide (m < n)) :=
  congrArg Except.ok (Number.lt_int m n)

theorem Value.le_int (m n : Int) : Value.le (.int m) (.int n) = .ok (decide (m ≤ n)) :=
  congrArg Except.ok (Number.le_int m n)

/-- The number of some things in memory is a size. -/
theorem Cardinality.ofValue_ofNat {n : Nat} (h : n < 2 ^ 63) :
    ofValue (.ofNat n) = .ok (.known n) := ofValue_of_isSome (Binary64.ofInt?_isSome h)

/-- Rows with their positions. -/
def numbered (rows : List (List Value)) : List StoredRow := rows.zipIdx.map fun (row, i) => (i, row)

theorem mem_numbered {rows : List (List Value)} {r : StoredRow} :
    r ∈ numbered rows ↔ rows[r.1]? = some r.2 := by
  obtain ⟨i, row⟩ := r
  simp [numbered, List.mem_zipIdx_iff_getElem?, and_comm]

theorem mem_of_mem_numbered {rows : List (List Value)} {r : StoredRow} (h : r ∈ numbered rows) :
    r.2 ∈ rows := List.mem_of_getElem? (mem_numbered.1 h)

theorem numbered_eq_range (rows : List (List Value)) :
    numbered rows = (List.range rows.length).map fun i => (i, rows.getD i []) := by
  refine List.ext_getElem (by simp [numbered]) fun i h _ => ?_
  have hi : i < rows.length := by simpa [numbered] using h
  simp [numbered, List.getD_eq_getElem?_getD, List.getElem?_eq_getElem hi]

/-- Whether a stored row begins with some values of the key, which is given by its places, and
stands at a position. -/
def StoredRow.isAt (key : List Nat) (lead : List Value) (position : Option Value) (r : StoredRow) :
    Bool :=
  Value.eqList ((key.take lead.length).filterMap (r.2[·]?)) lead &&
    position.all (Value.eq (.ofNat r.1) ·)

/-- A value that is not the position of any row. -/
def Misses (rows : List (List Value)) (v : Value) : Prop :=
  ∀ i < rows.length, Value.eq (.ofNat i) v = false

/-- Key values that rows can be searched for: they are of a class, and they can be compared with the
beginnings of the keys. -/
structure Searches {κ : Type} (K : ValueClass κ) (key : List Nat) (rows : List (List Value))
    (lead : List Value) : Prop where
  all : K.All lead
  length_le : lead.length ≤ key.length
  compares : ∀ row ∈ rows,
    Value.Comparable ((key.take lead.length).filterMap (row[·]?)) lead

/-- A handle selects among these rows, for all positions that it may be asked for. -/
structure Handle.Serves {κ : Type} (K : ValueClass κ) (h : Handle) (key : List Nat)
    (asks : Value → Prop) (rows : List (List Value)) : Prop where
  scan : ∀ lead position, Searches K key rows lead → (∀ v, position = some v → asks v) →
    (h.scan lead position).Yields ((numbered rows).filter (StoredRow.isAt key lead position))
  estimate : ∀ lead position, Searches K key rows lead → (∀ v, position = some v → asks v) →
    ∃ v size, h.estimate lead position = .ok v ∧ Cardinality.ofValue v = .ok size

theorem Handle.Serves.mono {κ : Type} {K : ValueClass κ} {h : Handle} {key : List Nat}
    {asks fewer : Value → Prop} {rows : List (List Value)} (H : h.Serves K key asks rows)
    (hf : ∀ v, fewer v → asks v) : h.Serves K key fewer rows where
  scan lead position hl hp := H.scan lead position hl fun v hv => hf v (hp v hv)
  estimate lead position hl hp := H.estimate lead position hl fun v hv => hf v (hp v hv)

/-- What a handle announces for some key values, and possibly a position, bounds the stored rows
that it selects, and its statistics bound how many rows begin with any values of a part of the
key. -/
structure Handle.Announces {κ : Type} (K : ValueClass κ) (h : Handle) (key : List Nat)
    (rows : List (List Value)) : Prop where
  estimate : ∀ lead position, Searches K key rows lead →
    (∀ v, position = some v → ∃ n, v = .int n) →
    ∃ v size, h.estimate lead position = .ok v ∧ Cardinality.ofValue v = .ok size ∧
      size.Bounds ((numbered rows).countP (StoredRow.isAt key lead position))
  frequency : ∀ f, h.frequency = some f → ∀ length ≤ key.length,
    ∃ n, f (.ofNat length) = .ok (.ofNat n) ∧ Cardinality.ofValue (.ofNat n) = .ok (.known n) ∧
      ∀ lead, K.All lead → lead.length = length →
        (numbered rows).countP (StoredRow.isAt key lead none) ≤ n

end JoinOrder
