import Mathlib.Data.List.Lex
import Mathlib.Order.Lattice
import JoinOrder.Proofs.ValueClass

/-!
# Ranked classes

Classes of values that are ordered by their codes. Values of a class may be of several types: where
two of them have an order, it is that of their codes, and nothing is asked of the others. Lists of
the values of a class are one, too (`RankedClass.lists`).
-/

namespace JoinOrder

/-- Values that are equal exactly if their codes are, and that are ordered as their codes are,
where they have an order. -/
structure RankedClass (κ : Type) [LinearOrder κ] extends ValueClass κ where
  lt_of_ok : ∀ {v w b}, carrier v → carrier w → Value.lt v w = .ok b →
    b = decide (code v < code w)

/-- Two values can be compared either way. -/
def Value.HasOrder (v w : Value) : Prop :=
  (∃ b, Value.lt v w = .ok b) ∧ ∃ b, Value.lt w v = .ok b

/-- Two lists of values can be compared either way. -/
def Value.Comparable (vs ws : List Value) : Prop :=
  (∃ b, Value.ltList vs ws = .ok b) ∧ ∃ b, Value.ltList ws vs = .ok b

/-- Only values that stand at the same place are compared. -/
theorem Value.exists_ltList {vs ws : List Value}
    (h : List.Forall₂ (fun v w => ∃ b, Value.lt v w = .ok b) vs ws) :
    ∃ b, Value.ltList vs ws = .ok b := by
  simp only [Value.ltList]
  induction h with
  | nil => exact ⟨_, by rw [Value.precedesList]⟩
  | cons hvw _ ih =>
    rw [Value.precedesList]
    split
    · exact ih
    · exact hvw

theorem Value.comparable_of_hasOrder {vs ws : List Value}
    (h : List.Forall₂ Value.HasOrder vs ws) : Value.Comparable vs ws :=
  ⟨exists_ltList (h.imp fun _ _ => And.left), exists_ltList (h.flip.imp fun _ _ => And.right)⟩

namespace RankedClass

variable {κ : Type} [LinearOrder κ] {R : RankedClass κ} {v w : Value} {vs ws : List Value}

/-- All values of the class have an order, as values of one ordered type do. -/
def Total (R : RankedClass κ) : Prop :=
  ∀ {v w}, R.carrier v → R.carrier w → ∃ b, Value.lt v w = .ok b

/-- Lists are ordered by their first different items, then by their lengths. -/
theorem ltList_of_ok {b : Bool} (hv : ∀ v ∈ vs, R.carrier v) (hw : ∀ w ∈ ws, R.carrier w)
    (h : Value.ltList vs ws = .ok b) : b = decide (vs.map R.code < ws.map R.code) := by
  rw [Value.ltList] at h
  induction vs generalizing ws with
  | nil =>
    cases ws with
    | nil => simpa [Value.precedesList] using h.symm
    | cons w ws => simpa [Value.precedesList] using h.symm
  | cons v vs ih =>
    cases ws with
    | nil => simpa [Value.precedesList] using h.symm
    | cons w ws =>
      rw [List.forall_mem_cons] at hv hw
      rw [Value.precedesList] at h
      rw [List.map_cons, List.map_cons]
      split at h
      · next hsame =>
        rw [ValueClass.same_iff hv.1 hw.1] at hsame
        rw [ih hv.2 hw.2 h, hsame]
        simp
      · next hsame =>
        rw [ValueClass.same_iff hv.1 hw.1] at hsame
        rw [R.lt_of_ok hv.1 hw.1 h]
        simp [List.cons_lt_cons_iff, hsame]

theorem ltList_iff_of_ok {b : Bool} (hv : ∀ v ∈ vs, R.carrier v) (hw : ∀ w ∈ ws, R.carrier w)
    (h : Value.ltList vs ws = .ok b) : b = true ↔ vs.map R.code < ws.map R.code := by
  rw [ltList_of_ok hv hw h, decide_eq_true_iff]

theorem Total.exists_ltList (hR : R.Total) (hv : ∀ v ∈ vs, R.carrier v)
    (hw : ∀ w ∈ ws, R.carrier w) : ∃ b, Value.ltList vs ws = .ok b := by
  simp only [Value.ltList]
  induction vs generalizing ws with
  | nil => exact ⟨_, by rw [Value.precedesList]⟩
  | cons v vs ih =>
    cases ws with
    | nil => exact ⟨_, by rw [Value.precedesList]⟩
    | cons w ws =>
      rw [List.forall_mem_cons] at hv hw
      rw [Value.precedesList]
      split
      · exact ih hv.2 hw.2
      · exact hR hv.1 hw.1

theorem Total.hasOrder (hR : R.Total) (hv : R.carrier v) (hw : R.carrier w) : Value.HasOrder v w :=
  ⟨hR hv hw, hR hw hv⟩

theorem Total.comparable (hR : R.Total) (hv : ∀ v ∈ vs, R.carrier v)
    (hw : ∀ w ∈ ws, R.carrier w) : Value.Comparable vs ws :=
  ⟨hR.exists_ltList hv hw, hR.exists_ltList hw hv⟩

/-! ## Sequences -/

/-- Sequences of values of a class, in the order of their items. They are values of one kind, whose
equality and order are those of the items. -/
def sequences (R : RankedClass κ) (kind : List Value → Value) (items : Value → List Value)
    (hi : ∀ vs, items (kind vs) = vs)
    (he : ∀ vs ws, Value.eq (kind vs) (kind ws) = Value.eqList vs ws)
    (hl : ∀ vs ws, Value.lt (kind vs) (kind ws) = Value.ltList vs ws) : RankedClass (List κ) where
  carrier v := ∃ vs, v = kind vs ∧ ∀ x ∈ vs, R.carrier x
  code v := (items v).map R.code
  eq_iff := by
    rintro _ _ ⟨vs, rfl, hv⟩ ⟨ws, rfl, hw⟩
    rw [he, hi, hi, ValueClass.eqList_iff hv hw]
    rfl
  lt_of_ok := by
    rintro _ _ b ⟨vs, rfl, hv⟩ ⟨ws, rfl, hw⟩ h
    rw [hl] at h
    exact (ltList_of_ok hv hw h).trans (decide_eq_decide.2 (by rw [hi, hi]))

/-- Lists, which are no keys. -/
def lists (R : RankedClass κ) : RankedClass (List κ) :=
  R.sequences .list (fun | .list vs => vs | _ => []) (fun _ => rfl)
    (fun _ _ => by rw [Value.eq]) fun _ _ => by rw [Value.lt, Value.precedes, Value.ltList]

def tuples (R : RankedClass κ) : RankedClass (List κ) :=
  R.sequences .tuple (fun | .tuple vs => vs | _ => []) (fun _ => rfl)
    (fun _ _ => by rw [Value.eq]) fun _ _ => by rw [Value.lt, Value.precedes, Value.ltList]

theorem carrier_lists_nil : R.lists.carrier (.list []) := ⟨[], rfl, nofun⟩

theorem Total.lists (hR : R.Total) : R.lists.Total := by
  rintro _ _ ⟨vs, rfl, hv⟩ ⟨ws, rfl, hw⟩
  rw [Value.lt, Value.precedes]
  exact hR.exists_ltList hv hw

end RankedClass
end JoinOrder
