import Mathlib.Data.List.Basic
import Mathlib.Order.Basic
import JoinOrder.Proofs.Checked
import JoinOrder.Value.Order

/-!
# Classes of values

Rows are compared up to equality of their values. This makes sense for values on which equality is
an equivalence; it is then given by a code for each value. Lists have codes as well
(`RankedClass.lists`), so that not all values of a class may be keys: where values are hashed, this
is asked for separately.
-/

namespace JoinOrder

/-- What has been found so far stays found. -/
theorem Value.length_le_distinct (vs found : List Value) :
    found.length ≤ (vs.foldl (fun found x => if found.any (Value.same · x) then found
      else x :: found) found).length := by
  induction vs generalizing found with
  | nil => exact Nat.le_refl _
  | cons v vs ih =>
    rw [List.foldl_cons]
    split
    · exact ih found
    · exact Nat.le_trans (Nat.le_succ _) (ih (v :: found))

/-- Some values have a single distinct one exactly if all are the same as the first. -/
theorem Value.distinct_eq_single (v : Value) (vs : List Value) :
    (∃ x, Value.distinct (v :: vs) = [x]) ↔ ∀ w ∈ vs, Value.same v w = true := by
  rw [← List.length_eq_one_iff, Value.distinct, List.length_reverse, List.foldl_cons]
  simp only [List.any_nil, Bool.false_eq_true, if_false]
  induction vs with
  | nil => simp
  | cons w vs ih =>
    rw [List.foldl_cons, List.any_cons, List.any_nil, Bool.or_false, List.forall_mem_cons]
    by_cases h : Value.same v w = true
    · rw [if_pos h, ih]
      simp [h]
    · rw [if_neg h]
      have hlen := length_le_distinct vs [w, v]
      rw [List.length_cons, List.length_singleton] at hlen
      exact ⟨fun hl => by omega, fun hc => (h hc.1).elim⟩

/-- An undefined number is not equal to itself, so nothing that is can be the same one. -/
theorem Value.not_isOne {v w : Value} (h : Value.eq v v = true) : Value.isOne v w = false := by
  rw [Bool.eq_false_iff]
  intro hone
  unfold Value.isOne at hone
  split at hone
  · simp [Value.eq] at h
  · cases h
  · cases hone

theorem Value.requireKey_eq_ok {v : Value} : v.requireKey = .ok () ↔ v.isKey = true := by
  rw [requireKey]
  split <;> simp_all

theorem Value.requireKeys {vs : List Value} (h : ∀ v ∈ vs, v.isKey = true) :
    vs.forM Value.requireKey = .ok () :=
  Checked.forM_eq_ok.2 fun v hv => requireKey_eq_ok.2 (h v hv)

/-- Values that are equal exactly if their codes are. -/
structure ValueClass (κ : Type) where
  carrier : Value → Prop
  code : Value → κ
  eq_iff : ∀ {v w}, carrier v → carrier w → (Value.eq v w = true ↔ code v = code w)

namespace ValueClass

variable {κ : Type} (K : ValueClass κ) {v w : Value} {vs ws : List Value}

/-- All values of the class may be keys. -/
def Keys : Prop := ∀ {v}, K.carrier v → v.isKey = true

/-- All of some values belong to the class. -/
def All (vs : List Value) : Prop := ∀ v ∈ vs, K.carrier v

def codes (vs : List Value) : List κ := vs.map K.code

@[simp] theorem all_nil : K.All [] := by simp [All]

@[simp] theorem all_cons : K.All (v :: vs) ↔ K.carrier v ∧ K.All vs := by simp [All]

@[simp] theorem codes_nil : K.codes [] = [] := rfl

@[simp] theorem codes_cons : K.codes (v :: vs) = K.code v :: K.codes vs := rfl

@[simp] theorem codes_length : (K.codes vs).length = vs.length := List.length_map ..

variable {K}

theorem eq_self (hv : K.carrier v) : Value.eq v v = true := (K.eq_iff hv hv).2 rfl

/-- Where codes tell values apart, none is an undefined number. -/
theorem same_iff (hv : K.carrier v) (hw : K.carrier w) :
    Value.same v w = true ↔ K.code v = K.code w := by
  rw [Value.same, Value.not_isOne (eq_self hv), Bool.false_or, K.eq_iff hv hw]

theorem eqList_iff (hv : K.All vs) (hw : K.All ws) :
    Value.eqList vs ws = true ↔ K.codes vs = K.codes ws := by
  induction vs generalizing ws with
  | nil => cases ws <;> simp [Value.eqList]
  | cons v vs ih =>
    cases ws with
    | nil => simp [Value.eqList]
    | cons w ws =>
      rw [all_cons] at hv hw
      rw [Value.eqList, Bool.and_eq_true, ih hv.2 hw.2, codes_cons, codes_cons, List.cons.injEq,
        ← same_iff hv.1 hw.1, Value.same]

theorem eqList_iff_map (hv : K.All vs) (hw : K.All ws) :
    Value.eqList vs ws = true ↔ vs.map K.code = ws.map K.code := eqList_iff hv hw

end ValueClass
end JoinOrder
