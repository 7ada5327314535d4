import Mathlib.Data.Int.Order.Basic
import Mathlib.Data.String.Basic
import Mathlib.Data.Sum.Order
import JoinOrder.Proofs.Binary64
import JoinOrder.Proofs.Ranked

/-!
# Ordered classes

Classes of values that all have an order, which is the linear order of their codes, such as the
integers. They are ranked classes. Texts and integers together are a ranked class, too, but they
have no order beside each other (`RankedClass.textsAndInts`).
-/

namespace JoinOrder

/-- Values that are ordered as their codes are. -/
structure OrderedClass (κ : Type) [LinearOrder κ] extends ValueClass κ where
  lt_eq : ∀ {v w}, carrier v → carrier w → Value.lt v w = .ok (decide (code v < code w))

namespace OrderedClass

variable {κ : Type} [LinearOrder κ] {O : OrderedClass κ} {vs ws : List Value}

def toRanked (O : OrderedClass κ) : RankedClass κ where
  toValueClass := O.toValueClass
  lt_of_ok hv hw h := (Except.ok.inj ((O.lt_eq hv hw).symm.trans h)).symm

theorem total_toRanked (O : OrderedClass κ) : O.toRanked.Total := fun hv hw => ⟨_, O.lt_eq hv hw⟩

end OrderedClass

/-! ## Integers -/

/-- The integers, coded by themselves. -/
def OrderedClass.ints : OrderedClass Int where
  carrier v := ∃ n, v = .int n
  code v := v.int?.getD 0
  eq_iff := by
    rintro _ _ ⟨m, rfl⟩ ⟨n, rfl⟩
    rw [Value.eq, Value.eq.eqNumber, Number.eq_int, decide_eq_true_iff]
    rfl
  lt_eq := by
    rintro _ _ ⟨m, rfl⟩ ⟨n, rfl⟩
    exact congrArg _ (Number.lt_int m n)

theorem OrderedClass.keys_ints : ints.Keys := by
  rintro _ ⟨n, rfl⟩
  rfl

/-! ## Texts and integers -/

/-- Texts and integers, neither of which has an order beside the other. -/
def RankedClass.textsAndInts : RankedClass (String ⊕ₗ Int) where
  carrier v := (∃ t, v = .text t) ∨ ∃ n, v = .int n
  code
    | .text t => Sum.inlₗ t
    | v => Sum.inrₗ (v.int?.getD 0)
  eq_iff := by
    rintro _ _ (⟨s, rfl⟩ | ⟨m, rfl⟩) (⟨t, rfl⟩ | ⟨n, rfl⟩)
    · simp [Value.eq, Sum.inlₗ]
    · exact iff_of_false nofun nofun
    · exact iff_of_false nofun nofun
    · rw [Value.eq, Value.eq.eqNumber, Number.eq_int, decide_eq_true_iff]
      simp [Sum.inrₗ, Value.int?]
  lt_of_ok := by
    rintro _ _ b (⟨s, rfl⟩ | ⟨m, rfl⟩) (⟨t, rfl⟩ | ⟨n, rfl⟩) h
    · rw [Value.lt, Value.precedes] at h
      cases h
      exact decide_eq_decide.2 Sum.Lex.inl_lt_inl_iff.symm
    · cases h
    · cases h
    · have hint : Value.lt (.int m) (.int n) = .ok (decide (m < n)) :=
        congrArg _ (Number.lt_int m n)
      cases h.symm.trans hint
      exact decide_eq_decide.2 Sum.Lex.inr_lt_inr_iff.symm

end JoinOrder
