import JoinOrder.Proofs.Magnitude
import JoinOrder.Proofs.Ordered

/-!
# Numbers of all kinds

Truth values, integers and double-precision numbers are equal if their exact values are. They form
an ordered class (`OrderedClass.numbers`). Any class can be extended by the integers
(`ValueClass.withIntegers`), since what equals an integer equals nothing else.
-/

namespace JoinOrder

namespace Binary64

variable {x y z : Binary64}

theorem eq_true_iff : x.eq y = true ↔ x ≠ nan ∧ y ≠ nan ∧ x.rank = y.rank := by
  by_cases hx : x = nan
  · subst hx
    simp [Binary64.eq]
  by_cases hy : y = nan
  · subst hy
    cases x <;> simp [Binary64.eq]
  rw [(compare_eq_rank hx hy).2, decide_eq_true_iff]
  simp [hx, hy]

theorem eq_nan : x.eq nan = false := by cases x <;> rfl

theorem eq_symm (h : x.eq y = true) : y.eq x = true := by
  obtain ⟨hx, hy, hr⟩ := eq_true_iff.1 h
  exact eq_true_iff.2 ⟨hy, hx, hr.symm⟩

theorem eq_trans (h : x.eq y = true) (h' : y.eq z = true) : x.eq z = true := by
  obtain ⟨hx, -, hr⟩ := eq_true_iff.1 h
  obtain ⟨-, hz, hr'⟩ := eq_true_iff.1 h'
  exact eq_true_iff.2 ⟨hx, hz, hr.trans hr'⟩

end Binary64

namespace Value

variable {v w : Value} {x y : Binary64} {m n : Int}

/-- The exact value of a number or of a cardinality. -/
def scalar? : Value → Option Binary64
  | bool b => some (Number.int (if b then 1 else 0)).exact
  | int n => some (Number.int n).exact
  | real x => some x
  | cardinality c => some c.toBinary64
  | _ => none

/-- What has a defined exact value equals what has an equal one. -/
theorem eq_of_scalar_left (hv : v.scalar? = some x) (hx : x ≠ .nan) :
    Value.eq v w = w.scalar?.any (x.eq ·) := by
  cases v <;> cases hv
  case cardinality c =>
    cases w
    case cardinality d =>
      have hc : c ≠ .unknown := by
        rintro rfl
        exact hx rfl
      simp [Value.eq, scalar?, Cardinality.same, hc]
    case undefined => exact Binary64.eq_nan
    all_goals rfl
  all_goals cases w <;> rfl

theorem eq_of_scalar_right (hw : w.scalar? = some y) (hy : y ≠ .nan) :
    Value.eq v w = v.scalar?.any (·.eq y) := by
  cases w <;> cases hw
  case cardinality d =>
    cases v
    case cardinality c =>
      have hd : d ≠ .unknown := by
        rintro rfl
        exact hy rfl
      simp [Value.eq, scalar?, Cardinality.same, hd]
    all_goals rfl
  all_goals cases v <;> rfl

theorem scalar_of_number {a : Number} (h : v.number? = some a) (ha : a.exact ≠ .nan) :
    v.scalar? = some a.exact := by
  cases v <;> cases h <;> first | rfl | exact (ha rfl).elim

theorem eq_int_iff : Value.eq v (.int n) = true ↔
    ∃ x, v.scalar? = some x ∧ x.eq (Number.int n).exact = true := by
  rw [eq_of_scalar_right (w := .int n) rfl nofun, Option.any_eq_true]

theorem eq_int_self : Value.eq (.int n) (.int n) = true :=
  eq_int_iff.2 ⟨_, rfl, Binary64.eq_true_iff.2 ⟨nofun, nofun, rfl⟩⟩

/-- A value equals at most one integer. -/
theorem eq_int_unique (hm : Value.eq v (.int m) = true) (hn : Value.eq v (.int n) = true) :
    m = n := by
  obtain ⟨x, hx, hxm⟩ := eq_int_iff.1 hm
  obtain ⟨y, hy, hyn⟩ := eq_int_iff.1 hn
  cases hx.symm.trans hy
  have h : (Number.int m).eq (.int n) = true := Binary64.eq_trans (Binary64.eq_symm hxm) hyn
  rwa [Number.eq_int, decide_eq_true_iff] at h

/-- Of equal values, both equal an integer if one does. -/
theorem eq_int_congr (h : Value.eq v w = true) :
    Value.eq v (.int n) = true ↔ Value.eq w (.int n) = true := by
  constructor
  · intro hv
    obtain ⟨x, hx, hxn⟩ := eq_int_iff.1 hv
    rw [eq_of_scalar_left hx (Binary64.eq_true_iff.1 hxn).1, Option.any_eq_true] at h
    obtain ⟨y, hy, hxy⟩ := h
    exact eq_int_iff.2 ⟨y, hy, Binary64.eq_trans (Binary64.eq_symm hxy) hxn⟩
  · intro hw
    obtain ⟨y, hy, hyn⟩ := eq_int_iff.1 hw
    rw [eq_of_scalar_right hy (Binary64.eq_true_iff.1 hyn).1, Option.any_eq_true] at h
    obtain ⟨x, hx, hxy⟩ := h
    exact eq_int_iff.2 ⟨x, hx, Binary64.eq_trans hxy hyn⟩

/-- Values that equal the same integer are equal. -/
theorem eq_of_eq_int (hv : Value.eq v (.int n) = true) (hw : Value.eq w (.int n) = true) :
    Value.eq v w = true := by
  obtain ⟨x, hx, hxn⟩ := eq_int_iff.1 hv
  obtain ⟨y, hy, hyn⟩ := eq_int_iff.1 hw
  rw [eq_of_scalar_left hx (Binary64.eq_true_iff.1 hxn).1, hy, Option.any_some]
  exact Binary64.eq_trans hxn (Binary64.eq_symm hyn)

end Value

/-! ## Classes with the integers -/

namespace ValueClass

variable {σ κ : Type}

/-- A class has the values of another one, and all integers. -/
structure IncludesIntegers (K : ValueClass κ) (S : ValueClass σ) : Prop where
  carrier : ∀ v, S.carrier v → K.carrier v
  int : ∀ n, K.carrier (.int n)

open Classical in
/-- The values of a class and all integers. What equals an integer is coded by it. -/
noncomputable def withIntegers (K : ValueClass κ) : ValueClass (κ ⊕ Int) where
  carrier v := K.carrier v ∨ ∃ n, v = .int n
  code v := if h : ∃ n, Value.eq v (.int n) = true then .inr h.choose else .inl (K.code v)
  eq_iff {v w} hv hw := by
    by_cases hn : ∃ n, Value.eq v (.int n) = true
    · by_cases hm : ∃ n, Value.eq w (.int n) = true
      · rw [dif_pos hn, dif_pos hm, Sum.inr.injEq]
        refine ⟨fun h => ?_, fun h => Value.eq_of_eq_int hn.choose_spec (h ▸ hm.choose_spec)⟩
        exact Value.eq_int_unique ((Value.eq_int_congr h).1 hn.choose_spec) hm.choose_spec
      · rw [dif_pos hn, dif_neg hm]
        exact iff_of_false (fun h => hm (hn.imp fun _ => (Value.eq_int_congr h).1)) nofun
    · have hk : K.carrier v := hv.resolve_right fun ⟨n, h⟩ =>
        hn ⟨n, h ▸ Value.eq_int_self⟩
      by_cases hm : ∃ n, Value.eq w (.int n) = true
      · rw [dif_neg hn, dif_pos hm]
        exact iff_of_false (fun h => hn (hm.imp fun _ => (Value.eq_int_congr h).2)) nofun
      · have hk' : K.carrier w := hw.resolve_right fun ⟨n, h⟩ =>
          hm ⟨n, h ▸ Value.eq_int_self⟩
        rw [dif_neg hn, dif_neg hm, Sum.inl.injEq, K.eq_iff hk hk']

theorem withIntegers_includes (K : ValueClass κ) : K.withIntegers.IncludesIntegers K where
  carrier _ h := .inl h
  int n := .inr ⟨n, rfl⟩

end ValueClass

theorem OrderedClass.ints_includes : ints.IncludesIntegers ints.toValueClass where
  carrier _ h := h
  int n := ⟨n, rfl⟩

/-! ## Defined numbers -/

namespace OrderedClass

/-- All numbers but undefined ones, coded by their exact value. -/
def numbers : OrderedClass (WithBot (WithTop Rat)) where
  carrier v := ∃ x, v.number? = some x ∧ x.exact ≠ .nan
  code v := ((v.number?.map Number.exact).getD .nan).rank
  eq_iff {v w} := by
    rintro ⟨x, hx, hxn⟩ ⟨y, hy, hyn⟩
    rw [Value.eq_of_scalar_left (Value.scalar_of_number hx hxn) hxn,
      Value.scalar_of_number hy hyn, hx, hy, Option.any_some, Binary64.eq_true_iff]
    exact ⟨fun h => h.2.2, fun h => ⟨hxn, hyn, h⟩⟩
  lt_eq {v w} := by
    rintro ⟨x, hx, hxn⟩ ⟨y, hy, hyn⟩
    have hlt : Value.lt v w = .ok (x.exact.lt y.exact) := by
      cases v <;> cases hx <;> cases w <;> cases hy <;> rfl
    rw [hlt, (Binary64.compare_eq_rank hxn hyn).1, hx, hy]
    rfl

theorem keys_numbers : numbers.Keys := by
  rintro v ⟨x, hx, -⟩
  cases v <;> first | rfl | cases hx

theorem numbers_includes : numbers.IncludesIntegers numbers.toValueClass where
  carrier _ h := h
  int n := ⟨.int n, rfl, nofun⟩

end OrderedClass
end JoinOrder
