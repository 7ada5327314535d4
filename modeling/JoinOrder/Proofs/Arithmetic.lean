import JoinOrder.Proofs.Costs

/-!
# Arithmetic of sizes

A size is combined with another size, or with a number that is not negative. Sums do not depend on
the order of the operands, and neither do products (`Cardinality.operands_commute`), with one
exception: an empty size absorbs an unknown one on its right, but an unknown size on the left stays
unknown.
-/

namespace JoinOrder

namespace Binary64

variable {x y : Binary64}

theorem add_comm (x y : Binary64) : x + y = y + x := by
  change Binary64.add x y = Binary64.add y x
  cases x with
  | nan => cases y <;> rfl
  | infinity a =>
    cases y with
    | infinity b =>
      rw [Binary64.add, Binary64.add]
      by_cases h : a = b
      · rw [h]
      · rw [if_neg h, if_neg (Ne.symm h)]
    | _ => rfl
  | negativeZero =>
    cases y with
    | finite d => exact congrArg (round false) (Dyadic.add_comm ..)
    | _ => rfl
  | finite c =>
    cases y with
    | negativeZero => exact congrArg (round false) (Dyadic.add_comm ..)
    | finite d => exact congrArg (round false) (Dyadic.add_comm ..)
    | _ => rfl

theorem mul_comm (x y : Binary64) : x * y = y * x := by
  change Binary64.mul x y = Binary64.mul y x
  rw [Binary64.mul, Binary64.mul, Bool.or_comm y.isNaN, Bool.or_comm y.isInfinite,
    Bool.or_comm y.isZero, bne_comm (a := y.isNegative), Dyadic.mul_comm y.value]

theorem nan_mul (x : Binary64) : nan * x = nan := rfl

theorem mul_nan (x : Binary64) : x * nan = nan := (mul_comm ..).trans (nan_mul x)

end Binary64

namespace Cardinality

variable {c d : Cardinality} {x : Binary64} {v : Value}

theorem same_self (c : Cardinality) : c.same c = true := by
  cases c with
  | known n =>
    have hn : (known n).toBinary64.Nonneg := nonneg_toBinary64 Cardinality.noConfusion
    rw [same, (Binary64.compare_eq_rank hn.ne_nan hn.ne_nan).2, decide_eq_true rfl, Bool.or_true]
  | _ => rfl

/-! ## Sums and products of sizes -/

theorem add_comm (c d : Cardinality) : c + d = d + c :=
  congrArg ofBinary64 (Binary64.add_comm ..)

/-- Sizes that are not empty are multiplied as numbers, also unknown ones. -/
theorem mul_eq_of_ne_zero (hc : c ≠ known 0) (hd : d ≠ known 0) :
    c * d = ofBinary64 (c.toBinary64 * d.toBinary64) := by
  have hz : d.toBinary64.isZero = false := by
    cases d with
    | unknown => rfl
    | _ => exact ((toBinary64_cases Cardinality.noConfusion).resolve_left hd).isZero
  rw [mul_eq, times, hz]
  simp [hc]

theorem mul_comm_of_known (hc : c = known 0 → d ≠ unknown) (hd : d = known 0 → c ≠ unknown) :
    c * d = d * c := by
  by_cases hcz : c = known 0
  · subst hcz
    rw [known_zero_mul, mul_known_zero (hc rfl)]
  by_cases hdz : d = known 0
  · subst hdz
    rw [known_zero_mul, mul_known_zero (hd rfl)]
  rw [mul_eq_of_ne_zero hcz hdz, mul_eq_of_ne_zero hdz hcz, Binary64.mul_comm]

/-! ## Operands -/

/-- What a size is combined with: another size, or a number that is not negative. -/
def IsOperand (v : Value) : Prop :=
  (∃ c, v = .cardinality c) ∨ ∃ x, v.number? = some x ∧ (Number.int 0).le x = true

/-- The two operands are an empty size and an unknown one. -/
def Clashes (c : Cardinality) (v : Value) : Prop :=
  c = known 0 ∧ v = .cardinality unknown ∨ c = unknown ∧ v = .cardinality (known 0)

/-- Sizes may be undefined as numbers, but they are never negative. -/
def IsSize (x : Binary64) : Prop := x = .nan ∨ x.Nonneg

theorem isSize_toBinary64 (c : Cardinality) : IsSize c.toBinary64 := by
  cases c with
  | unknown => exact .inl rfl
  | _ => exact .inr (nonneg_toBinary64 Cardinality.noConfusion)

/-- A number that is not negative is rounded to such a number, if it is in range. -/
theorem isSize_rounded {n : Number} (hn : (Number.int 0).le n = true) (h : n.rounded = .ok x) :
    IsSize x := by
  cases n with
  | int n =>
    rw [Number.le_int, decide_eq_true_iff] at hn
    have hx : Binary64.ofInt n = x := by
      simp only [Number.rounded, Number.toBinary64?, Binary64.ofInt?] at h
      generalize Binary64.ofInt n = y at h ⊢
      cases y <;> cases h <;> rfl
    subst hx
    refine .inr (Binary64.nonneg_round ?_ false)
    rw [toRat_ofInt]
    exact Int.cast_nonneg hn
  | real y =>
    cases h
    cases x with
    | nan => exact .inl rfl
    | infinity negative =>
      cases negative with
      | false => exact .inr rfl
      | true => cases hn
    | negativeZero => exact .inr trivial
    | finite d =>
      have hle : Dyadic.ofInt 0 < d ∨ Dyadic.ofInt 0 = d :=
        ((Bool.or_eq_true ..).mp hn).imp of_decide_eq_true of_decide_eq_true
      refine .inr ?_
      rcases hle with hlt | rfl
      · exact le_of_lt (by simpa using Dyadic.toRat_lt_toRat_iff.2 hlt)
      · exact le_of_eq (toRat_ofInt 0).symm

theorem isSize_operand (hv : IsOperand v) (h : operand v = .ok x) : IsSize x := by
  rcases hv with ⟨d, rfl⟩ | ⟨n, hn, hle⟩
  · cases h
    exact isSize_toBinary64 d
  · refine isSize_rounded hle ?_
    cases v with
    | cardinality => cases hn
    | _ => simpa only [operand, hn] using h

theorem IsSize.add {y : Binary64} (hx : IsSize x) (hy : IsSize y) : IsSize (x + y) := by
  rcases hx with rfl | hx
  · exact .inl rfl
  rcases hy with rfl | hy
  · rw [Binary64.add_comm]
    exact .inl rfl
  · exact .inr (hx.add hy)

theorem IsSize.times (hx : IsSize x) (c : Cardinality) : IsSize (c.times x) := by
  rw [Cardinality.times]
  split
  · exact .inr (le_refl _)
  next h =>
  simp only [Bool.or_eq_true, Bool.and_eq_true, decide_eq_true_eq, bne_iff_ne, not_or, not_and,
    not_not] at h
  obtain ⟨hc, hz⟩ := h
  by_cases hu : c = unknown
  · subst hu
    exact .inl (Binary64.nan_mul x)
  rcases hx with rfl | hx
  · exact .inl (Binary64.mul_nan _)
  · have hc' := (toBinary64_cases hu).resolve_left hc
    exact .inr (hc'.nonneg.mul hx hc'.isZero (Bool.eq_false_iff.2 (mt hz hu)))

/-- What is not negative is a size. -/
theorem ofNumber_of_isSize (hx : IsSize x) : ofNumber (.real x) = .ok (ofBinary64 x) := by
  have hlt : (Number.real x).lt (.int 0) = false := by
    rcases hx with rfl | hx
    · rfl
    cases x with
    | nan => rfl
    | infinity negative =>
      cases hx
      rfl
    | negativeZero => rfl
    | finite d =>
      refine decide_eq_false fun (h : d < Dyadic.ofInt 0) => not_lt_of_ge hx ?_
      simpa using Dyadic.toRat_lt_toRat_iff.2 h
  rw [ofNumber, hlt]
  rfl

theorem plus_eq (hv : IsOperand v) (h : operand v = .ok x) (c : Cardinality) :
    c.plus v = .ok (ofBinary64 (c.toBinary64 + x)) := by
  rw [plus, h, Checked.bind_ok]
  exact ofNumber_of_isSize ((isSize_toBinary64 c).add (isSize_operand hv h))

theorem scaled_eq (hv : IsOperand v) (h : operand v = .ok x) (c : Cardinality) :
    c.scaled v = .ok (ofBinary64 (c.times x)) := by
  rw [scaled, h, Checked.bind_ok]
  exact ofNumber_of_isSize ((isSize_operand hv h).times c)

/-! ## The order of the operands -/

theorem clashes_cardinality : c.Clashes (.cardinality d) ↔
    c = known 0 ∧ d = unknown ∨ c = unknown ∧ d = known 0 := by
  simp only [Clashes, Value.cardinality.injEq]

theorem same_mul_iff : (c * d).same (d * c) = true ↔ ¬c.Clashes (.cardinality d) := by
  rw [clashes_cardinality]
  constructor
  · rintro h (⟨rfl, rfl⟩ | ⟨rfl, rfl⟩) <;> cases h
  · intro h
    rw [not_or, not_and, not_and] at h
    rw [mul_comm_of_known h.1 fun hd hc => h.2 hc hd]
    exact same_self _

theorem of_number {n : Number} (hn : v.number? = some n) (c : Cardinality) :
    adding v c = c.plus v ∧ scaling v c = c.scaled v ∧ ¬c.Clashes v := by
  cases v with
  | cardinality => cases hn
  | _ => exact ⟨rfl, rfl, by simp [Clashes]⟩

/-- Whatever a size is combined with, on either side: an operand that is out of range is refused on
both sides, sums are the same, and products are the same unless an empty size meets an unknown
one. -/
theorem operands_commute (c : Cardinality) {v : Value} (hv : IsOperand v) :
    (∀ fault, operand v = .error fault → c.plus v = .error fault ∧ adding v c = .error fault ∧
      c.scaled v = .error fault ∧ scaling v c = .error fault) ∧
    ∀ x, operand v = .ok x → ∃ s t p q, c.plus v = .ok s ∧ adding v c = .ok t ∧
      s.same t = true ∧ c.scaled v = .ok p ∧ scaling v c = .ok q ∧
      (p.same q = true ↔ ¬c.Clashes v) := by
  rcases hv with ⟨d, rfl⟩ | ⟨n, hn, hle⟩
  · have hc : IsOperand (.cardinality c) := .inl ⟨c, rfl⟩
    have hd : IsOperand (.cardinality d) := .inl ⟨d, rfl⟩
    refine ⟨nofun, fun x h => ?_⟩
    cases h
    refine ⟨c + d, d + c, c * d, d * c, plus_eq hd rfl c, plus_eq hc rfl d, ?_,
      scaled_eq hd rfl c, scaled_eq hc rfl d, same_mul_iff⟩
    rw [add_comm]
    exact same_self _
  · -- A number has no rule of its own, so that the size decides on either side.
    have hv : IsOperand v := .inr ⟨n, hn, hle⟩
    obtain ⟨hadd, hmul, hclash⟩ := of_number hn c
    rw [hadd, hmul]
    constructor
    · intro fault h
      have hplus : c.plus v = .error fault := by rw [plus, h, Checked.bind_error]
      have hscaled : c.scaled v = .error fault := by rw [scaled, h, Checked.bind_error]
      exact ⟨hplus, hplus, hscaled, hscaled⟩
    · intro x h
      have hplus := plus_eq hv h c
      have hscaled := scaled_eq hv h c
      exact ⟨_, _, _, _, hplus, hplus, same_self _, hscaled, hscaled,
        iff_of_true (same_self _) hclash⟩

/-- Nothing times infinity is nothing on either side. -/
theorem operands_commute_infinite : IsOperand (.cardinality (known 0)) ∧
    operand (.cardinality (known 0)) = .ok 0 ∧
    ∃ q, infinite.scaled (.cardinality (known 0)) = .ok (known 0) ∧
      scaling (.cardinality (known 0)) infinite = .ok q ∧ (known 0).same q = true := by
  have hv : IsOperand (.cardinality (known 0)) := .inl ⟨_, rfl⟩
  obtain ⟨s, t, p, q, -, -, -, hp, hq, hsame⟩ := (operands_commute infinite hv).2 0 rfl
  have hempty : infinite.scaled (.cardinality (known 0)) = .ok (known 0) := rfl
  cases hp.symm.trans hempty
  exact ⟨hv, rfl, q, hempty, hq, hsame.2 (by simp [Clashes])⟩

/-- An empty size times an unknown one is empty, but an unknown size times an empty one is not. -/
theorem not_operands_commute : ¬∀ (c : Cardinality) (v : Value), IsOperand v →
    ∃ p q, c.scaled v = .ok p ∧ scaling v c = .ok q ∧ p.same q = true := by
  intro h
  obtain ⟨p, q, hp, hq, hsame⟩ := h (known 0) (.cardinality unknown) (.inl ⟨_, rfl⟩)
  have hempty : (known 0).scaled (.cardinality unknown) = .ok (known 0) := rfl
  have hunknown : scaling (.cardinality unknown) (known 0) = .ok unknown := rfl
  cases hp.symm.trans hempty
  cases hq.symm.trans hunknown
  cases hsame

end Cardinality
end JoinOrder
