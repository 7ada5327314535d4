import Mathlib.Order.WithBot
import JoinOrder.Proofs.Binary64

/-!
# Magnitudes

Sizes and costs are numbers that are not negative (`Binary64.Nonneg`). Sums of such numbers are
never undefined, and products only where zero meets infinity. A product does not vanish by rounding
as long as one factor is at least one.
-/

namespace JoinOrder
namespace Binary64

variable {x y : Binary64} {d : Dyadic}

/-! ## Signs -/

theorem isNegativeDyadic_eq (d : Dyadic) : isNegativeDyadic d = decide (d.toRat < 0) := by
  cases d with
  | zero => rfl
  | ofOdd n k hn =>
    have hpow : (0 : Rat) < 2 ^ (-k) := zpow_pos (by decide) _
    rw [isNegativeDyadic, decide_eq_decide, Dyadic.toRat_ofOdd_eq_mul_two_pow,
      ← zero_mul ((2 : Rat) ^ (-k)), mul_lt_mul_iff_left₀ hpow, Int.cast_lt_zero]

theorem toRat_eq_zero : d.toRat = 0 ↔ d = .zero := by
  rw [← Dyadic.toRat_inj]
  rfl

/-! ## Rounding -/

/-- A number above zero that is not changed by rounding is not below the least one. -/
theorem two_pow_le_of_roundFinite (h : roundFinite d = d) (hd : 0 < d.toRat) :
    2 ^ (-1074 : Int) ≤ d.toRat := by
  -- A multiple of a power of two is at least that power.
  have hmul : ∀ (n p : Int), 0 < (n : Rat) * 2 ^ (-p) → p ≤ 1074 →
      (2 : Rat) ^ (-1074 : Int) ≤ n * 2 ^ (-p) := by
    intro n p hpos hp
    have hn : 0 < n := Int.cast_pos.1 ((mul_pos_iff_of_pos_right (zpow_pos (by decide) _)).1 hpos)
    calc (2 : Rat) ^ (-1074 : Int) ≤ 2 ^ (-p) := zpow_le_zpow_right₀ (by decide) (by omega)
      _ ≤ n * 2 ^ (-p) := le_mul_of_one_le_left (zpow_nonneg (by decide) _) (by exact_mod_cast hn)
  have hplaces : ∀ e, places e ≤ 1074 := fun e => by
    rw [places]
    omega
  cases d with
  | zero => exact (lt_irrefl _ hd).elim
  | ofOdd n k hn =>
    rw [roundFinite] at h
    split at h
    · next hk =>
      rw [Dyadic.toRat_ofOdd_eq_mul_two_pow] at hd ⊢
      exact hmul n k hd (Int.le_trans hk (hplaces _))
    · rw [← h, Dyadic.toRat_ofIntWithPrec_eq_mul_two_pow] at hd ⊢
      exact hmul _ _ hd (hplaces _)

/-! ## Numbers that are not negative -/

/-- The number is defined and not below zero. -/
def Nonneg : Binary64 → Prop
  | nan => False
  | infinity negative => negative = false
  | negativeZero => True
  | finite d => 0 ≤ d.toRat

theorem Nonneg.ne_nan (h : x.Nonneg) : x ≠ nan := by
  rintro rfl
  exact h

theorem Nonneg.value (h : x.Nonneg) : 0 ≤ x.value.toRat := by
  cases x with
  | finite => exact h
  | _ => exact le_refl _

theorem Nonneg.isNegative (h : x.Nonneg) (hz : x.isZero = false) : x.isNegative = false := by
  cases x with
  | nan => rfl
  | infinity => exact h
  | negativeZero => cases hz
  | finite d => rw [Binary64.isNegative, isNegativeDyadic_eq, decide_eq_false (not_lt_of_ge h)]

/-- Rounding a number that is not negative gives such a number. -/
theorem nonneg_round (h : 0 ≤ d.toRat) (negative : Bool) : (round negative d).Nonneg := by
  have hr := roundFinite_nonneg h
  unfold round
  dsimp only
  split
  · cases negative
    · exact le_refl _
    · trivial
  split
  · rw [Nonneg, isNegativeDyadic_eq, decide_eq_false (not_lt_of_ge hr)]
  · exact hr

theorem Nonneg.add (hx : x.Nonneg) (hy : y.Nonneg) : (x + y).Nonneg := by
  have hsum : 0 ≤ (x.value + y.value).toRat := by
    rw [Dyadic.toRat_add]
    exact add_nonneg hx.value hy.value
  change (Binary64.add x y).Nonneg
  cases x with
  | nan => exact hx.elim
  | infinity a =>
    cases hx
    cases y with
    | nan => exact hy.elim
    | infinity b =>
      cases hy
      rfl
    | _ => rfl
  | negativeZero =>
    cases y with
    | nan => exact hy.elim
    | infinity b => exact hy
    | negativeZero => trivial
    | finite => exact nonneg_round hsum false
  | finite =>
    cases y with
    | nan => exact hy.elim
    | infinity b => exact hy
    | _ => exact nonneg_round hsum false

theorem Nonneg.isNaN (h : x.Nonneg) : x.isNaN = false := by
  cases x with
  | nan => exact h.elim
  | _ => rfl

/-- How numbers above zero are multiplied. -/
theorem Nonneg.mul_eq (hx : x.Nonneg) (hy : y.Nonneg) (hzx : x.isZero = false)
    (hzy : y.isZero = false) : x * y =
      if x.isInfinite || y.isInfinite then infinity false else round false (x.value * y.value) := by
  change Binary64.mul x y = _
  rw [Binary64.mul, hx.isNaN, hy.isNaN, hzx, hzy, hx.isNegative hzx, hy.isNegative hzy]
  simp only [Bool.or_self, Bool.false_eq_true, if_false, bne_self_eq_false]

/-- A product is undefined only where zero meets infinity. -/
theorem Nonneg.mul (hx : x.Nonneg) (hy : y.Nonneg) (hzx : x.isZero = false)
    (hzy : y.isZero = false) :
    (x * y).Nonneg := by
  rw [hx.mul_eq hy hzx hzy]
  split
  · rfl
  · refine nonneg_round ?_ false
    rw [Dyadic.toRat_mul]
    exact mul_nonneg hx.value hy.value

/-- Whether a number is at least a power of two. -/
def AtLeast (x : Binary64) (e : Int) : Prop :=
  match x with
  | infinity negative => negative = false
  | finite d => 2 ^ e ≤ d.toRat
  | _ => False

theorem AtLeast.nonneg {e : Int} (h : x.AtLeast e) : x.Nonneg := by
  cases x with
  | finite d => exact le_trans (zpow_nonneg (by decide) _) h
  | infinity => exact h
  | _ => exact h.elim

theorem AtLeast.isZero {e : Int} (h : x.AtLeast e) : x.isZero = false := by
  cases x with
  | finite d =>
    have hd : d ≠ .zero := fun hz =>
      (ne_of_gt (lt_of_lt_of_le (zpow_pos (by decide) e) h)) (toRat_eq_zero.2 hz)
    rw [Binary64.isZero, Binary64.value, decide_eq_false hd, Bool.and_false]
  | infinity => rfl
  | _ => exact h.elim

theorem atLeast_round {e : Int} (he : -1074 ≤ e) (h : 2 ^ e ≤ d.toRat) (negative : Bool) :
    (round negative d).AtLeast e := by
  have hr := two_pow_le_roundFinite he h
  have hpos := lt_of_lt_of_le (zpow_pos (by decide : (0 : Rat) < 2) e) hr
  unfold round
  dsimp only
  rw [if_neg fun hz => (ne_of_gt hpos) (toRat_eq_zero.2 hz)]
  split
  · rw [AtLeast, isNegativeDyadic_eq, decide_eq_false (not_lt_of_ge (le_of_lt hpos))]
  · exact hr

theorem AtLeast.value {e : Int} (h : x.AtLeast e) (hx : x.isInfinite = false) :
    2 ^ e ≤ x.value.toRat := by
  cases x with
  | finite => exact h
  | infinity => cases hx
  | _ => exact h.elim

/-- A product is at least the product of the powers of two that its factors are at least. -/
theorem AtLeast.mul {e e' : Int} (he : -1074 ≤ e + e') (hx : x.AtLeast e) (hy : y.AtLeast e') :
    (x * y).AtLeast (e + e') := by
  rw [hx.nonneg.mul_eq hy.nonneg hx.isZero hy.isZero]
  split
  · rfl
  next hfinite =>
  rw [Bool.or_eq_true, not_or] at hfinite
  obtain ⟨hfx, hfy⟩ := hfinite
  have hx' := hx.value (Bool.eq_false_iff.2 hfx)
  have hy' := hy.value (Bool.eq_false_iff.2 hfy)
  refine atLeast_round he ?_ false
  rw [Dyadic.toRat_mul, zpow_add₀ (by decide)]
  exact mul_le_mul hx' hy' (zpow_nonneg (by decide) _) hx.nonneg.value

theorem atLeast_ofInt {n e : Nat} (hn : 2 ^ e ≤ n) : (ofInt n).AtLeast e := by
  refine atLeast_round (by omega) ?_ false
  rw [toRat_ofInt, zpow_natCast]
  exact_mod_cast hn

/-! ## The order of defined numbers -/

/-- Where a defined number stands between the infinities. -/
def rank : Binary64 → WithBot (WithTop Rat)
  | nan => ⊥
  | infinity negative => if negative then ⊥ else ⊤
  | negativeZero => ((0 : Rat) : WithTop Rat)
  | finite d => ((d.toRat : Rat) : WithTop Rat)

theorem rank_of_isFinite (h : x.isFinite = true) :
    x.rank = ((x.value.toRat : WithTop Rat) : WithBot (WithTop Rat)) := by
  cases x with
  | nan => cases h
  | infinity => cases h
  | negativeZero => rfl
  | finite => rfl

/-- Apart from the undefined one, a number is finite or infinite. -/
theorem finite_or_infinite (h : x ≠ nan) :
    x.isFinite = true ∨ x = infinity false ∨ x = infinity true := by
  cases x with
  | nan => exact (h rfl).elim
  | infinity negative => cases negative <;> simp
  | negativeZero => exact .inl rfl
  | finite => exact .inl rfl

theorem compare_finite (hx : x.isFinite = true) (hy : y.isFinite = true) :
    x.lt y = decide (x.value < y.value) ∧ x.eq y = decide (x.value = y.value) := by
  cases x <;> cases y <;> first | exact ⟨rfl, rfl⟩ | exact (Bool.false_ne_true hx).elim |
    exact (Bool.false_ne_true hy).elim

theorem compare_infinity (hx : x.isFinite = true) (negative : Bool) :
    x.lt (infinity negative) = !negative ∧ (infinity negative).lt x = negative ∧
      x.eq (infinity negative) = false ∧ (infinity negative).eq x = false := by
  cases x <;> first | exact ⟨rfl, rfl, rfl, rfl⟩ | exact (Bool.false_ne_true hx).elim

/-- Defined numbers are compared by where they stand. -/
theorem compare_eq_rank (hx : x ≠ nan) (hy : y ≠ nan) :
    x.lt y = decide (x.rank < y.rank) ∧ x.eq y = decide (x.rank = y.rank) := by
  rcases finite_or_infinite hx with hx | rfl | rfl
  · rcases finite_or_infinite hy with hy | rfl | rfl
    · rw [(compare_finite hx hy).1, (compare_finite hx hy).2, rank_of_isFinite hx,
        rank_of_isFinite hy, decide_eq_decide, decide_eq_decide, WithBot.coe_lt_coe,
        WithTop.coe_lt_coe, Dyadic.toRat_lt_toRat_iff, WithBot.coe_inj, WithTop.coe_inj,
        Dyadic.toRat_inj]
      exact ⟨Iff.rfl, Iff.rfl⟩
    · have hlt : ((x.value.toRat : WithTop Rat) : WithBot (WithTop Rat)) < (infinity false).rank :=
        WithBot.coe_lt_coe.2 (WithTop.coe_lt_top _)
      rw [(compare_infinity hx false).1, (compare_infinity hx false).2.2.1, rank_of_isFinite hx,
        decide_eq_true hlt, decide_eq_false (ne_of_lt hlt)]
      exact ⟨rfl, rfl⟩
    · rw [(compare_infinity hx true).1, (compare_infinity hx true).2.2.1, rank_of_isFinite hx]
      simp [rank]
  all_goals
    rcases finite_or_infinite hy with hy | rfl | rfl
    · rw [(compare_infinity hy _).2.1, (compare_infinity hy _).2.2.2, rank_of_isFinite hy]
      simp [rank]
    all_goals simp [rank, Binary64.lt, Binary64.eq]

/-! ## Binary logarithms -/

/-- The logarithm of a number above one is not negative. -/
theorem nonneg_log2 (hx : (1 : Binary64).lt x = true) : x.log2.Nonneg := by
  cases x with
  | nan => cases hx
  | negativeZero => cases hx
  | infinity negative =>
    cases negative with
    | false => rfl
    | true => cases hx
  | finite d =>
    have hd : 1 < d.toRat := by
      have hlt : Dyadic.ofInt 1 < d := of_decide_eq_true hx
      simpa using Dyadic.toRat_lt_toRat_iff.2 hlt
    cases d with
    | zero => exact (not_lt_of_ge (zero_le_one (α := Rat)) hd).elim
    | ofOdd n k hn =>
      have hpos := lt_trans zero_lt_one hd
      have hn0 : 0 < n := toRat_ofOdd_pos.1 hpos
      have hone : 2 ^ (0 : Int) ≤ |(Dyadic.ofOdd n k hn).toRat| := by
        rw [abs_of_pos hpos, zpow_zero]
        exact le_of_lt hd
      have hlead := le_leadingExponent hone
      obtain ⟨n, rfl⟩ := Int.eq_ofNat_of_zero_le (Int.le_of_lt hn0)
      rw [log2, if_neg (Int.not_lt.2 (Int.le_of_lt hn0))]
      refine nonneg_round ?_ false
      rw [Dyadic.toRat_ofIntWithPrec_eq_mul_two_pow]
      refine mul_nonneg ?_ (zpow_nonneg (by decide) _)
      have hshift : 0 ≤ leadingExponent n k <<< (192 : Nat) := by
        rw [Int.shiftLeft_eq]
        exact Int.mul_nonneg hlead (by decide)
      exact Int.cast_nonneg (Int.add_nonneg hshift (Int.natCast_nonneg _))

end Binary64
end JoinOrder
