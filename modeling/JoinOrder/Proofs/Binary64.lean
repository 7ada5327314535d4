import Mathlib.Algebra.Order.Ring.Rat
import Mathlib.Data.Nat.Log
import Mathlib.Data.Rat.Cast.Order
import Mathlib.Tactic.NormNum
import Mathlib.Tactic.Positivity
import JoinOrder.Number

/-!
# Whole numbers in double precision

Integers up to `2 ^ 53` are represented exactly, so sums and products that stay below are exact as
well. Rounding does not cross powers of two, so that far greater integers still have a finite
nearest number.
-/

namespace JoinOrder

/-! ## Integers as dyadic numbers -/

@[simp] theorem toRat_ofInt (n : Int) : (Dyadic.ofInt n).toRat = n := Dyadic.toRat_intCast n

theorem ofInt_inj {m n : Int} : Dyadic.ofInt m = Dyadic.ofInt n ↔ m = n := by
  rw [← Dyadic.toRat_inj, toRat_ofInt, toRat_ofInt, Rat.intCast_inj]

theorem ofInt_lt {m n : Int} : Dyadic.ofInt m < Dyadic.ofInt n ↔ m < n := by
  rw [← Dyadic.toRat_lt_toRat_iff, toRat_ofInt, toRat_ofInt, Rat.intCast_lt_intCast]

theorem ofInt_mul (m n : Int) : Dyadic.ofInt m * Dyadic.ofInt n = Dyadic.ofInt (m * n) := by
  rw [← Dyadic.toRat_inj, Dyadic.toRat_mul, toRat_ofInt, toRat_ofInt, toRat_ofInt,
    Rat.intCast_mul]

theorem neg_ofInt (n : Int) : -Dyadic.ofInt n = Dyadic.ofInt (-n) := by
  rw [← Dyadic.toRat_inj, Dyadic.toRat_neg, toRat_ofInt, toRat_ofInt, Rat.intCast_neg]

/-- An integer other than zero is an odd number times a power of two. -/
theorem ofInt_eq_ofOdd {n : Int} (hn : n ≠ 0) : ∃ (m : Int) (j : Nat) (hm : m % 2 = 1),
    Dyadic.ofInt n = .ofOdd m (-j) hm ∧ n = m * 2 ^ j := by
  refine ⟨n >>> n.trailingZeros, n.trailingZeros, Int.shiftRight_trailingZeros_mod_two hn, ?_, ?_⟩
  · simp only [Dyadic.ofInt, Dyadic.ofIntWithPrec, hn, dif_neg, not_false_iff, Int.zero_sub]
  · rw [Int.shiftRight_eq_div_pow]
    exact (Int.ediv_mul_cancel (Int.two_pow_trailingZeros_dvd hn)).symm

namespace Binary64

theorem floorDyadic_ofInt (n : Int) : floorDyadic (Dyadic.ofInt n) = n := by
  by_cases hn : n = 0
  · subst hn
    rfl
  · obtain ⟨m, j, hm, he, rfl⟩ := ofInt_eq_ofOdd hn
    rw [he, floorDyadic]
    split
    · next hj =>
      have hj0 : j = 0 := by omega
      simp [hj0]
    · rw [Int.neg_neg, Int.toNat_natCast, Int.shiftLeft_eq]

theorem ceil_ofInt (n : Int) : ceil (.finite (Dyadic.ofInt n)) = n := by
  rw [ceil, value, neg_ofInt, floorDyadic_ofInt, Int.neg_neg]

theorem floorDyadic_le (d : Dyadic) : (floorDyadic d : Rat) ≤ d.toRat := by
  cases d with
  | zero => exact le_refl _
  | ofOdd n k hn =>
    rw [floorDyadic, Dyadic.toRat_ofOdd_eq_mul_two_pow]
    split
    · next hk =>
      obtain ⟨j, rfl⟩ := Int.eq_ofNat_of_zero_le hk
      rw [Int.toNat_natCast, Int.shiftRight_eq_div_pow, zpow_neg, zpow_natCast, ← div_eq_mul_inv,
        le_div_iff₀ (by positivity)]
      exact_mod_cast Int.ediv_mul_le n (by positivity)
    · obtain ⟨j, hj⟩ := Int.eq_ofNat_of_zero_le (show 0 ≤ -k by omega)
      rw [hj, Int.toNat_natCast, Int.shiftLeft_eq, zpow_natCast, Int.cast_mul]
      exact_mod_cast le_refl _

theorem le_ceil (x : Binary64) : x.value.toRat ≤ x.ceil := by
  have h := floorDyadic_le (-x.value)
  rw [Dyadic.toRat_neg] at h
  rw [ceil, Int.cast_neg]
  exact le_neg_of_le_neg h

/-! ## Exact integers -/

/-- Integers of at most 53 binary digits are not rounded. -/
theorem roundFinite_ofInt {n : Int} (h : n.natAbs ≤ 2 ^ 53) :
    roundFinite (Dyadic.ofInt n) = Dyadic.ofInt n := by
  by_cases hn : n = 0
  · subst hn
    rfl
  · obtain ⟨m, j, hm, he, rfl⟩ := ofInt_eq_ofOdd hn
    rw [he, roundFinite, if_pos]
    have hm' : m.natAbs < 2 ^ 53 := by
      rw [Int.natAbs_mul, Int.natAbs_pow] at h
      have hle : m.natAbs ≤ m.natAbs * Int.natAbs 2 ^ j :=
        Nat.le_mul_of_pos_right _ (Nat.pow_pos (by decide))
      omega
    have hlog : m.natAbs.log2 ≤ 52 := by
      have := (Nat.log2_lt (by omega)).2 hm'
      omega
    simp only [places, leadingExponent]
    omega

/-! ## Rounding -/

section

variable {n k e : Int} {hn : n % 2 = 1} {d : Dyadic}

theorem toRat_ofOdd_pos : 0 < (Dyadic.ofOdd n k hn).toRat ↔ 0 < n := by
  rw [Dyadic.toRat_ofOdd_eq_mul_two_pow, mul_pos_iff_of_pos_right (zpow_pos (by decide) _),
    Int.cast_pos]

/-- A number is at least the power of two at its leading digit, and less than the next one. -/
theorem leadingExponent_bounds : 2 ^ leadingExponent n k ≤ |(Dyadic.ofOdd n k hn).toRat| ∧
    |(Dyadic.ofOdd n k hn).toRat| < 2 ^ (leadingExponent n k + 1) := by
  have hpow : (0 : Rat) < 2 ^ (-k) := zpow_pos (by decide) _
  have habs : |(Dyadic.ofOdd n k hn).toRat| = n.natAbs * 2 ^ (-k) := by
    rw [Dyadic.toRat_ofOdd_eq_mul_two_pow, abs_mul, abs_of_pos hpow, ← Int.cast_abs,
      Int.abs_eq_natAbs, Int.cast_natCast]
  have hlow : (2 : Rat) ^ (n.natAbs.log2 : Int) ≤ n.natAbs := by
    rw [zpow_natCast]
    exact_mod_cast Nat.log2_self_le (show n.natAbs ≠ 0 by omega)
  have hhigh : (n.natAbs : Rat) < 2 ^ ((n.natAbs.log2 : Int) + 1) := by
    have hlt : n.natAbs < 2 ^ (n.natAbs.log2 + 1) := Nat.lt_log2_self
    exact_mod_cast hlt
  rw [habs, leadingExponent]
  constructor
  · rw [sub_eq_add_neg, zpow_add₀ (by decide)]
    exact mul_le_mul_of_nonneg_right hlow (le_of_lt hpow)
  · rw [sub_add_eq_add_sub, sub_eq_add_neg, zpow_add₀ (by decide)]
    exact mul_lt_mul_of_pos_right hhigh hpow

theorem leadingExponent_lt (h : |(Dyadic.ofOdd n k hn).toRat| < 2 ^ e) : leadingExponent n k < e :=
  (zpow_lt_zpow_iff_right₀ one_lt_two).1 (lt_of_le_of_lt leadingExponent_bounds.1 h)

theorem le_leadingExponent (h : 2 ^ e ≤ |(Dyadic.ofOdd n k hn).toRat|) :
    e ≤ leadingExponent n k :=
  Int.le_of_lt_add_one
    ((zpow_lt_zpow_iff_right₀ one_lt_two).1 (lt_of_le_of_lt h leadingExponent_bounds.2))

/-- The nearest integer is one of the two around. -/
theorem shiftNearest_bounds (n : Int) (drop : Nat) :
    n >>> drop ≤ shiftNearest n drop ∧ shiftNearest n drop ≤ n >>> drop + 1 := by
  unfold shiftNearest
  dsimp only
  split
  · omega
  split
  · omega
  split
  · omega
  · omega

/-- Dropping digits keeps the leading one, as long as it is not dropped, and carries at most to the
next one. -/
theorem shiftNearest_digits {n : Nat} (hn : n ≠ 0) (drop : Nat) :
    (drop ≤ n.log2 → (2 : Int) ^ (n.log2 - drop) ≤ shiftNearest n drop) ∧
      shiftNearest n drop ≤ 2 ^ (n.log2 + 1 - drop) := by
  have hshift : (n : Int) >>> drop = (n / 2 ^ drop : Nat) := by
    rw [Int.shiftRight_eq_div_pow]
    rfl
  obtain ⟨hlow, hhigh⟩ := shiftNearest_bounds n drop
  rw [hshift] at hlow hhigh
  constructor
  · intro hd
    have : 2 ^ (n.log2 - drop) ≤ n / 2 ^ drop := by
      rw [Nat.le_div_iff_mul_le (Nat.two_pow_pos _), ← Nat.pow_add, Nat.sub_add_cancel hd]
      exact Nat.log2_self_le hn
    exact Int.le_trans (by exact_mod_cast this) hlow
  · have : n / 2 ^ drop < 2 ^ (n.log2 + 1 - drop) := by
      rw [Nat.div_lt_iff_lt_mul (Nat.two_pow_pos _), ← Nat.pow_add]
      exact Nat.lt_of_lt_of_le Nat.lt_log2_self (Nat.pow_le_pow_right (by decide) (by omega))
    exact Int.le_trans hhigh (by exact_mod_cast this)

theorem roundFinite_nonneg (h : 0 ≤ d.toRat) : 0 ≤ (roundFinite d).toRat := by
  cases d with
  | zero => exact h
  | ofOdd n k hn =>
    rw [roundFinite]
    split
    · exact h
    have hn0 : 0 ≤ n := by
      rw [Dyadic.toRat_ofOdd_eq_mul_two_pow] at h
      exact Int.cast_nonneg_iff.1 (nonneg_of_mul_nonneg_left h (zpow_pos (by decide) _))
    have hs : 0 ≤ n >>> (k - places (leadingExponent n k)).toNat := by
      rw [Int.shiftRight_eq_div_pow]
      positivity
    rw [Dyadic.toRat_ofIntWithPrec_eq_mul_two_pow]
    refine mul_nonneg ?_ (zpow_nonneg (by decide) _)
    exact_mod_cast Int.le_trans hs (shiftNearest_bounds _ _).1

/-- Rounding does not go below a power of two. -/
theorem two_pow_le_roundFinite (he : -1074 ≤ e) (h : 2 ^ e ≤ d.toRat) :
    2 ^ e ≤ (roundFinite d).toRat := by
  cases d with
  | zero => exact h
  | ofOdd n k hn =>
    have hpos := lt_of_lt_of_le (zpow_pos (by decide) _) h
    have hlead := le_leadingExponent (abs_of_pos hpos ▸ h)
    have hn0 : 0 < n := toRat_ofOdd_pos.1 hpos
    obtain ⟨n, rfl⟩ := Int.eq_ofNat_of_zero_le (Int.le_of_lt hn0)
    rw [roundFinite]
    split
    · exact h
    next hk =>
    simp only [leadingExponent, Int.natAbs_natCast, not_le] at hk hlead ⊢
    generalize hp : places ((n.log2 : Int) - k) = p at hk ⊢
    have hp' : -p ≤ (n.log2 : Int) - k := by
      rw [places] at hp
      omega
    -- The leading digit stays.
    have hd : (k - p).toNat ≤ n.log2 := by omega
    have hs := (shiftNearest_digits (by omega) (k - p).toNat).1 hd
    rw [Dyadic.toRat_ofIntWithPrec_eq_mul_two_pow]
    calc (2 : Rat) ^ e ≤ 2 ^ ((n.log2 : Int) - k) := zpow_le_zpow_right₀ (by decide) hlead
      _ = 2 ^ (((n.log2 - (k - p).toNat : Nat) : Int) + -p) := by
        congr 1
        omega
      _ = ((2 ^ (n.log2 - (k - p).toNat) : Int) : Rat) * 2 ^ (-p) := by
        rw [zpow_add₀ (by decide), zpow_natCast]
        norm_cast
      _ ≤ (shiftNearest n (k - p).toNat : Rat) * 2 ^ (-p) :=
        mul_le_mul_of_nonneg_right (by exact_mod_cast hs) (zpow_nonneg (by decide) _)

/-- Rounding does not go above a power of two. -/
theorem roundFinite_le_two_pow (he : -1074 ≤ e) (h0 : 0 ≤ d.toRat) (h : d.toRat < 2 ^ e) :
    (roundFinite d).toRat ≤ 2 ^ e := by
  cases d with
  | zero => exact le_of_lt h
  | ofOdd n k hn =>
    have hlead := leadingExponent_lt (abs_of_nonneg h0 ▸ h)
    have hn0 : 0 ≤ n := by
      rw [Dyadic.toRat_ofOdd_eq_mul_two_pow] at h0
      exact Int.cast_nonneg_iff.1 (nonneg_of_mul_nonneg_left h0 (zpow_pos (by decide) _))
    obtain ⟨n, rfl⟩ := Int.eq_ofNat_of_zero_le hn0
    rw [roundFinite]
    split
    · exact le_of_lt h
    next hk =>
    simp only [leadingExponent, Int.natAbs_natCast, not_le] at hk hlead ⊢
    generalize hp : places ((n.log2 : Int) - k) = p at hk ⊢
    have hn' : n ≠ 0 := by
      rintro rfl
      cases hn
    have hs := (shiftNearest_digits hn' (k - p).toNat).2
    -- Where all digits are dropped, the result is at most the last place.
    have hlast : ((n.log2 + 1 - (k - p).toNat : Nat) : Int) + -p ≤ e := by
      rw [places] at hp
      omega
    rw [Dyadic.toRat_ofIntWithPrec_eq_mul_two_pow]
    calc (shiftNearest n (k - p).toNat : Rat) * 2 ^ (-p)
        ≤ ((2 ^ (n.log2 + 1 - (k - p).toNat) : Int) : Rat) * 2 ^ (-p) :=
        mul_le_mul_of_nonneg_right (by exact_mod_cast hs) (zpow_nonneg (by decide) _)
      _ = 2 ^ (((n.log2 + 1 - (k - p).toNat : Nat) : Int) + -p) := by
        rw [zpow_add₀ (by decide), zpow_natCast]
        norm_cast
      _ ≤ 2 ^ e := zpow_le_zpow_right₀ (by decide) hlast

/-! ## Finite integers -/

/-- A number below `2 ^ 1024` is in range. -/
theorem not_overflows (h : |d.toRat| < 2 ^ 1024) : overflows d = false := by
  cases d with
  | zero => rfl
  | ofOdd n k hn =>
    rw [← zpow_natCast] at h
    exact decide_eq_false (Int.not_le.2 (leadingExponent_lt h))

end

/-- A count of things in memory has a finite nearest number. -/
theorem ofInt?_isSome {n : Nat} (h : n < 2 ^ 63) : (ofInt? n).isSome := by
  have hn : 0 ≤ (Dyadic.ofInt n).toRat := by
    rw [toRat_ofInt]
    exact Nat.cast_nonneg n
  have hlt : (Dyadic.ofInt n).toRat < 2 ^ (63 : Int) := by
    rw [toRat_ofInt]
    exact_mod_cast h
  have hround : |(roundFinite (Dyadic.ofInt n)).toRat| < 2 ^ 1024 := by
    rw [abs_of_nonneg (roundFinite_nonneg hn), ← zpow_natCast]
    exact lt_of_le_of_lt (roundFinite_le_two_pow (by decide) hn hlt)
      (zpow_lt_zpow_right₀ one_lt_two (by decide))
  rw [ofInt?, ofInt, round]
  split
  · next x hx =>
    split at hx
    · cases hx
    · rw [if_neg (by simp [not_overflows hround])] at hx
      cases hx
  · rfl

end Binary64

/-! ## Comparing integers -/

theorem Number.eq_int (m n : Int) : (Number.int m).eq (.int n) = decide (m = n) := by
  simp only [Number.eq, exact, Binary64.eq, Binary64.value, ofInt_inj]

theorem Number.lt_int (m n : Int) : (Number.int m).lt (.int n) = decide (m < n) := by
  simp only [Number.lt, exact, Binary64.lt, Binary64.value, ofInt_lt]

theorem Number.le_int (m n : Int) : (Number.int m).le (.int n) = decide (m ≤ n) := by
  have hlt : (Number.int m).exact.lt (Number.int n).exact = decide (m < n) := lt_int m n
  have heq : (Number.int m).exact.eq (Number.int n).exact = decide (m = n) := eq_int m n
  rw [Number.le, Binary64.le, hlt, heq, ← Bool.decide_or, decide_eq_decide, Int.le_iff_lt_or_eq]

end JoinOrder
