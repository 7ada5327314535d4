import JoinOrder.Cardinality.Checked
import JoinOrder.Proofs.Binary64

/-!
# Products of sizes

Sizes are multiplied as double-precision numbers. A product of at most 53 binary digits is exact,
and so is a product of several factors if all products on the way are (`Multiplies`).
-/

namespace JoinOrder

namespace Binary64

theorem ofInt_ne_zero {n : Int} (h : n ≠ 0) : Dyadic.ofInt n ≠ .zero := fun hz =>
  h (ofInt_inj.1 (hz.trans (rfl : Dyadic.zero = Dyadic.ofInt 0)))

/-- Integers of at most 53 binary digits are not rounded. -/
theorem round_ofInt {n : Nat} (h : n ≤ 2 ^ 53) (hn : n ≠ 0) (negative : Bool) :
    round negative (Dyadic.ofInt n) = .finite (.ofInt n) := by
  have hround : roundFinite (Dyadic.ofInt n) = Dyadic.ofInt n :=
    roundFinite_ofInt (by rwa [Int.natAbs_natCast])
  have hover : overflows (Dyadic.ofInt n) = false := by
    refine not_overflows ?_
    rw [toRat_ofInt, Int.cast_natCast, Nat.abs_cast]
    calc (n : Rat) ≤ 2 ^ 53 := by exact_mod_cast h
      _ < 2 ^ 1024 := pow_lt_pow_right₀ (by decide) (by decide)
  simp only [round, hround, ofInt_ne_zero (Int.natCast_ne_zero.2 hn), if_false, hover,
    Bool.false_eq_true]

theorem ofInt_eq {n : Nat} (h : n ≤ 2 ^ 53) : ofInt n = .finite (.ofInt n) := by
  by_cases hn : n = 0
  · subst hn
    rfl
  · exact round_ofInt h hn false

end Binary64

namespace Cardinality

variable {m n : Nat} {c size x y : Cardinality} {factors : List Cardinality}

/-- A number is taken as it is, if it is taken at all. -/
theorem ofValue_eq_known (h : ofValue (.ofNat n) = .ok c) : c = known n := by
  have hn : ¬(n : Int) < 0 := by omega
  simp only [Value.ofNat, ofValue, Value.number?, ofNumber, Number.lt_int, hn, decide_false,
    Bool.false_eq_true, if_false, Int.toNat_natCast] at h
  split at h
  · cases h
    rfl
  · cases h

/-- A number that has a nearest number is a size. -/
theorem ofValue_of_isSome (h : (Binary64.ofInt? n).isSome = true) :
    ofValue (.ofNat n) = .ok (known n) := by
  have hn : ¬(n : Int) < 0 := by omega
  simp only [Value.ofNat, ofValue, Value.number?, ofNumber, Number.lt_int, hn, decide_false,
    Bool.false_eq_true, if_false, h, if_true, Int.toNat_natCast]

theorem mul_eq (c d : Cardinality) : c * d = ofBinary64 (c.times d.toBinary64) := rfl

/-- A product that can be represented is exact. -/
theorem known_mul_known (h : m * n ≤ 2 ^ 53) : known m * known n = known (m * n) := by
  by_cases hm : m = 0
  · subst hm
    rw [Nat.zero_mul]
    rfl
  by_cases hn : n = 0
  · subst hn
    have hz : (known 0).toBinary64.isZero = true := rfl
    rw [mul_eq, times, if_pos (by simp [hz]), Nat.mul_zero]
    rfl
  have hm' : m ≤ 2 ^ 53 := Nat.le_trans (Nat.le_mul_of_pos_right m (by omega)) h
  have hn' : n ≤ 2 ^ 53 := Nat.le_trans (Nat.le_mul_of_pos_left n (by omega)) h
  have hz : (Binary64.finite (.ofInt n)).isZero = false := by
    rw [Binary64.isZero, Binary64.value,
      decide_eq_false (Binary64.ofInt_ne_zero (Int.natCast_ne_zero.2 hn)), Bool.and_false]
  have hc : known m ≠ known 0 := by simpa using hm
  rw [mul_eq, times, toBinary64, toBinary64, Binary64.ofInt_eq hm', Binary64.ofInt_eq hn', hz]
  simp only [hc, decide_false, Bool.false_and, Bool.or_false, Bool.false_eq_true, if_false]
  change ofBinary64 (Binary64.round _ (Dyadic.ofInt m * Dyadic.ofInt n)) = _
  rw [ofInt_mul, ← Int.natCast_mul, Binary64.round_ofInt h (Nat.mul_ne_zero hm hn)]
  change known (Binary64.ceil _).toNat = _
  rw [Binary64.ceil_ofInt, Int.toNat_natCast]

/-! ## Bounds -/

/-- A size bounds a number: it is unbounded, or known and no less. -/
def Bounds (c : Cardinality) (n : Nat) : Prop := c = infinite ∨ ∃ m, c = known m ∧ n ≤ m

theorem Bounds.mono (h : c.Bounds n) (hm : m ≤ n) : c.Bounds m := by
  rcases h with rfl | ⟨k, rfl, hle⟩
  · exact .inl rfl
  · exact .inr ⟨k, rfl, Nat.le_trans hm hle⟩

theorem Bounds.ne_unknown (h : c.Bounds n) : c ≠ unknown := by
  rcases h with rfl | ⟨k, rfl, -⟩ <;> exact Cardinality.noConfusion

/-! ## Products of several factors -/

/-- Some factors are multiplied one after the other, and `x` by `y` on the way. -/
def Multiplies (size : Cardinality) (factors : List Cardinality) (x y : Cardinality) : Prop :=
  ∃ before behind, factors = before ++ y :: behind ∧ x = before.foldl (· * ·) size

theorem Multiplies.cons (h : Multiplies (size * c) factors x y) :
    Multiplies size (c :: factors) x y := by
  obtain ⟨before, behind, rfl, rfl⟩ := h
  exact ⟨c :: before, behind, rfl, rfl⟩

/-- A product is exact if all products on the way can be represented. -/
theorem foldl_known {sizes : List Nat}
    (h : ∀ x y, Multiplies (known m) (sizes.map known) (known x) (known y) → x * y ≤ 2 ^ 53) :
    (sizes.map known).foldl (· * ·) (known m) = known (m * sizes.prod) := by
  induction sizes generalizing m with
  | nil => rw [List.map_nil, List.foldl_nil, List.prod_nil, Nat.mul_one]
  | cons n sizes ih =>
    rw [List.map_cons] at h
    have hmul := known_mul_known (h m n ⟨[], _, rfl, rfl⟩)
    rw [List.map_cons, List.foldl_cons, hmul, ih, List.prod_cons, Nat.mul_assoc]
    exact fun x y hxy => h x y (.cons (hmul ▸ hxy))

end Cardinality
end JoinOrder
