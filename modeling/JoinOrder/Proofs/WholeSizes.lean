import Mathlib.Data.Nat.Prime.Basic
import JoinOrder.Proofs.Arithmetic
import JoinOrder.Proofs.Numbers

/-!
# Sizes as whole numbers

A known size stands for a number of tuples, but it is compared and added as a double-precision
number. It behaves as the number of tuples does exactly if that has no more than 53 binary digits in
front of its zeros (`Cardinality.Exact`).
-/

namespace JoinOrder

namespace Binary64

/-- A whole number is rounded to a whole number. -/
theorem exists_roundFinite_ofInt (n : Int) : ∃ m : Int, roundFinite (.ofInt n) = .ofInt m := by
  by_cases hn : n = 0
  · exact ⟨0, by subst hn; rfl⟩
  obtain ⟨m, j, hm, he, -⟩ := ofInt_eq_ofOdd hn
  by_cases hp : -(j : Int) ≤ places (leadingExponent m (-j))
  · exact ⟨n, by rw [he, roundFinite, if_pos hp]⟩
  -- The last place that is kept is no fraction, as the number itself has none.
  obtain ⟨q, hq⟩ := Int.eq_ofNat_of_zero_le
    (show 0 ≤ -places (leadingExponent m (-j)) by omega)
  refine ⟨shiftNearest m (-j - places (leadingExponent m (-j))).toNat * 2 ^ q, ?_⟩
  rw [he, roundFinite, if_neg hp, ← Dyadic.toRat_inj, Dyadic.toRat_ofIntWithPrec_eq_mul_two_pow,
    toRat_ofInt, hq, zpow_natCast, Int.cast_mul, Int.cast_pow, Int.cast_ofNat]

/-- An odd number in front of zeros is rounded if it has more than 53 binary digits. -/
theorem roundFinite_ofOdd_iff {m : Int} {j : Nat} {hm : m % 2 = 1} :
    roundFinite (.ofOdd m (-j) hm) = .ofOdd m (-j) hm ↔ m.natAbs < 2 ^ 53 := by
  have hlog : m.natAbs < 2 ^ 53 ↔ m.natAbs.log2 ≤ 52 := by
    rw [← Nat.log2_lt (by omega)]
    omega
  rw [hlog, roundFinite]
  split
  · next hp =>
    rw [places, leadingExponent] at hp
    exact iff_of_true rfl (by omega)
  next hp =>
  refine iff_of_false (fun h => ?_) ?_
  · -- The kept part would end before the last digit, which is odd.
    obtain ⟨d, hd⟩ := Int.eq_ofNat_of_zero_le
      (show 0 ≤ -(j : Int) - places (leadingExponent m (-j)) - 1 by omega)
    rw [← Dyadic.toRat_inj, Dyadic.toRat_ofIntWithPrec_eq_mul_two_pow,
      Dyadic.toRat_ofOdd_eq_mul_two_pow,
      show -places (leadingExponent m (-j)) = ((d + 1 : Nat) : Int) + -(-j) by omega,
      zpow_add₀ (by decide), ← mul_assoc, mul_left_inj' (zpow_ne_zero _ (by decide)),
      zpow_natCast] at h
    generalize shiftNearest _ _ = s at h
    have hint : s * 2 ^ (d + 1) = m := by exact_mod_cast h
    rw [← hint, pow_succ, ← mul_assoc, Int.mul_emod_left] at hm
    cases hm
  · rw [places, leadingExponent] at hp
    omega

/-- A number above zero is kept if no digit is dropped and it is in range. -/
theorem round_eq_self_iff {d : Dyadic} (hd : 0 < d.toRat) :
    round false d = .finite d ↔ roundFinite d = d ∧ d.toRat < 2 ^ 1024 := by
  have hz : d ≠ .zero := fun h => (ne_of_gt hd) (toRat_eq_zero.2 h)
  have hover : overflows d = false ↔ d.toRat < 2 ^ 1024 := by
    refine ⟨fun h => lt_of_not_ge fun hge => ?_, fun h => not_overflows (by rwa [abs_of_pos hd])⟩
    cases d with
    | zero => exact hz rfl
    | ofOdd n k hn =>
      rw [← abs_of_pos hd] at hge
      exact of_decide_eq_false h (le_leadingExponent hge)
  rw [← hover]
  constructor
  · intro h
    have hround : roundFinite d = d := by
      rw [round] at h
      split at h
      · cases h
        exact (hz rfl).elim
      split at h
      · cases h
      · exact finite.inj h
    rw [round, hround, if_neg hz] at h
    refine ⟨hround, Bool.eq_false_iff.2 fun ho => ?_⟩
    rw [if_pos ho] at h
    cases h
  · rintro ⟨hround, ho⟩
    simp only [round, hround, if_neg hz, ho, Bool.false_eq_true, if_false]

/-- The number nearest to a whole number is whole as well, unless it is out of range. -/
theorem ofInt_cases (n : Nat) :
    ofInt n = infinity false ∨ ∃ m : Nat, ofInt n = .finite (.ofInt m) := by
  have hn : 0 ≤ (Dyadic.ofInt n).toRat := by
    rw [toRat_ofInt]
    exact Int.cast_nonneg (Int.natCast_nonneg n)
  have hnonneg := nonneg_round hn false
  obtain ⟨m, hm⟩ := exists_roundFinite_ofInt n
  have hm0 := roundFinite_nonneg hn
  rw [hm, toRat_ofInt, Int.cast_nonneg_iff] at hm0
  obtain ⟨m, rfl⟩ := Int.eq_ofNat_of_zero_le hm0
  rw [ofInt]
  unfold round at hnonneg ⊢
  rw [hm] at hnonneg ⊢
  dsimp only at hnonneg ⊢
  split
  · exact .inr ⟨0, rfl⟩
  next hz =>
  rw [if_neg hz] at hnonneg
  split
  · next ho =>
    rw [if_pos ho] at hnonneg
    exact .inl (congrArg _ hnonneg)
  · exact .inr ⟨m, rfl⟩

end Binary64

namespace Cardinality

variable {m n : Nat}

/-- A number of tuples with at most 53 binary digits in front of its zeros, which is in range. -/
def Exact (n : Nat) : Prop := n < 2 ^ 1024 ∧ ∃ m j : Nat, m < 2 ^ 53 ∧ n = m * 2 ^ j

theorem exact_of_lt (h : n < 2 ^ 53) : Exact n :=
  ⟨lt_trans h (pow_lt_pow_right₀ one_lt_two (by decide)), n, 0, h, (Nat.mul_one n).symm⟩

/-- The odd part of a number that is not zero is the least one in front of zeros. -/
theorem exact_iff_of_odd {k j : Nat} (hk : (k : Int) % 2 = 1) (hn : n = k * 2 ^ j) :
    Exact n ↔ n < 2 ^ 1024 ∧ k < 2 ^ 53 := by
  refine and_congr_right fun _ => ⟨?_, fun h => ⟨k, j, h, hn⟩⟩
  rintro ⟨m, i, hm, hmi⟩
  have hdvd : k ∣ m * 2 ^ i := ⟨2 ^ j, hmi.symm.trans hn⟩
  have hcop : Nat.Coprime k (2 ^ i) :=
    Nat.Coprime.pow_right i (Nat.coprime_two_right.2 (Nat.odd_iff.2 (by omega)))
  rcases Nat.eq_zero_or_pos m with rfl | hpos
  · rw [Nat.zero_mul] at hmi
    have hpow := Nat.two_pow_pos j
    rcases Nat.mul_eq_zero.1 (hn.symm.trans hmi) with h | h <;> omega
  · exact Nat.lt_of_le_of_lt (Nat.le_of_dvd hpos (hcop.dvd_of_dvd_mul_right hdvd)) hm

/-- These numbers are the ones that double precision represents. -/
theorem exact_iff : Exact n ↔ Binary64.ofInt n = .finite (.ofInt n) := by
  by_cases hn : n = 0
  · subst hn
    exact iff_of_true (exact_of_lt (by decide)) rfl
  obtain ⟨m, j, hm, he, hmul⟩ := ofInt_eq_ofOdd (Int.natCast_ne_zero.2 hn)
  have hpos : 0 < (Dyadic.ofInt n).toRat := by
    rw [toRat_ofInt]
    exact_mod_cast Nat.pos_of_ne_zero hn
  obtain ⟨k, rfl⟩ := Int.eq_ofNat_of_zero_le (Int.le_of_lt (Binary64.toRat_ofOdd_pos.1 (he ▸ hpos)))
  have hrange : (Dyadic.ofInt n).toRat < 2 ^ 1024 ↔ n < 2 ^ 1024 := by
    rw [toRat_ofInt, Int.cast_natCast, ← Nat.cast_two, ← Nat.cast_pow, Nat.cast_lt]
  rw [Binary64.ofInt, Binary64.round_eq_self_iff hpos, hrange, he, Binary64.roundFinite_ofOdd_iff,
    exact_iff_of_odd hm (by exact_mod_cast hmul), and_comm, Int.natAbs_natCast]

/-! ## Comparisons -/

/-- A size and a value compare as two numbers do, whichever of them stands on the left. -/
structure ComparesAs (c : Cardinality) (v : Value) (m n : Nat) : Prop where
  eq : Value.eq (.cardinality c) v = decide (m = n)
  lt : c.ltValue v = .ok (decide (m < n))
  gt : c.gtValue v = .ok (decide (n < m))
  eq_left : Value.eq v (.cardinality c) = decide (n = m)
  lt_left : Value.lt v (.cardinality c) = .ok (decide (n < m))
  gt_left : Value.lt (.cardinality c) v = .ok (decide (m < n))

/-- Of two numbers that are compared in all ways, exactly one way holds. -/
theorem ComparesAs.trichotomy {c : Cardinality} {v : Value} (h : c.ComparesAs v m n) :
    ∃ less greater, c.ltValue v = .ok less ∧ c.gtValue v = .ok greater ∧
      [less, Value.eq (.cardinality c) v, greater].count true = 1 := by
  refine ⟨_, _, h.lt, h.gt, ?_⟩
  rw [h.eq]
  rcases Nat.lt_trichotomy m n with hlt | rfl | hgt
  · simp [hlt, Nat.ne_of_lt hlt, Nat.lt_asymm hlt]
  · simp
  · simp [hgt, (Nat.ne_of_lt hgt).symm, Nat.lt_asymm hgt]

/-- Beside a size, numbers are compared as the operands of operations on sizes. -/
theorem lt_cardinality {v : Value} {y : Binary64} (hv : v.scalar? = some y) (c : Cardinality) :
    Value.lt v (.cardinality c) = (operand v).map (·.lt c.toBinary64) ∧
      Value.lt (.cardinality c) v = (operand v).map (c.toBinary64.lt ·) := by
  cases v <;> first | exact ⟨rfl, rfl⟩ | cases hv

/-- A size and a value that are both exact whole numbers compare as these. -/
theorem comparesAs_of_operand {v : Value} (hm : Exact m)
    (hs : v.scalar? = some (.finite (.ofInt n))) (ho : operand v = .ok (.finite (.ofInt n))) :
    (known m).ComparesAs v m n := by
  have hx : (known m).toBinary64 = .finite (.ofInt m) := exact_iff.1 hm
  have hc : (Value.cardinality (known m)).scalar? = some (.finite (.ofInt m)) :=
    congrArg some hx
  have heq : ∀ i j : Nat, (Binary64.finite (.ofInt i)).eq (.finite (.ofInt j)) = decide (i = j) :=
    fun i j => (Number.eq_int i j).trans (decide_eq_decide.2 Int.ofNat_inj)
  have hlt : ∀ i j : Nat, (Binary64.finite (.ofInt i)).lt (.finite (.ofInt j)) = decide (i < j) :=
    fun i j => (Number.lt_int i j).trans (decide_eq_decide.2 Int.ofNat_lt)
  have hleft := lt_cardinality hs (known m)
  rw [ho, hx, Checked.map_ok, Checked.map_ok, hlt, hlt] at hleft
  exact {
    eq := by rw [Value.eq_of_scalar_left hc nofun, hs, Option.any_some, heq]
    lt := by rw [ltValue, ho, hx, Checked.bind_ok, hlt, Checked.pure_def]
    gt := by rw [gtValue, ho, hx, Checked.bind_ok, hlt, Checked.pure_def]
    eq_left := by rw [Value.eq_of_scalar_left hs nofun, hc, Option.any_some, heq]
    lt_left := hleft.1
    gt_left := hleft.2 }

theorem comparesAs_known (hm : Exact m) (hn : Exact n) :
    (known m).ComparesAs (.cardinality (known n)) m n :=
  comparesAs_of_operand hm (congrArg some (exact_iff.1 hn)) (congrArg Except.ok (exact_iff.1 hn))

/-- An exact number of tuples is an operand as it is. -/
theorem operand_ofNat (hn : Exact n) : operand (.ofNat n) = .ok (.finite (.ofInt n)) := by
  simp only [operand, Value.ofNat, Value.number?, Number.rounded, Number.toBinary64?,
    Binary64.ofInt?, exact_iff.1 hn]

theorem comparesAs_ofNat (hm : Exact m) (hn : Exact n) : (known m).ComparesAs (.ofNat n) m n :=
  comparesAs_of_operand hm rfl (operand_ofNat hn)

/-- A size equals the number of its tuples only if this is exact. -/
theorem eq_ofNat_iff : Value.eq (.cardinality (known n)) (.ofNat n) = true ↔ Exact n := by
  refine ⟨fun h => ?_, fun h => (comparesAs_ofNat h h).eq.trans (decide_eq_true rfl)⟩
  obtain ⟨x, hx, heq⟩ := Value.eq_int_iff.1 h
  cases hx
  change (Binary64.ofInt n).eq (Number.int n).exact = true at heq
  rw [exact_iff]
  rcases Binary64.ofInt_cases n with hround | ⟨m, hround⟩
  · rw [hround] at heq
    cases heq
  · rw [hround] at heq ⊢
    rw [of_decide_eq_true ((Number.eq_int m n).symm.trans heq)]

/-! ## Sums -/

/-- The sum of exact sizes is rounded once. -/
theorem plus_known (hm : Exact m) (hn : Exact n) :
    (known m).plus (.cardinality (known n)) = .ok (ofBinary64 (Binary64.ofInt (m + n : Nat))) := by
  have hv : IsOperand (.cardinality (known n)) := .inl ⟨_, rfl⟩
  have hx : (known m).toBinary64 = .finite (.ofInt m) := exact_iff.1 hm
  have hsum : Dyadic.ofInt m + Dyadic.ofInt n = Dyadic.ofInt (m + n : Nat) := by
    rw [← Dyadic.toRat_inj, Dyadic.toRat_add, toRat_ofInt, toRat_ofInt, toRat_ofInt,
      Int.natCast_add, Int.cast_add]
  rw [plus_eq hv (congrArg Except.ok (exact_iff.1 hn)), hx, Binary64.ofInt, ← hsum]
  rfl

/-- A whole number is still itself after it has been rounded only if it is exact. -/
theorem value_ofInt_iff : (ofBinary64 (Binary64.ofInt n)).value = .ok n ↔ Exact n := by
  rw [exact_iff]
  rcases Binary64.ofInt_cases n with hround | ⟨m, hround⟩
  · rw [hround]
    exact iff_of_false nofun nofun
  · have hknown : ofBinary64 (.finite (.ofInt m)) = known m := by
      change known (Binary64.ceil (.finite (.ofInt m))).toNat = _
      rw [Binary64.ceil_ofInt, Int.toNat_natCast]
    rw [hround, hknown, value, Except.ok.injEq, Binary64.finite.injEq, ofInt_inj, Int.ofNat_inj]

/-! ## Sizes of whole numbers -/

/-- Sizes of exact numbers of tuples are compared as these numbers, with each other and with plain
integers, and exactly one of the three ways of comparing holds. Their sum is the size of the sum if
that is exact. No other size even equals the number that it was made of. -/
theorem compares_as_number (hm : Exact m) (hn : Exact n) :
    ofValue (.ofNat m) = .ok (known m) ∧ (known m).value = .ok m ∧
    (∀ v, v = .cardinality (known n) ∨ v = .ofNat n → (known m).ComparesAs v m n ∧
      ∃ less greater, (known m).ltValue v = .ok less ∧ (known m).gtValue v = .ok greater ∧
        [less, Value.eq (.cardinality (known m)) v, greater].count true = 1) ∧
    (∃ sum, (known m).plus (.cardinality (known n)) = .ok sum ∧
      (sum.value = .ok (m + n) ↔ Exact (m + n))) ∧
    ∀ k, Value.eq (.cardinality (known k)) (.ofNat k) = true ↔ Exact k := by
  have hsome : (Binary64.ofInt? m).isSome = true := by
    rw [Binary64.ofInt?, exact_iff.1 hm]
    rfl
  refine ⟨ofValue_of_isSome hsome, rfl, ?_, ⟨_, plus_known hm hn, value_ofInt_iff⟩,
    fun _ => eq_ofNat_iff⟩
  rintro v (rfl | rfl)
  · exact ⟨comparesAs_known hm hn, (comparesAs_known hm hn).trichotomy⟩
  · exact ⟨comparesAs_ofNat hm hn, (comparesAs_ofNat hm hn).trichotomy⟩

/-- The size of three times a great power of two is greater than that of the power itself. -/
theorem compares_as_number_powers : Exact (3 * 2 ^ 60) ∧ Exact (2 ^ 60) ∧
    (known (3 * 2 ^ 60)).gtValue (.ofNat (2 ^ 60)) = .ok true ∧
    ∃ sum, (known (3 * 2 ^ 60)).plus (.cardinality (known (2 ^ 60))) = .ok sum ∧
      sum.value = .ok (2 ^ 62) := by
  have hrange : ∀ e, e < 1024 → (2 : Nat) ^ e < 2 ^ 1024 := fun e he =>
    pow_lt_pow_right₀ one_lt_two he
  have hthree : Exact (3 * 2 ^ 60) :=
    ⟨lt_trans (by decide) (hrange 62 (by decide)), 3, 60, by decide, rfl⟩
  have hone : Exact (2 ^ 60) := ⟨hrange 60 (by decide), 1, 60, by decide, rfl⟩
  have hfour : Exact (2 ^ 62) := ⟨hrange 62 (by decide), 1, 62, by decide, rfl⟩
  obtain ⟨-, -, hcompare, ⟨sum, hsum, hvalue⟩, -⟩ := compares_as_number hthree hone
  exact ⟨hthree, hone, (hcompare _ (.inr rfl)).1.gt, sum, hsum, hvalue.2 hfour⟩

/-- The sizes of `2 ^ 53` and of the next number are equal. -/
theorem not_compares_as_number : ¬∀ (m n : Nat) (c d : Cardinality),
    ofValue (.ofNat m) = .ok c → ofValue (.ofNat n) = .ok d →
      c.ComparesAs (.cardinality d) m n ∧ c.ComparesAs (.ofNat n) m n ∧
        ∃ sum, c.plus (.cardinality d) = .ok sum ∧ sum.value = .ok (m + n) := by
  intro h
  have hsome : ∀ n : Nat, n ≤ 2 ^ 53 + 1 → ofValue (.ofNat n) = .ok (known n) := fun n hn =>
    ofValue_of_isSome (Binary64.ofInt?_isSome (Nat.lt_of_le_of_lt hn (by decide)))
  obtain ⟨hsize, -⟩ := h _ _ _ _ (hsome (2 ^ 53) (by decide)) (hsome (2 ^ 53 + 1) (by decide))
  have heq : Value.eq (.cardinality (known (2 ^ 53))) (.cardinality (known (2 ^ 53 + 1))) = true :=
    by decide
  exact absurd (heq.symm.trans hsize.eq) (by decide)

end Cardinality
end JoinOrder
