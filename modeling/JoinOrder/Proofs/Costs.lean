import JoinOrder.Cost.Model
import JoinOrder.Proofs.Cardinality
import JoinOrder.Proofs.Checked
import JoinOrder.Proofs.Magnitude

/-!
# Costs

For known and unbounded sizes the costs of all strategies are defined, whatever vanishes or is
unbounded among the sizes and the constants (`CostModel.Valid.costs_spec`).
-/

namespace JoinOrder

/-! ## Sizes as numbers -/

/-- A product from `2 ^ 53` on is not rounded below. -/
theorem Binary64.atLeast_ofInt_mul {m n : Nat} (h : 2 ^ 53 ≤ m * n) :
    (ofInt m * ofInt n).AtLeast 53 := by
  have hpos : 0 < m * n := Nat.lt_of_lt_of_le (by decide) h
  by_cases hm : 2 ^ 53 ≤ m
  · have hn : 2 ^ 0 ≤ n := Nat.pos_of_mul_pos_left hpos
    exact (atLeast_ofInt hm).mul (by decide) (atLeast_ofInt hn)
  by_cases hn : 2 ^ 53 ≤ n
  · have hm : 2 ^ 0 ≤ m := Nat.pos_of_mul_pos_right hpos
    exact (atLeast_ofInt hm).mul (by decide) (atLeast_ofInt hn)
  rw [ofInt_eq (Nat.le_of_not_le hm), ofInt_eq (Nat.le_of_not_le hn)]
  change (round _ (Dyadic.ofInt m * Dyadic.ofInt n)).AtLeast 53
  rw [ofInt_mul]
  refine atLeast_round (by decide) ?_ _
  rw [toRat_ofInt]
  exact_mod_cast h

namespace Cardinality

variable {c d : Cardinality} {m n : Nat}

/-- A size is zero or at least one. -/
theorem toBinary64_cases (h : c ≠ unknown) : c = known 0 ∨ c.toBinary64.AtLeast 0 := by
  cases c with
  | known n =>
    by_cases hn : n = 0
    · exact .inl (congrArg known hn)
    · exact .inr (Binary64.atLeast_ofInt (e := 0) (Nat.pos_of_ne_zero hn))
  | infinite => exact .inr rfl
  | unknown => exact (h rfl).elim

theorem nonneg_toBinary64 (h : c ≠ unknown) : c.toBinary64.Nonneg := by
  rcases toBinary64_cases h with rfl | h
  · exact le_refl _
  · exact h.nonneg

theorem ofBinary64_ne_unknown {x : Binary64} (h : x.Nonneg) : ofBinary64 x ≠ unknown := by
  cases x with
  | nan => exact h.elim
  | _ => exact Cardinality.noConfusion

/-- Sizes above zero are multiplied as numbers. -/
theorem mul_eq_of_atLeast {e e' : Int} (hc : c.toBinary64.AtLeast e)
    (hd : d.toBinary64.AtLeast e') : c * d = ofBinary64 (c.toBinary64 * d.toBinary64) := by
  have hz : c ≠ known 0 := by
    rintro rfl
    cases hc.isZero
  rw [mul_eq, times, hd.isZero]
  simp [hz]

theorem known_zero_mul : known 0 * c = known 0 := rfl

theorem mul_known_zero (hc : c ≠ unknown) : c * known 0 = known 0 := by
  have hz : (known 0).toBinary64.isZero = true := rfl
  rw [mul_eq, times, if_pos (by simp [hz, hc])]
  rfl

/-- A product of sizes is not unknown, also where zero meets infinity. -/
theorem mul_ne_unknown (hc : c ≠ unknown) (hd : d ≠ unknown) : c * d ≠ unknown := by
  rcases toBinary64_cases hc with rfl | hc'
  · exact Cardinality.noConfusion
  rcases toBinary64_cases hd with rfl | hd'
  · rw [mul_known_zero hc]
    exact Cardinality.noConfusion
  · rw [mul_eq_of_atLeast hc' hd']
    exact ofBinary64_ne_unknown (hc'.nonneg.mul hd'.nonneg hc'.isZero hd'.isZero)

theorem foldl_mul_ne_unknown {α : Type} {size : α → Cardinality} {xs : List α} (hc : c ≠ unknown)
    (hxs : ∀ x ∈ xs, size x ≠ unknown) : xs.foldl (fun c x => c * size x) c ≠ unknown := by
  induction xs generalizing c with
  | nil => exact hc
  | cons x xs ih =>
    rw [List.forall_mem_cons] at hxs
    exact ih (mul_ne_unknown hc hxs.1) hxs.2

theorem bounds_ofBinary64 {x : Binary64} (h : x.AtLeast 53) : (ofBinary64 x).Bounds (2 ^ 53) := by
  cases x with
  | finite d =>
    have hceil : ((2 ^ 53 : Int) : Rat) ≤ (Binary64.finite d).ceil := by
      refine le_trans ?_ (Binary64.le_ceil (.finite d))
      rw [Int.cast_pow]
      exact h
    refine .inr ⟨_, rfl, ?_⟩
    rw [Int.cast_le] at hceil
    omega
  | infinity => exact .inl rfl
  | _ => exact h.elim

/-- A product of bounds is a bound, as long as numbers are exact. -/
theorem Bounds.mul (hc : c.Bounds m) (hd : d.Bounds n) :
    (c * d).Bounds (min (m * n) (2 ^ 53)) := by
  have hzero : ∀ {c : Cardinality} {m : Nat}, c.Bounds m → c = known 0 → m = 0 := by
    rintro _ m (h | ⟨k, h, hk⟩) rfl
    · cases h
    · cases h
      omega
  rcases toBinary64_cases hc.ne_unknown with rfl | hc'
  · rw [hzero hc rfl, known_zero_mul]
    exact .inr ⟨0, rfl, by omega⟩
  rcases toBinary64_cases hd.ne_unknown with rfl | hd'
  · rw [hzero hd rfl, mul_known_zero hc.ne_unknown]
    exact .inr ⟨0, rfl, by omega⟩
  -- Where a factor is unbounded, or the product is not exact, the product is large enough.
  have hlarge : (c.toBinary64 * d.toBinary64).AtLeast 53 →
      (c * d).Bounds (min (m * n) (2 ^ 53)) := fun h => by
    rw [mul_eq_of_atLeast hc' hd']
    exact (bounds_ofBinary64 h).mono (Nat.min_le_right ..)
  have hinfinite : infinite.toBinary64.AtLeast 53 := rfl
  rcases hc with rfl | ⟨k, rfl, hk⟩
  · exact hlarge (hinfinite.mul (by decide) hd')
  rcases hd with rfl | ⟨l, rfl, hl⟩
  · exact hlarge (hc'.mul (by decide) hinfinite)
  by_cases h : k * l ≤ 2 ^ 53
  · rw [known_mul_known h]
    exact .inr ⟨_, rfl, Nat.le_trans (Nat.min_le_left ..) (Nat.mul_le_mul hk hl)⟩
  · exact hlarge (Binary64.atLeast_ofInt_mul (Nat.le_of_not_le h))

/-- A product of several bounds is a bound, as long as numbers are exact. -/
theorem Bounds.foldl_mul {α β : Type} {size : β → Cardinality} {count : α → Nat} {xs : List α}
    {ys : List β} (h : List.Forall₂ (fun x y => (size y).Bounds (count x)) xs ys)
    (hc : c.Bounds (min m (2 ^ 53))) :
    (ys.foldl (fun c y => c * size y) c).Bounds (min (m * (xs.map count).prod) (2 ^ 53)) := by
  induction h generalizing c m with
  | nil => rwa [List.map_nil, List.prod_nil, Nat.mul_one]
  | @cons x y xs ys hxy _ ih =>
    rw [List.foldl_cons, List.map_cons, List.prod_cons, ← Nat.mul_assoc]
    refine ih ((hc.mul hxy).mono ?_)
    rcases Nat.le_total m (2 ^ 53) with hm | hm
    · rw [Nat.min_eq_left hm]
    rw [Nat.min_eq_right hm]
    rcases Nat.eq_zero_or_pos (count x) with hx | hx
    · rw [hx, Nat.mul_zero, Nat.zero_min]
      exact Nat.zero_le _
    · rw [Nat.min_eq_right (Nat.le_mul_of_pos_right _ hx)]
      exact Nat.min_le_right ..

end Cardinality

/-! ## Cost constants -/

namespace Binary64

variable {x : Binary64}

theorem AtLeast.mono {e e' : Int} (h : x.AtLeast e) (he : e' ≤ e) : x.AtLeast e' := by
  cases x with
  | finite d => exact le_trans (zpow_le_zpow_right₀ (by decide) he) h
  | infinity => exact h
  | _ => exact h.elim

theorem one_eq : (1 : Binary64) = .finite (.ofInt 1) := ofInt_eq (by decide)

theorem nonneg_of_isZero (h : x.isZero = true) : x.Nonneg := by
  cases x with
  | nan => cases h
  | infinity => cases h
  | negativeZero => trivial
  | finite d =>
    obtain ⟨-, h⟩ := (Bool.and_eq_true ..).mp h
    exact le_of_eq (toRat_eq_zero.2 (of_decide_eq_true h)).symm

end Binary64

/-- A finite number that is not negative, as double-precision numbers are. -/
def Number.IsConstant : Number → Prop
  | int n => 0 ≤ n ∧ (Binary64.ofInt? n).isSome = true
  | real .negativeZero => True
  | real (.finite d) => 0 ≤ d.toRat ∧ Binary64.roundFinite d = d
  | real _ => False

/-- A constant is zero or not below the least number above zero. -/
theorem Number.IsConstant.rounded {c : Number} (h : c.IsConstant) :
    ∃ x, c.rounded = .ok x ∧ (x.isZero = true ∨ x.AtLeast (-1074)) := by
  cases c with
  | int n =>
    obtain ⟨hn, hsome⟩ := h
    obtain ⟨n, rfl⟩ := Int.eq_ofNat_of_zero_le hn
    have hround : (Binary64.ofInt? n) = some (Binary64.ofInt n) := by
      unfold Binary64.ofInt? at hsome ⊢
      split at hsome
      · cases hsome
      · rfl
    refine ⟨Binary64.ofInt n, by rw [Number.rounded, Number.toBinary64?, hround], ?_⟩
    by_cases hz : n = 0
    · subst hz
      exact .inl rfl
    · exact .inr ((Binary64.atLeast_ofInt (e := 0) (Nat.pos_of_ne_zero hz)).mono (by decide))
  | real x =>
    refine ⟨x, rfl, ?_⟩
    cases x with
    | nan => exact h.elim
    | infinity => exact h.elim
    | negativeZero => exact .inl rfl
    | finite d =>
      obtain ⟨hd, hround⟩ := h
      rcases eq_or_lt_of_le hd with hz | hpos
      · left
        rw [Binary64.isZero, Binary64.value, Binary64.toRat_eq_zero.1 hz.symm]
        rfl
      · exact .inr (Binary64.two_pow_le_of_roundFinite hround hpos)

namespace CostModel

/-- The constants are finite and not negative. -/
structure Valid (m : CostModel) : Prop where
  iterate : m.iterateCost.IsConstant
  lookup : m.lookupCost.IsConstant
  membership : m.membershipCost.IsConstant

theorem unit_valid : unit.Valid := by
  have hone : Number.IsConstant (.real 1) := by
    rw [Binary64.one_eq]
    refine ⟨?_, Binary64.roundFinite_ofInt (by decide)⟩
    rw [toRat_ofInt]
    exact zero_le_one
  exact ⟨hone, hone, hone⟩

/-- A given value is no number that double precision cannot represent. -/
def IsDouble (v : Value) : Prop := ∀ d, v = .real (.finite d) → Binary64.roundFinite d = d

/-- What is accepted as a constant is finite and not negative. -/
theorem parseConstant_isConstant {name : String} {v : Value} {c : Number} (hv : IsDouble v)
    (h : parseConstant name v = .ok c) : c.IsConstant := by
  cases v with
  | int n =>
    simp only [parseConstant] at h
    split at h
    · cases h
    next hsome =>
    split at h
    · cases h
    next hneg =>
    cases h
    exact ⟨Int.not_lt.1 hneg, by simpa [Option.isSome_iff_ne_none] using hsome⟩
  | real x =>
    simp only [parseConstant] at h
    split at h
    · cases h
    next hx =>
    cases h
    simp only [Bool.or_eq_true, Bool.not_eq_true', not_or, Bool.not_eq_false,
      Bool.not_eq_true] at hx
    obtain ⟨hfinite, hneg⟩ := hx
    cases x with
    | nan => cases hfinite
    | infinity => cases hfinite
    | negativeZero => trivial
    | finite d =>
      refine ⟨le_of_not_gt fun hd => ?_, hv d rfl⟩
      have hlt : d < Dyadic.ofInt 0 := by
        rw [← Dyadic.toRat_lt_toRat_iff, toRat_ofInt]
        exact hd
      exact (of_decide_eq_false hneg) hlt
  | _ => cases h

/-- The constants of a declared model are finite and not negative. -/
theorem declare?_valid {given : List (String × Value)} (hv : ∀ e ∈ given, IsDouble e.2)
    {m : CostModel} (h : declare? given = .ok m) : m.Valid := by
  have hdouble : ∀ name, IsDouble (constantOr1 given name) := by
    intro name
    rw [constantOr1]
    cases hl : given.lookup name with
    | none =>
      intro d hd
      rw [Option.getD_none, Binary64.one_eq] at hd
      cases hd
      exact Binary64.roundFinite_ofInt (by decide)
    | some v =>
      obtain ⟨before, behind, rfl, -⟩ := List.lookup_eq_some_iff.1 hl
      exact hv (name, v) (by simp)
  rw [declare?, Checked.guard_eq_ok] at h
  obtain ⟨-, h⟩ := h
  obtain ⟨c1, h1, h⟩ := Checked.bind_eq_ok.1 h
  obtain ⟨c2, h2, h⟩ := Checked.bind_eq_ok.1 h
  obtain ⟨c3, h3, h⟩ := Checked.bind_eq_ok.1 h
  cases h
  exact ⟨parseConstant_isConstant (hdouble _) h1, parseConstant_isConstant (hdouble _) h2,
    parseConstant_isConstant (hdouble _) h3⟩

theorem nonneg_product {x y : Binary64} (hx : x.Nonneg) (hy : y.Nonneg) :
    (CostArithmetic.double.product [x, y]).Nonneg := by
  rw [CostArithmetic.product]
  split
  · exact le_refl _
  · next h =>
    simp only [CostArithmetic.double, List.any_cons, List.any_nil, Bool.or_false, Bool.or_eq_true,
      not_or, Bool.not_eq_true] at h
    exact hx.mul hy h.1 h.2

theorem nonneg_materialization {x : Binary64} (hx : x.Nonneg) :
    (CostArithmetic.double.materialization x).Nonneg := by
  rw [CostArithmetic.materialization]
  split
  · next h => exact nonneg_product hx (Binary64.nonneg_log2 h)
  · exact le_refl _

variable {m : CostModel} {bound large probe : Cardinality}

/-- What probing costs is defined: it vanishes if a factor does. -/
theorem iteration_spec {c : Number} (hc : c.IsConstant) (hb : bound ≠ .unknown)
    (hp : probe ≠ .unknown) :
    ∃ x, iteration c bound.toBinary64 (.real probe.toBinary64) = .ok x ∧ x.Nonneg := by
  obtain ⟨each, heach, hcases⟩ := hc.rounded
  rw [iteration, heach, Checked.bind_ok]
  split
  · exact ⟨_, rfl, le_refl _⟩
  next h =>
  simp only [Bool.or_eq_true, not_or, Bool.not_eq_true] at h
  obtain ⟨⟨hzb, hze⟩, hzp⟩ := h
  have hb' : bound.toBinary64.AtLeast 0 := by
    rcases Cardinality.toBinary64_cases hb with rfl | hb
    · cases hzb
    · exact hb
  have hp' : probe.toBinary64.AtLeast 0 := by
    rcases Cardinality.toBinary64_cases hp with rfl | hp
    · cases hzp
    · exact hp
  have he := hcases.resolve_left (by rw [hze]; exact Bool.false_ne_true)
  have hbe := hb'.mul (by decide) he
  exact ⟨_, rfl, hbe.nonneg.mul hp'.nonneg hbe.isZero hp'.isZero⟩

/-- The costs of all strategies are defined. -/
theorem Valid.costs_spec (H : m.Valid) (hb : bound ≠ .unknown) (hl : large ≠ .unknown)
    (hp : probe ≠ .unknown) :
    ∃ c, m.costs bound.toBinary64 large.toBinary64 (.real probe.toBinary64) = .ok c ∧
      ∀ s, c.of s ≠ .nan := by
  obtain ⟨iterate, hiterate, hn⟩ := iteration_spec H.iterate hb hp
  obtain ⟨c2, hc2, hcases2⟩ := H.lookup.rounded
  obtain ⟨c3, hc3, hcases3⟩ := H.membership.rounded
  have nonneg : ∀ {x : Binary64}, (x.isZero = true ∨ x.AtLeast (-1074)) → x.Nonneg := fun h =>
    h.elim Binary64.nonneg_of_isZero Binary64.AtLeast.nonneg
  have hbn := Cardinality.nonneg_toBinary64 hb
  have hln := Cardinality.nonneg_toBinary64 hl
  have hcosts : m.costs bound.toBinary64 large.toBinary64 (.real probe.toBinary64) =
      .ok (CostArithmetic.double.costsOf c2 c3 bound.toBinary64 large.toBinary64 iterate) := by
    rw [costs, hbn.isNaN, hln.isNaN, if_neg (by decide), hiterate, hc2, hc3]
    rfl
  refine ⟨_, hcosts, fun s => Binary64.Nonneg.ne_nan ?_⟩
  cases s with
  | iterate => exact hn
  | intermediate => exact (nonneg_materialization hln).add (nonneg_product hbn (nonneg hcases2))
  | filter => exact nonneg_product hln (nonneg hcases3)

end CostModel
end JoinOrder
