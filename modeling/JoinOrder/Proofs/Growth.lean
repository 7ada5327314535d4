import Mathlib
import JoinOrder.Proofs.Costs

/-!
# Growing intermediate results

Read exactly, the cost formulas never return to a strategy that was given up for a smaller
intermediate result (`CostModel.exactChoice_mono`). What stands for the logarithm does not matter,
as long as materialising an unbounded relation is unbounded.
-/

namespace JoinOrder

/-- A rational number that is not negative, or infinity. Zero times infinity is zero. -/
abbrev Amount := WithTop ℚ≥0

/-- The costs of all strategies, where those of one probe are known. -/
def CostArithmetic.costs {α : Type} (A : CostArithmetic α) (c1 c2 c3 bound large probe : α) :
    StrategyCosts α :=
  A.costsOf c2 c3 bound large (A.product [bound, c1, probe])

/-! ## Computed costs -/

theorem Value.eq_zero_real (x : Binary64) : Value.eq (.int 0) (.real x) = x.isZero := by
  rw [Value.eq, Value.eq.eqNumber, Number.eq]
  cases x with
  | nan => rfl
  | infinity => rfl
  | negativeZero => rfl
  | finite d => exact decide_eq_decide.2 eq_comm

namespace CostModel

theorem iteration_real {c : Number} {each : Binary64} (hc : c.rounded = .ok each)
    (bound probe : Binary64) : iteration c bound (.real probe) =
      .ok (CostArithmetic.double.product [bound, each, probe]) := by
  have hany : [bound, each, probe].any CostArithmetic.double.isZero =
      (bound.isZero || each.isZero || probe.isZero) := by
    simp [CostArithmetic.double, Bool.or_assoc]
  rw [iteration, hc, Checked.bind_ok, Value.eq_zero_real, CostArithmetic.product, hany]
  split <;> rfl

theorem costs_real {m : CostModel} {c1 c2 c3 bound large : Binary64}
    (h1 : m.iterateCost.rounded = .ok c1) (h2 : m.lookupCost.rounded = .ok c2)
    (h3 : m.membershipCost.rounded = .ok c3) (hb : bound.isNaN = false)
    (hl : large.isNaN = false) (probe : Binary64) :
    m.costs bound large (.real probe) =
      .ok (CostArithmetic.double.costs c1 c2 c3 bound large probe) := by
  rw [costs, hb, hl, if_neg (by decide), iteration_real h1, h2, h3]
  rfl

end CostModel

/-! ## Exact costs -/

namespace CostArithmetic

/-- Arithmetic without rounding. The logarithm is left open. -/
def exact (log : Amount → Amount) : CostArithmetic Amount where
  zero := 0
  one := 1
  isZero x := x = 0
  lt x y := x < y
  add x y := x + y
  mul x y := x * y
  log2 := log

variable {log : Amount → Amount} {x y z : Amount}

theorem exact_product_pair : (exact log).product [x, y] = x * y := by
  simp only [product, exact, List.any_cons, List.any_nil, Bool.or_false, Bool.or_eq_true,
    decide_eq_true_eq, List.foldl_cons, List.foldl_nil]
  split
  · next h => exact (mul_eq_zero.2 h).symm
  · rfl

theorem exact_product_triple : (exact log).product [x, y, z] = x * y * z := by
  simp only [product, exact, List.any_cons, List.any_nil, Bool.or_false, Bool.or_eq_true,
    decide_eq_true_eq, List.foldl_cons, List.foldl_nil]
  split
  · next h => rw [mul_assoc, mul_eq_zero.2 (h.imp_right mul_eq_zero.2)]
  · rfl

variable {c : StrategyCosts Amount}

theorem exact_cheapest_eq : (exact log).cheapest c =
    if c.intermediate < c.iterate then
      if c.filter < c.intermediate then .filter else .intermediate
    else if c.filter < c.iterate then .filter else .iterate := by
  simp only [cheapest, exact, decide_eq_true_eq, StrategyCosts.of]
  by_cases h : c.intermediate < c.iterate
  · simp only [if_pos h]
  · simp only [if_neg h]

theorem exact_cheapest_iterate : (exact log).cheapest c = .iterate ↔
    c.iterate ≤ c.intermediate ∧ c.iterate ≤ c.filter := by
  rw [exact_cheapest_eq]
  split_ifs with h hf hf
  · exact iff_of_false not_false fun hi => not_lt_of_ge hi.1 h
  · exact iff_of_false not_false fun hi => not_lt_of_ge hi.1 h
  · exact iff_of_false not_false fun hi => not_lt_of_ge hi.2 hf
  · exact iff_of_true rfl ⟨le_of_not_gt h, le_of_not_gt hf⟩

theorem exact_cheapest_filter : (exact log).cheapest c = .filter ↔
    c.filter < c.iterate ∧ c.filter < c.intermediate := by
  rw [exact_cheapest_eq]
  split_ifs with h hf hf
  · exact iff_of_true rfl ⟨lt_trans hf h, hf⟩
  · exact iff_of_false not_false fun hc => hf hc.2
  · exact iff_of_true rfl ⟨hf, lt_of_lt_of_le hf (le_of_not_gt h)⟩
  · exact iff_of_false not_false fun hc => hf hc.1

theorem exact_materialization_top (hlog : ⊤ * log ⊤ = ⊤) :
    (exact log).materialization ⊤ = ⊤ := by
  have hone : (1 : Amount) < ⊤ := WithTop.coe_lt_top 1
  have hlarge : (exact log).lt (exact log).one ⊤ = true := decide_eq_true hone
  rw [materialization, if_pos hlarge]
  exact exact_product_pair.trans hlog

theorem exact_costs_eq {c1 c2 c3 bound large probe : Amount} :
    (exact log).costs c1 c2 c3 bound large probe =
      ⟨bound * (c1 * probe), (exact log).materialization large + bound * c2, large * c3⟩ := by
  rw [costs, costsOf, exact_product_triple, exact_product_pair, exact_product_pair, mul_assoc]
  rfl

end CostArithmetic

/-! ## Switching the strategy -/

/-- Where probing is as cheap as materialising, it has been so for smaller intermediate results,
unless the costs of materialising are infinite anyway. -/
theorem mul_le_add_mul_of_le {a c m b b' : Amount} (hb : b ≤ b') (hfinite : b' * a ≠ ⊤)
    (h : b' * a ≤ m + b' * c) : b * a ≤ m + b * c := by
  rcases le_total a c with hac | hca
  · exact le_add_left (mul_le_mul_right hac b)
  obtain ⟨d, rfl⟩ := exists_add_of_le hca
  -- Only the difference of the slopes has to be paid for by `m`.
  rw [mul_add] at h hfinite
  have hrest : b' * c ≠ ⊤ := fun htop => hfinite (by rw [htop, top_add])
  rw [add_comm m, WithTop.add_le_add_iff_left hrest] at h
  rw [mul_add, add_comm m]
  exact add_le_add_right (le_trans (mul_le_mul_left hb d) h) _

/-- The number that is meant, which may be infinite. -/
def Number.amount : Number → Amount
  | int n => (n.toNat : ℚ≥0)
  | real (.finite d) => d.toRat.toNNRat
  | real (.infinity false) => ⊤
  | real _ => 0

theorem Number.IsConstant.amount_ne_top {c : Number} (h : c.IsConstant) : c.amount ≠ ⊤ := by
  cases c with
  | int n => exact WithTop.coe_ne_top
  | real x =>
    cases x with
    | finite d => exact WithTop.coe_ne_top
    | negativeZero => exact WithTop.coe_ne_top
    | _ => exact h.elim

theorem JoinStrategy.idxOf_le {s s' : JoinStrategy} (hiterate : s' = .iterate → s = .iterate)
    (hfilter : s = .filter → s' = .filter) : all.idxOf s ≤ all.idxOf s' := by
  cases s with
  | iterate => exact Nat.zero_le _
  | intermediate =>
    cases s' with
    | iterate => cases hiterate rfl
    | intermediate => exact le_refl _
    | filter => decide
  | filter => rw [hfilter rfl]

namespace CostModel

variable {m : CostModel} {log : Amount → Amount} {bound bound' large : Amount}

/-- The strategy that is chosen if the costs are not rounded. -/
def exactChoice (m : CostModel) (log : Amount → Amount) (bound large probe : Amount) :
    JoinStrategy :=
  let A := CostArithmetic.exact log
  A.cheapest (A.costs m.iterateCost.amount m.lookupCost.amount m.membershipCost.amount bound large
    probe)

/-- A larger intermediate result never makes an earlier strategy the cheapest one again. -/
theorem exactChoice_mono (H : m.Valid) (hlog : ⊤ * log ⊤ = ⊤) (h : bound ≤ bound')
    (large probe : Amount) : JoinStrategy.all.idxOf (m.exactChoice log bound large probe) ≤
      JoinStrategy.all.idxOf (m.exactChoice log bound' large probe) := by
  have hgrow : ∀ c : Amount, bound * c ≤ bound' * c := mul_le_mul_left h
  refine JoinStrategy.idxOf_le (fun hiterate => ?_) fun hfilter => ?_
  · rw [exactChoice, CostArithmetic.exact_costs_eq, CostArithmetic.exact_cheapest_iterate] at *
    obtain ⟨hmaterialize, htest⟩ := hiterate
    refine ⟨?_, le_trans (hgrow _) htest⟩
    by_cases hfinite : bound' * (m.iterateCost.amount * probe) = ⊤
    · -- Then testing all tuples takes forever, so there are infinitely many to materialise.
      rw [hfinite, top_le_iff, WithTop.mul_eq_top_iff] at htest
      have hlarge : large = ⊤ := by
        rcases htest with ⟨-, hc⟩ | ⟨hl, -⟩
        · exact (H.membership.amount_ne_top hc).elim
        · exact hl
      rw [hlarge, CostArithmetic.exact_materialization_top hlog, top_add]
      exact le_top
    · exact mul_le_add_mul_of_le h hfinite hmaterialize
  · rw [exactChoice, CostArithmetic.exact_costs_eq, CostArithmetic.exact_cheapest_filter] at *
    exact ⟨lt_of_lt_of_le hfilter.1 (hgrow _),
      lt_of_lt_of_le hfilter.2 (add_le_add_right (hgrow _) _)⟩

/-- A relation of four tuples without an index is tested tuple by tuple for an intermediate result
of five, and so it is for one without bounds. -/
theorem exactChoice_mono_unit : unit.Valid ∧ (⊤ : Amount) * id ⊤ = ⊤ ∧ (5 : Amount) ≤ ⊤ ∧
    unit.exactChoice id 5 4 4 = .filter ∧ unit.exactChoice id ⊤ 4 4 = .filter := by
  have hone : Number.amount (.real 1) = 1 := by
    rw [Binary64.one_eq, Number.amount, toRat_ofInt, Int.cast_one, Rat.toNNRat_one]
    rfl
  have hlog : (⊤ : Amount) * id ⊤ = ⊤ := WithTop.top_mul_top
  have hfive : unit.exactChoice id 5 4 4 = .filter := by
    rw [exactChoice, CostArithmetic.exact_costs_eq, CostArithmetic.exact_cheapest_filter]
    simp only [unit, hone, one_mul, mul_one]
    have hless : (4 : ℚ≥0) < 5 := by norm_num
    have hproduct : (4 : ℚ≥0) < 5 * 4 := by norm_num
    exact ⟨by exact_mod_cast hproduct, lt_of_lt_of_le (by exact_mod_cast hless) le_add_self⟩
  have hmono := exactChoice_mono unit_valid hlog (le_top : (5 : Amount) ≤ ⊤) 4 4
  rw [hfive] at hmono
  refine ⟨unit_valid, hlog, le_top, hfive, ?_⟩
  cases h : unit.exactChoice id ⊤ 4 4 with
  | filter => rfl
  | _ =>
    rw [h] at hmono
    exact absurd hmono (by decide)

end CostModel
end JoinOrder
