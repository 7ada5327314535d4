import JoinOrder.Proofs.Costs
import JoinOrder.Proofs.Estimates

/-!
# Estimates of known sizes

As long as the relation of an atom reports sizes that are known or unbounded, each variable of the
atom has an estimate, and none of the estimates is unknown.
-/

namespace JoinOrder

namespace Atom

/-- The relation of an atom reports sizes that are known or unbounded, and the bounds of its
constraints have nearest numbers. Of lookups only that of the constants matters. -/
structure Reports (a : Atom) (constants : Assignment) : Prop where
  extent : ∃ c, a.relation.extent = .ok c ∧ c ≠ .unknown
  lookup : ∃ found, a.relation.lookup (a.relationBinding constants) = .ok found ∧
    found.cardinality ≠ .unknown
  frequency : ∀ bound, ∃ c, a.relation.keyFrequency bound = .ok c ∧ c ≠ some .unknown
  bounds : ∀ c ∈ a.relation.constraints, ∀ n, c.upper = some n → (Binary64.ofInt? n).isSome = true

variable {a : Atom} {b : Binding} {v : Variable}

theorem exists_tightestConstraint {constraints : List DegreeConstraint} (bound targets : List Name)
    (h : ∀ c ∈ constraints, ∀ n, c.upper = some n → (Binary64.ofInt? n).isSome = true) :
    ∃ o, tightestConstraint constraints bound targets = .ok o := by
  obtain ⟨all, hall⟩ : ∃ all, applicable constraints bound targets = .ok all := by
    refine Checked.exists_filterMapM fun c hc => ?_
    cases hu : c.upper with
    | none =>
      refine ⟨none, ?_⟩
      rw [DegreeConstraint.hasBound, hu]
      rfl
    | some n =>
      rw [DegreeConstraint.hasBound, hu, hasUpper, if_pos (h c hc n hu), Checked.bind_ok]
      exact ⟨_, rfl⟩
  rw [tightestConstraint, hall, Checked.bind_ok]
  cases all with
  | nil => exact ⟨none, rfl⟩
  | cons first rest =>
    obtain ⟨least, hleast⟩ := Sorting.exists_least tighter first rest
    exact ⟨some least, Checked.bind_eq_ok.2 ⟨least, hleast, rfl⟩⟩

namespace Reports

variable (H : a.Reports b.values)

include H

/-- What an index says is not unknown. -/
theorem exists_indexEstimate (bound : List Variable) : ∃ o, a.indexEstimate b bound = .ok o ∧
    ∀ i, o = some i → i.cardinality ≠ .unknown := by
  unfold indexEstimate
  dsimp only
  split
  · exact ⟨none, rfl, nofun⟩
  split
  swap
  · exact ⟨none, rfl, nofun⟩
  next key hmatch =>
  split
  · obtain ⟨found, hfound, hne⟩ := H.lookup
    rw [hfound]
    refine ⟨_, rfl, ?_⟩
    rintro _ ⟨⟩
    exact hne
  · obtain ⟨c, hc, hne⟩ := H.frequency (a.attributes bound)
    rw [hc]
    refine ⟨_, rfl, fun i hi => ?_⟩
    obtain ⟨size, rfl, rfl⟩ := Option.map_eq_some_iff.1 hi
    exact fun h => hne (congrArg some h)

theorem exists_indexPrevails {constraint : Option (Nat × DegreeConstraint)}
    (hc : ∀ c, constraint = some c → c.2 ∈ a.relation.constraints ∧ c.2.upper = some c.1)
    (i : IndexEstimate) : ∃ o, indexPrevails i constraint = .ok o := by
  unfold indexPrevails
  split
  · exact ⟨true, rfl⟩
  cases constraint with
  | none => exact ⟨true, rfl⟩
  | some c =>
    obtain ⟨hmem, hupper⟩ := hc c rfl
    obtain ⟨x, hx⟩ := Option.isSome_iff_exists.1 (H.bounds c.2 hmem c.1 hupper)
    refine ⟨_, Checked.bind_eq_ok.2 ⟨x, ?_, rfl⟩⟩
    change Number.rounded (.int c.1) = .ok x
    rw [Number.rounded, Number.toBinary64?, hx]

/-- The size that a constraint or the whole relation announces. -/
theorem exists_announced {constraint : Option (Nat × DegreeConstraint)}
    (hc : ∀ c, constraint = some c → c.2 ∈ a.relation.constraints ∧ c.2.upper = some c.1) :
    (∃ c n, constraint = some (n, c) ∧ Cardinality.ofValue (.ofNat n) = .ok (.known n)) ∨
      constraint = none ∧ ∃ c, a.relation.extent = .ok c ∧ c ≠ .unknown := by
  cases constraint with
  | none => exact .inr ⟨rfl, H.extent⟩
  | some c =>
    obtain ⟨hmem, hupper⟩ := hc c rfl
    exact .inl ⟨c.2, c.1, rfl, Cardinality.ofValue_of_isSome (H.bounds c.2 hmem c.1 hupper)⟩

/-- Each variable of the atom has an estimate, which is not unknown. -/
theorem exists_estimate (hv : v ∈ a.vars) :
    ∃ e, a.estimate b v = .ok e ∧ e.cardinality ≠ .unknown ∧ e.target = some v := by
  obtain ⟨index, hindex, hknown⟩ := H.exists_indexEstimate (a.boundVariables b)
  obtain ⟨targets, htargets⟩ : ∃ targets, a.attributesOf v = .ok targets := by
    obtain ⟨e, he, rfl⟩ := List.mem_map.1 hv
    obtain ⟨targets, htargets⟩ := Option.isSome_iff_exists.1
      (List.lookup_isSome_iff.2 ⟨e, he, beq_self_eq_true e.1⟩)
    exact ⟨targets, by rw [attributesOf, htargets]⟩
  obtain ⟨constraint, hconstraint⟩ := exists_tightestConstraint
    (a.attributes (a.boundVariables b)) targets H.bounds
  have hc : ∀ c, constraint = some c → c.2 ∈ a.relation.constraints ∧ c.2.upper = some c.1 := by
    rintro ⟨n, c⟩ rfl
    obtain ⟨hmem, hupper, -⟩ := tightestConstraint_spec hconstraint
    exact ⟨hmem, hupper⟩
  unfold estimate
  rw [if_neg (not_not.2 hv)]
  dsimp only
  rw [hindex, Checked.bind_ok, htargets, Checked.bind_ok, hconstraint, Checked.bind_ok]
  obtain ⟨i, rfl, hi⟩ | hrest : (∃ i, index = some i ∧ indexPrevails i constraint = .ok true) ∨
      (index = none ∨ ∃ i, index = some i ∧ indexPrevails i constraint = .ok false) := by
    cases index with
    | none => exact .inr (.inl rfl)
    | some i =>
      obtain ⟨prevails, hprevails⟩ := H.exists_indexPrevails hc i
      cases prevails with
      | true => exact .inl ⟨i, rfl, hprevails⟩
      | false => exact .inr (.inr ⟨i, rfl, hprevails⟩)
  · exact ⟨_, Checked.bind_eq_ok.2 ⟨true, hi, rfl⟩, hknown i rfl, rfl⟩
  rcases H.exists_announced hc with ⟨c, n, rfl, hsize⟩ | ⟨rfl, c, hextent, hne⟩
  · refine ⟨⟨.known n, .degree, v, a.vars.length - (a.boundVariables b).length, c, none⟩, ?_,
      Cardinality.noConfusion, rfl⟩
    rcases hrest with rfl | ⟨i, rfl, hi⟩
    · exact Checked.bind_eq_ok.2 ⟨none, rfl, Checked.bind_eq_ok.2 ⟨_, hsize, rfl⟩⟩
    · exact Checked.bind_eq_ok.2 ⟨false, hi, Checked.bind_eq_ok.2 ⟨none, rfl,
        Checked.bind_eq_ok.2 ⟨_, hsize, rfl⟩⟩⟩
  · refine ⟨⟨c, .scan, v, a.vars.length - (a.boundVariables b).length, none, none⟩, ?_, hne, rfl⟩
    rcases hrest with rfl | ⟨i, rfl, hi⟩
    · exact Checked.bind_eq_ok.2 ⟨none, rfl, Checked.bind_eq_ok.2 ⟨_, hextent, rfl⟩⟩
    · exact Checked.bind_eq_ok.2 ⟨false, hi, Checked.bind_eq_ok.2 ⟨none, rfl,
        Checked.bind_eq_ok.2 ⟨_, hextent, rfl⟩⟩⟩

/-- The estimate of an atom is not unknown, and it is one of a variable of the atom, if any. -/
theorem exists_cheapestEstimate : ∃ e, a.cheapestEstimate b = .ok e ∧ e.cardinality ≠ .unknown ∧
    ∀ v, e.target = some v → v ∈ a.vars := by
  have hall : ∀ v ∈ a.unboundVariables b, ∃ e, a.estimate b v = .ok e ∧
      e.cardinality ≠ .unknown ∧ ∀ w, e.target = some w → w ∈ a.vars := by
    intro v hv
    have hmem := List.mem_of_mem_filter hv
    obtain ⟨e, he, hne, htarget⟩ := H.exists_estimate hmem
    refine ⟨e, he, hne, fun w hw => ?_⟩
    rw [htarget] at hw
    cases hw
    exact hmem
  obtain ⟨estimates, hestimates, hknown⟩ := Checked.exists_mapM hall
  rw [cheapestEstimate, hestimates, Checked.bind_ok]
  cases estimates with
  | cons first rest =>
    obtain ⟨least, hleast⟩ := Sorting.exists_least
      (fun x y : Estimate => x.cardinality.toBinary64.lt y.cardinality.toBinary64) first rest
    exact ⟨least, hleast, hknown least (Sorting.least_mem hleast)⟩
  | nil =>
    obtain ⟨index, hindex, hsize⟩ := H.exists_indexEstimate a.vars
    dsimp only
    rw [hindex, Checked.bind_ok]
    have htarget : ∀ v, none = some v → v ∈ a.vars := fun _ h => (Option.some_ne_none _ h.symm).elim
    cases index with
    | none => exact ⟨_, rfl, Cardinality.noConfusion, htarget⟩
    | some i => exact ⟨_, rfl, hsize i rfl, htarget⟩

/-- How many tuples an atom contributes is not unknown. -/
theorem exists_outputEstimate : ∃ c, a.outputEstimate b = .ok c ∧ c ≠ .unknown := by
  obtain ⟨index, hindex, hsize⟩ := H.exists_indexEstimate (a.boundVariables b)
  obtain ⟨cheapest, hcheapest, hne, -⟩ := H.exists_cheapestEstimate
  obtain ⟨extent, hextent, hextent_ne⟩ := H.extent
  obtain ⟨estimates, hestimates, hknown⟩ := Checked.exists_mapM
    (fun v (hv : v ∈ a.unboundVariables b) =>
      (H.exists_estimate (List.mem_of_mem_filter hv)).imp fun e he => ⟨he.1, he.2.1⟩)
  unfold outputEstimate
  dsimp only
  rw [hindex, Checked.bind_ok]
  split
  · exact ⟨_, rfl, hsize _ rfl⟩
  split
  · rw [hcheapest]
    exact ⟨_, rfl, hne⟩
  rw [hestimates, Checked.bind_ok, hextent, Checked.bind_ok]
  obtain ⟨least, hleast⟩ := Sorting.exists_least
    (fun x y : Cardinality => x.toBinary64.lt y.toBinary64)
    (estimates.foldl (fun c e => c * e.cardinality) (.known 1))
    (extent :: (index.map IndexEstimate.cardinality).toList)
  refine ⟨least, hleast, ?_⟩
  have hmem := Sorting.least_mem hleast
  rw [List.mem_cons, List.mem_cons, Option.mem_toList, Option.map_eq_some_iff] at hmem
  rcases hmem with rfl | rfl | ⟨i, rfl, rfl⟩
  · exact Cardinality.foldl_mul_ne_unknown Cardinality.noConfusion hknown
  · exact hextent_ne
  · exact hsize i rfl

end Reports
end Atom
end JoinOrder
