import JoinOrder.Proofs.Binding
import JoinOrder.Proofs.Found
import JoinOrder.Proofs.Sorting

/-!
# Estimates

Whatever the estimates of an atom are taken from, they are bounds for all rows that extend the
constants by values of the bound variables: `Atom.Counted.estimate_spec` for the values of a
variable, `Atom.Counted.outputEstimate_spec` for the rows of the atom.
-/

namespace JoinOrder

namespace Atom

/-- The tightest constraint is one that applies. -/
theorem tightestConstraint_spec {constraints : List DegreeConstraint} {bound targets : List Name}
    {n : Nat} {c : DegreeConstraint}
    (h : tightestConstraint constraints bound targets = .ok (some (n, c))) :
    c ∈ constraints ∧ c.upper = some n ∧ ∃ target ∈ targets, c.appliesTo bound target = true := by
  obtain ⟨all, hall, h⟩ := Checked.bind_eq_ok.1 h
  have hmem : (n, c) ∈ all := by
    cases all with
    | nil => cases h
    | cons first rest =>
      obtain ⟨least, hleast, h⟩ := Checked.bind_eq_ok.1 h
      cases h
      exact Sorting.least_mem hleast
  obtain ⟨c', hc', hf⟩ := Checked.exists_of_mem_filterMapM hall hmem
  obtain ⟨bounded, -, hf⟩ := Checked.bind_eq_ok.1 hf
  split at hf
  swap
  · cases hf
  split at hf
  swap
  · cases hf
  next n' hn' =>
  split at hf
  swap
  · cases hf
  next hany =>
  cases hf
  exact ⟨hc', hn', List.any_eq_true.1 hany⟩

theorem attributesOf_subset {a : Atom} {v : Variable} {targets : List Name} {target : Name}
    (h : a.attributesOf v = .ok targets) (ht : target ∈ targets) : target ∈ a.attributes [v] := by
  unfold attributesOf at h
  split at h
  · next hl =>
    cases h
    exact List.mem_flatMap.2 ⟨v, List.mem_singleton_self v, by rwa [hl]⟩
  · cases h

/-- An estimate comes from an index, from a constraint that applies to an attribute of the variable,
or from the size of the relation. -/
theorem estimate_cases {a : Atom} {b : Binding} {v : Variable} {e : Estimate}
    (h : a.estimate b v = .ok e) :
    (∃ i, a.indexEstimate b (a.boundVariables b) = .ok (some i) ∧
      e.cardinality = i.cardinality) ∨
    (∃ n, ∃ c ∈ a.relation.constraints, c.upper = some n ∧
      (∃ target ∈ a.attributes [v],
        c.appliesTo (a.attributes (a.boundVariables b)) target = true) ∧
      Cardinality.ofValue (.ofNat n) = .ok e.cardinality) ∨
    a.relation.extent = .ok e.cardinality := by
  unfold estimate at h
  rw [Checked.guard_eq_ok] at h
  obtain ⟨-, h⟩ := h
  obtain ⟨index, hindex, h⟩ := Checked.bind_eq_ok.1 h
  obtain ⟨targets, htargets, h⟩ := Checked.bind_eq_ok.1 h
  obtain ⟨constraint, hconstraint, h⟩ := Checked.bind_eq_ok.1 h
  obtain ⟨i, rfl, he⟩ | he : (∃ i, index = some i ∧ e.cardinality = i.cardinality) ∨
      (match constraint with
        | some (n, _) => Cardinality.ofValue (.ofNat n)
        | none => a.relation.extent) = .ok e.cardinality := by
    cases index with
    | none =>
      obtain ⟨_, ⟨⟩, h⟩ := Checked.bind_eq_ok.1 h
      cases constraint
      all_goals
        obtain ⟨size, hsize, h⟩ := Checked.bind_eq_ok.1 h
        cases h
        exact .inr hsize
    | some i =>
      obtain ⟨prevails, -, h⟩ := Checked.bind_eq_ok.1 h
      obtain ⟨_, ⟨⟩, h⟩ := Checked.bind_eq_ok.1 h
      cases prevails with
      | true =>
        cases h
        exact .inl ⟨i, rfl, rfl⟩
      | false =>
        cases constraint
        all_goals
          obtain ⟨size, hsize, h⟩ := Checked.bind_eq_ok.1 h
          cases h
          exact .inr hsize
  · exact .inl ⟨i, hindex, he⟩
  · cases constraint with
    | none => exact .inr (.inr he)
    | some c =>
      obtain ⟨hmem, hupper, target, htarget, happlies⟩ := tightestConstraint_spec hconstraint
      exact .inr (.inl ⟨c.1, c.2, hmem, hupper,
        ⟨target, attributesOf_subset htargets htarget, happlies⟩, he⟩)

/-- An index counts the tuples with the known values, or it knows how often its key occurs. -/
theorem indexEstimate_cases {a : Atom} {b : Binding} {vars : List Variable} {index : IndexEstimate}
    (h : a.indexEstimate b vars = .ok (some index)) :
    (∃ found, a.relation.lookup (a.relationBinding b.values) = .ok found ∧
      index.cardinality = found.cardinality) ∨
    a.relation.keyFrequency (a.attributes vars) = .ok (some index.cardinality) := by
  unfold indexEstimate at h
  split at h
  · cases h
  dsimp only at h
  split at h
  swap
  · cases h
  split at h
  · obtain ⟨found, hlookup, h⟩ := Checked.bind_eq_ok.1 h
    cases h
    exact .inl ⟨found, hlookup, rfl⟩
  · obtain ⟨o, hfrequency, h⟩ := Checked.bind_eq_ok.1 h
    obtain ⟨size, rfl, rfl⟩ := Option.map_eq_some_iff.1 (Except.ok.inj h)
    exact .inr hfrequency

/-- What an atom contributes is estimated by an index, by the size of the relation, or by the
product of the estimates of all unbound variables, of which there may be none. -/
theorem outputEstimate_cases {a : Atom} {b : Binding} {c : Cardinality}
    (h : a.outputEstimate b = .ok c) :
    (∃ i, a.indexEstimate b (a.boundVariables b) = .ok (some i) ∧ c = i.cardinality) ∨
    a.relation.extent = .ok c ∨
    (∀ i, a.indexEstimate b (a.boundVariables b) = .ok (some i) → i.exact = false) ∧
      ∃ estimates, (a.unboundVariables b).mapM (a.estimate b) = .ok estimates ∧
        c = estimates.foldl (fun c e => c * e.cardinality) (.known 1) := by
  obtain ⟨index, hindex, h⟩ := Checked.bind_eq_ok.1 h
  split at h
  · cases h
    exact .inl ⟨_, hindex, rfl⟩
  next hinexact =>
  have hexact : ∀ i, a.indexEstimate b (a.boundVariables b) = .ok (some i) → i.exact = false := by
    intro i hi
    cases hindex.symm.trans hi
    rw [← Bool.not_eq_true]
    exact fun he => hinexact i.cardinality i.key (he ▸ rfl)
  split at h
  · -- An atom without unbound variables only confirms a row.
    next hempty =>
    rw [List.isEmpty_iff] at hempty
    have hbound : a.boundVariables b = a.vars := List.filter_eq_self.2 fun v hv => by
      simpa using List.filter_eq_nil_iff.1 hempty v hv
    obtain ⟨e, he, h⟩ := Checked.bind_eq_ok.1 h
    rw [cheapestEstimate, hempty, List.mapM_nil, Checked.pure_def, Checked.bind_ok, ← hbound,
      hindex] at he
    cases h
    cases index with
    | some i =>
      cases he
      exact .inl ⟨i, hindex, rfl⟩
    | none =>
      cases he
      exact .inr (.inr ⟨hexact, [], by rw [hempty, List.mapM_nil]; rfl, rfl⟩)
  · obtain ⟨estimates, hestimates, h⟩ := Checked.bind_eq_ok.1 h
    obtain ⟨extent, hextent, h⟩ := Checked.bind_eq_ok.1 h
    rcases List.mem_cons.1 (Sorting.least_mem h) with rfl | hmem
    · exact .inr (.inr ⟨hexact, estimates, hestimates, rfl⟩)
    rcases List.mem_cons.1 hmem with rfl | hmem
    · exact .inr (.inl hextent)
    · obtain ⟨i, rfl, rfl⟩ : ∃ i, index = some i ∧ i.cardinality = c := by simpa using hmem
      exact .inl ⟨i, hindex, rfl⟩

/-- A constraint that applies bounds the values that a variable has in rows of the atom which have
the same values of the bound variables. -/
theorem card_le_of_appliesTo {κ : Type} [DecidableEq κ] {K : ValueClass κ} {a : Atom}
    {tuples : List (List Value)} {c : DegreeConstraint} {n : Nat} {v : Variable} {target : Name}
    {bound : List Variable} {values : Finset (Option κ)}
    (H : c.Holds K a.relation.attributes tuples) (hn : c.upper = some n)
    (htarget : target ∈ a.attributes [v])
    (happlies : c.appliesTo (a.attributes bound) target = true) (g : View κ)
    (h : ∀ x ∈ values, ∃ t ∈ tuples, ∃ f, a.Means (K.codes t) f ∧ f v = x ∧
      ∀ w ∈ bound, f w = g w) : values.card ≤ n := by
  rw [DegreeConstraint.appliesTo, Bool.and_eq_true, decide_eq_true_iff,
    StoredRelation.covers_iff] at happlies
  obtain ⟨hdomain, hrange⟩ := happlies
  obtain ⟨e, he, hev, hname⟩ := mem_attributes htarget
  cases List.mem_singleton.1 hev
  -- Each attribute of the domain is mapped by a bound variable, which decides its value.
  choose! w hw hbound hnames using fun name hd => mem_attributes (hdomain name hd)
  refine H.card_le hn hrange (fun name => g (w name).1) fun x hx => ?_
  obtain ⟨t, ht, f, hm, rfl, hf⟩ := h x hx
  refine ⟨t, ht, (hm.mapped e he target hname).symm, fun name hd => ?_⟩
  rw [← hm.mapped _ (hw name hd) name (hnames name hd), hf _ (hbound name hd)]

/-- A size bounds the number of rows that are found for a row of the bound variables. -/
def BoundsRows {κ : Type} (K : ValueClass κ) (T : Variable → Value → Prop) (a : Atom)
    (tuples : List (List Value)) (b : Binding) (size : Cardinality) : Prop :=
  ∃ n, size = .known n ∧ ∀ row, Admitted K T b.values b.boundVariables row →
    (a.found K tuples (K.view row)).card ≤ n

/-- A size bounds the number of values that these rows give to a variable. -/
def BoundsValues {κ : Type} [DecidableEq κ] (K : ValueClass κ) (T : Variable → Value → Prop)
    (a : Atom) (tuples : List (List Value)) (b : Binding) (v : Variable) (size : Cardinality) :
    Prop :=
  ∃ n, size = .known n ∧ ∀ row, Admitted K T b.values b.boundVariables row →
    ((a.found K tuples (K.view row)).image (· v)).card ≤ n

/-- The sizes that are multiplied to estimate how many tuples an atom contributes, where no index
counts them. -/
def Multiplies (a : Atom) (b : Binding) (x y : Cardinality) : Prop :=
  (∀ i, a.indexEstimate b (a.boundVariables b) = .ok (some i) → i.exact = false) ∧
    ∃ estimates, (a.unboundVariables b).mapM (a.estimate b) = .ok estimates ∧
      Cardinality.Multiplies (.known 1) (estimates.map Estimate.cardinality) x y

theorem BoundsRows.values {κ : Type} [DecidableEq κ] {K : ValueClass κ}
    {T : Variable → Value → Prop} {a : Atom} {tuples : List (List Value)} {b : Binding}
    {size : Cardinality} (h : a.BoundsRows K T tuples b size) (v : Variable) :
    a.BoundsValues K T tuples b v size := by
  obtain ⟨n, hn, hle⟩ := h
  exact ⟨n, hn, fun row hrow => Nat.le_trans Finset.card_image_le (hle row hrow)⟩

namespace Counted

variable {κ : Type} [DecidableEq κ] {K : ValueClass κ} {T : Variable → Value → Prop} {a : Atom}
  {tuples : List (List Value)} {b : Binding} {row : Assignment} {f g : View κ} {v : Variable}
  {vars : List Variable} {name : Name} {c : Cardinality} {index : IndexEstimate} {e : Estimate}
  {n : Nat} (H : a.Counted K T tuples)

include H

/-- All rows that are found have the bound values. -/
theorem found_bound (hrow : Extends K b.values b.boundVariables row)
    (hf : f ∈ a.found K tuples (K.view row)) (hv : v ∈ a.boundVariables b) :
    f v = K.view row v := by
  obtain ⟨hmem, hbound⟩ := List.mem_filter.1 hv
  obtain ⟨hagree, t, ht, hm⟩ := (mem_found H.wellFormed).1 hf
  obtain ⟨e, he, rfl⟩ := List.mem_map.1 hmem
  obtain ⟨name, hname⟩ := List.exists_mem_of_ne_nil _ (H.wellFormed.mapped e he)
  obtain ⟨y, -, -, hy⟩ := (H.fits t ht).value (H.wellFormed.attributes_mem e he name hname)
  obtain ⟨x, hx, -⟩ := hrow.assigns.get? (Binding.mem_boundVariables.2 hbound)
  have hview : K.view row e.1 = some (K.code x) := by rw [ValueClass.view, hx, Option.map_some]
  have hfound := (hm.mapped e he name hname).trans hy
  rw [hview, hfound, hagree e.1 _ _ hview hfound]

/-- A constraint that applies bounds the values of a target. -/
theorem constraint_spec {constraint : DegreeConstraint} {target : Name} {size : Cardinality}
    (hmem : constraint ∈ a.relation.constraints) (hn : constraint.upper = some n)
    (htarget : target ∈ a.attributes [v])
    (happlies : constraint.appliesTo (a.attributes (a.boundVariables b)) target = true)
    (hsize : Cardinality.ofValue (.ofNat n) = .ok size) : a.BoundsValues K T tuples b v size := by
  refine ⟨n, Cardinality.ofValue_eq_known hsize, fun row hrow => ?_⟩
  refine card_le_of_appliesTo (H.constraints constraint hmem) hn htarget happlies (K.view row)
    fun x hx => ?_
  obtain ⟨f, hf, rfl⟩ := Finset.mem_image.1 hx
  obtain ⟨-, t, ht, hm⟩ := (mem_found H.wellFormed).1 hf
  exact ⟨t, ht, f, hm, rfl, fun w hw => H.found_bound hrow.toExtends hf hw⟩

section

variable (hc : K.Assigns b.values.vars b.values) (hT : b.values.Takes T)

include hc

/-- The number of all tuples bounds the number of the rows that are found. -/
theorem extent_spec {size : Cardinality} (h : a.relation.extent = .ok size) :
    a.BoundsRows K T tuples b size := by
  obtain ⟨n, hn, hle⟩ := H.counts.extent asks_nil h
  refine ⟨n, hn, fun row hrow => Nat.le_trans (H.card_found_le hc hrow.within) ?_⟩
  exact Nat.le_trans List.countP_le_length hle

include hT

/-- What an index says about some bound variables is a bound. -/
theorem indexEstimate_spec (hv : ∀ v ∈ vars, b.isBound v = true)
    (h : a.indexEstimate b vars = .ok (some index)) :
    a.BoundsRows K T tuples b index.cardinality := by
  rcases indexEstimate_cases h with ⟨result, hlookup, hsize⟩ | hfrequency
  · obtain ⟨n, hn, hle⟩ := H.counts.lookup_le ⟨_, _, hc, hT, rfl⟩ hlookup
    exact ⟨n, hsize.trans hn, fun row hrow => Nat.le_trans (H.card_found_le hc hrow.within) hle⟩
  · obtain ⟨o, ho, hsize⟩ := H.counts.frequency (a.attributes vars)
    cases hfrequency.symm.trans ho
    obtain ⟨n, hn, hle⟩ := hsize _ rfl
    refine ⟨n, hn, fun row hrow => ?_⟩
    refine Nat.le_trans (H.card_found_le hrow.assigns fun _ _ h => h)
      (hle _ (H.wellFormed.binds_relationBinding fun v _ => hrow.assigns.carrier v)
        fun name hname => mem_names_relationBinding hname fun v hmem => ?_)
    obtain ⟨x, hx, -⟩ := hrow.assigns.get? (Binding.mem_boundVariables.2 (hv v hmem))
    exact ⟨x, hx⟩

/-- The estimate of a variable bounds the number of its values. -/
theorem estimate_spec (h : a.estimate b v = .ok e) :
    a.BoundsValues K T tuples b v e.cardinality := by
  rcases estimate_cases h with
    ⟨i, hi, he⟩ | ⟨n, c, hmem, hupper, ⟨target, htarget, happlies⟩, he⟩ | he
  · rw [he]
    exact (H.indexEstimate_spec hc hT (fun v hv => (List.mem_filter.1 hv).2) hi).values v
  · exact H.constraint_spec hmem hupper htarget happlies he
  · exact (H.extent_spec hc he).values v

omit hc hT in
/-- Rows that are found for the same row differ in the unbound variables. -/
theorem found_ext (hrow : Extends K b.values b.boundVariables row)
    (hf : f ∈ a.found K tuples (K.view row)) (hg : g ∈ a.found K tuples (K.view row))
    (h : ∀ v ∈ a.unboundVariables b, f v = g v) : f = g := by
  obtain ⟨-, t, -, hm⟩ := (mem_found H.wellFormed).1 hf
  obtain ⟨-, u, -, hm'⟩ := (mem_found H.wellFormed).1 hg
  funext v
  by_cases hv : v ∈ a.vars
  · by_cases hb : b.isBound v = true
    · have hbound : v ∈ a.boundVariables b := List.mem_filter.2 ⟨hv, hb⟩
      rw [H.found_bound hrow hf hbound, H.found_bound hrow hg hbound]
    · exact h v (List.mem_filter.2 ⟨hv, by simpa using hb⟩)
  · rw [hm.unmapped v hv, hm'.unmapped v hv]

/-- The product of the estimates of all unbound variables is a bound, if it is exact. -/
theorem product_spec {estimates : List Estimate}
    (h : (a.unboundVariables b).mapM (a.estimate b) = .ok estimates)
    (hp : ∀ x y, Cardinality.Multiplies (.known 1) (estimates.map Estimate.cardinality) (.known x)
      (.known y) → x * y ≤ 2 ^ 53) :
    a.BoundsRows K T tuples b (estimates.foldl (fun c e => c * e.cardinality) (.known 1)) := by
  have hsizes : ∀ {vars : List Variable}, vars.mapM (a.estimate b) = .ok estimates →
      ∃ sizes : List Nat, estimates.map Estimate.cardinality = sizes.map Cardinality.known ∧
        ∀ row, Admitted K T b.values b.boundVariables row →
          (vars.map fun v => ((a.found K tuples (K.view row)).image (· v)).card).prod ≤
            sizes.prod := by
    intro vars hvars
    rw [Checked.mapM_eq_ok] at hvars
    clear hp h
    induction hvars with
    | nil => exact ⟨[], rfl, fun _ _ => Nat.le_refl _⟩
    | cons he _ ih =>
      obtain ⟨n, hn, hle⟩ := H.estimate_spec hc hT he
      obtain ⟨sizes, hsizes, hle'⟩ := ih
      refine ⟨n :: sizes, by rw [List.map_cons, List.map_cons, hn, hsizes], fun row hrow => ?_⟩
      rw [List.map_cons, List.prod_cons, List.prod_cons]
      exact Nat.mul_le_mul (hle row hrow) (hle' row hrow)
  obtain ⟨sizes, hsizes, hle⟩ := hsizes h
  rw [hsizes] at hp
  have hfold := Cardinality.foldl_known hp
  rw [Nat.one_mul, ← hsizes, List.foldl_map] at hfold
  refine ⟨sizes.prod, hfold, fun row hrow => Nat.le_trans ?_ (hle row hrow)⟩
  exact card_le_prod_values _ _ fun f hf g hg => H.found_ext hrow.toExtends hf hg

/-- How many tuples an atom is expected to contribute bounds how many it does, if the products that
are formed are exact. -/
theorem outputEstimate_spec
    (hp : ∀ x y, a.Multiplies b (.known x) (.known y) → x * y ≤ 2 ^ 53)
    (h : a.outputEstimate b = .ok c) : a.BoundsRows K T tuples b c := by
  rcases outputEstimate_cases h with
    ⟨i, hi, rfl⟩ | hextent | ⟨hexact, estimates, hestimates, rfl⟩
  · exact H.indexEstimate_spec hc hT (fun v hv => (List.mem_filter.1 hv).2) hi
  · exact H.extent_spec hc hextent
  · exact H.product_spec hc hT hestimates fun x y hxy => hp x y ⟨hexact, estimates, hestimates, hxy⟩

end

end Counted

end Atom
end JoinOrder
