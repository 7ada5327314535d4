import JoinOrder.Proofs.Counts
import JoinOrder.Proofs.Evaluation
import JoinOrder.Proofs.Reports

/-!
# Estimates as bounds

The estimate of a variable bounds how many values it has in the tuples that agree with the values of
the bound variables (`Atom.estimate_bounds`). Unlike for the rows of an atom, tuples may repeat,
only some attributes may be mapped, and relations may be stored in streams.
-/

namespace JoinOrder
namespace Atom

variable {κ : Type} [DecidableEq κ] {K : ValueClass κ} {a : Atom} {b : Binding}
  {tuples : List (List Value)} {row s : Assignment} {v : Variable} {t : List Value}
  {size : Cardinality}

/-! ## Values of a variable -/

/-- The rows that an atom makes of some tuples and that have the values of a row. -/
def agreeing (K : ValueClass κ) (a : Atom) (tuples : List (List Value)) (s : Assignment) :
    List Assignment :=
  tuples.filterMap fun t => (a.variableBinding t).toOption.join.filter fun row =>
    ∀ w ∈ s.vars, K.view row w = K.view s w

/-- The different values that a variable has in these rows. -/
def valuesAt (K : ValueClass κ) (a : Atom) (tuples : List (List Value)) (s : Assignment)
    (v : Variable) : Finset κ :=
  ((a.agreeing K tuples s).filterMap fun row => K.view row v).toFinset

/-- A tuple means a row with the values of another row. -/
def MeansAt (K : ValueClass κ) (a : Atom) (s : Assignment) (t : List Value) (row : Assignment) :
    Prop :=
  a.variableBinding t = .ok (some row) ∧ ∀ w ∈ s.vars, K.view row w = K.view s w

theorem filter_eq_some : (a.variableBinding t).toOption.join.filter
    (fun row => ∀ w ∈ s.vars, K.view row w = K.view s w) = some row ↔ a.MeansAt K s t row := by
  rw [Option.filter_eq_some_iff, decide_eq_true_iff, MeansAt]
  refine and_congr_left fun _ => ?_
  cases a.variableBinding t with
  | error f => simp [Except.toOption]
  | ok o => simp [Except.toOption]

theorem mem_valuesAt {x : κ} : x ∈ a.valuesAt K tuples s v ↔
    ∃ t ∈ tuples, ∃ row, a.MeansAt K s t row ∧ K.view row v = some x := by
  rw [valuesAt, List.mem_toFinset, List.mem_filterMap]
  simp only [agreeing, List.mem_filterMap, filter_eq_some]
  constructor
  · rintro ⟨row, ⟨t, ht, hm⟩, hx⟩
    exact ⟨t, ht, row, hm, hx⟩
  · rintro ⟨t, ht, row, hm, hx⟩
    exact ⟨row, ⟨t, ht, hm⟩, hx⟩

/-- There are no more values than rows. -/
theorem card_valuesAt_le :
    (a.valuesAt K tuples s v).card ≤ (a.agreeing K tuples s).length :=
  Nat.le_trans (List.toFinset_card_le _) (List.length_filterMap_le ..)

/-- There are no more rows than tuples. -/
theorem length_agreeing_le {p : List Value → Bool}
    (h : ∀ t ∈ tuples, ∀ row, a.MeansAt K s t row → p t = true) :
    (a.agreeing K tuples s).length ≤ tuples.countP p := by
  calc (a.agreeing K tuples s).length
      = tuples.countP fun t => ((a.variableBinding t).toOption.join.filter
          fun row => ∀ w ∈ s.vars, K.view row w = K.view s w).isSome :=
        List.length_filterMap_eq_countP
    _ ≤ tuples.countP p := by
        refine List.countP_mono_left fun t ht hsome => ?_
        obtain ⟨row, hrow⟩ := Option.isSome_iff_exists.1 hsome
        exact h t ht row (filter_eq_some.1 hrow)

omit [DecidableEq κ] in
theorem MeansAt.means (hw : a.WellFormed) (ht : K.Fits a.relation.attributes t)
    (h : a.MeansAt K s t row) : a.Means (K.codes t) (K.view row) ∧ K.Assigns a.vars row := by
  obtain ⟨o, ho, hview, hassigns⟩ := variableBinding_spec hw ht
    (comparesKeys_of_variableBinding hw ht.1 h.1)
  cases h.1.symm.trans ho
  exact ⟨(meaning_eq_some hw).1 hview.symm, hassigns row rfl⟩

/-! ## Bounds -/

/-- A row of values for the bound variables of an atom that agrees with the known values. -/
structure Admits (K : ValueClass κ) (a : Atom) (b : Binding) (s : Assignment) : Prop where
  assigns : K.Assigns (a.boundVariables b) s
  agree : (K.view b.values).Agree (K.view s)

/-- An atom whose relation announces bounds for lookups of some kind, and of which the declared
constraints are true. -/
structure Announces (K : ValueClass κ) (binds : NamedValues → Prop) (a : Atom)
    (tuples : List (List Value)) : Prop where
  wellFormed : a.WellFormed
  fits : ∀ t ∈ tuples, K.Fits a.relation.attributes t
  announces : a.relation.Announces K binds tuples
  constraints : ∀ c ∈ a.relation.constraints, c.Holds K a.relation.attributes tuples
  binds_nil : binds []
  carrier : ∀ binding, binds binding → ∀ e ∈ binding, K.carrier e.2

namespace Announces

variable {binds : NamedValues → Prop} (H : a.Announces K binds tuples)

include H

theorem carrier_of_binds (hb : binds (a.relationBinding row)) :
    ∀ v ∈ a.vars, ∀ x, row.get? v = some x → K.carrier x := by
  intro v hv x hx
  obtain ⟨e, he, rfl⟩ := List.mem_map.1 hv
  obtain ⟨name, hname⟩ := List.exists_mem_of_ne_nil _ (H.wellFormed.mapped e he)
  exact H.carrier _ hb (name, x) (mem_relationBinding.2 ⟨e, he, hname, hx⟩)

/-- The size of the relation bounds the rows. -/
theorem extent_bounds (h : a.relation.extent = .ok size) :
    size.Bounds (a.agreeing K tuples s).length := by
  obtain ⟨found, hfound, hbound⟩ := H.announces.lookup [] H.binds_nil
  obtain ⟨found', hlookup, h⟩ := Checked.bind_eq_ok.1 h
  cases hlookup.symm.trans hfound
  cases h
  exact hbound.mono (length_agreeing_le fun t _ _ _ => by simp [NamedValues.holds])

variable (hk : binds (a.relationBinding b.values))

section

include hk

/-- Relations that announce bounds report sizes that are known or unbounded. -/
theorem reports (hc : ∀ c ∈ a.relation.constraints, ∀ n, c.upper = some n →
    (Binary64.ofInt? n).isSome = true) : a.Reports b.values where
  extent := by
    obtain ⟨found, hfound, hbound⟩ := H.announces.lookup [] H.binds_nil
    exact ⟨found.cardinality, Checked.bind_eq_ok.2 ⟨found, hfound, rfl⟩, hbound.ne_unknown⟩
  lookup := by
    obtain ⟨found, hfound, hbound⟩ := H.announces.lookup _ hk
    exact ⟨found, hfound, hbound.ne_unknown⟩
  frequency bound := by
    obtain ⟨o, ho, hsize⟩ := H.announces.frequency bound
    refine ⟨o, ho, fun hunknown => ?_⟩
    obtain ⟨n, hn, -⟩ := hsize .unknown hunknown
    cases hn
  bounds := hc

end

variable (hs : a.Admits K b s)

include hs

/-- Tuples that agree with a row have its values. -/
theorem holds_row (ht : t ∈ tuples) (hm : a.MeansAt K s t row) :
    (a.relationBinding s).holds a.relation.attributes t = true := by
  obtain ⟨hmeans, -⟩ := hm.means H.wellFormed (H.fits t ht)
  refine (holds_relationBinding H.wellFormed (fun v _ => hs.assigns.carrier v) (H.fits t ht)
    hmeans).2 fun v x y hx hy => ?_
  have hv : v ∈ s.vars := by
    by_contra hv
    rw [ValueClass.view_eq_none_iff.2 hv] at hx
    cases hx
  exact Option.some.inj (hx.symm.trans ((hm.2 v hv).symm.trans hy))

/-- A constraint that applies to an attribute of the variable bounds its values. -/
theorem constraint_bounds {c : DegreeConstraint} {n : Nat} {target : Name}
    (hc : c ∈ a.relation.constraints) (hn : c.upper = some n) (htarget : target ∈ a.attributes [v])
    (happlies : c.appliesTo (a.attributes (a.boundVariables b)) target = true) :
    (a.valuesAt K tuples s v).card ≤ n := by
  rw [← Finset.card_image_of_injective _ (Option.some_injective κ)]
  refine card_le_of_appliesTo (H.constraints c hc) hn htarget happlies (K.view s) fun x hx => ?_
  obtain ⟨y, hy, rfl⟩ := Finset.mem_image.1 hx
  obtain ⟨t, ht, row, hm, hv⟩ := mem_valuesAt.1 hy
  obtain ⟨hmeans, -⟩ := hm.means H.wellFormed (H.fits t ht)
  exact ⟨t, ht, K.view row, hmeans, hv, fun w hw => hm.2 w ((hs.assigns.mem_vars w).2 hw)⟩

include hk

/-- They have the known values, too. -/
theorem holds_known (ht : t ∈ tuples) (hm : a.MeansAt K s t row) :
    (a.relationBinding b.values).holds a.relation.attributes t = true := by
  obtain ⟨hmeans, hrow⟩ := hm.means H.wellFormed (H.fits t ht)
  refine (holds_relationBinding H.wellFormed (H.carrier_of_binds hk) (H.fits t ht) hmeans).2
    fun v x y hx hy => ?_
  have hv : v ∈ a.vars := by
    by_contra hv
    rw [hmeans.unmapped v hv] at hy
    cases hy
  have hknown : v ∈ b.values.vars := by
    by_contra hv
    rw [ValueClass.view_eq_none_iff.2 hv] at hx
    cases hx
  have hbound : b.isBound v = true := Binding.isBound_iff.2 (.inl hknown)
  have hsame := hm.2 v ((hs.assigns.mem_vars v).2 (List.mem_filter.2 ⟨hv, hbound⟩))
  exact hs.agree v x y hx (hsame.symm.trans hy)

/-- What an index says about the bound variables bounds the rows. -/
theorem index_bounds {index : IndexEstimate}
    (h : a.indexEstimate b (a.boundVariables b) = .ok (some index)) :
    index.cardinality.Bounds (a.agreeing K tuples s).length := by
  rcases indexEstimate_cases h with ⟨found, hlookup, hsize⟩ | hfrequency
  · obtain ⟨found', hfound, hbound⟩ := H.announces.lookup _ hk
    cases hlookup.symm.trans hfound
    rw [hsize]
    exact hbound.mono (length_agreeing_le fun t ht row hm => H.holds_known hk hs ht hm)
  · obtain ⟨o, ho, hsize⟩ := H.announces.frequency (a.attributes (a.boundVariables b))
    cases hfrequency.symm.trans ho
    obtain ⟨n, hn, hcount⟩ := hsize _ rfl
    refine .inr ⟨n, hn, Nat.le_trans
      (length_agreeing_le fun t ht row hm => H.holds_row hs ht hm) ?_⟩
    refine hcount _ (H.wellFormed.binds_relationBinding fun v _ => hs.assigns.carrier v)
      fun name hname => mem_names_relationBinding hname fun v hv => ?_
    obtain ⟨x, hx, -⟩ := hs.assigns.get? hv
    exact ⟨x, hx⟩

/-- Whatever an estimate is taken from, it bounds the values of its variable. -/
theorem estimate_bounds_of_ok {e : Estimate} (h : a.estimate b v = .ok e) :
    e.cardinality.Bounds (a.valuesAt K tuples s v).card := by
  rcases estimate_cases h with
    ⟨i, hi, he⟩ | ⟨n, c, hmem, hupper, ⟨target, htarget, happlies⟩, he⟩ | he
  · rw [he]
    exact (H.index_bounds hk hs hi).mono card_valuesAt_le
  · rw [Cardinality.ofValue_eq_known he]
    exact .inr ⟨n, rfl, H.constraint_bounds hs hmem hupper htarget happlies⟩
  · exact (H.extent_bounds he).mono card_valuesAt_le

end Announces

/-! ## Relations in memory -/

/-- An atom over a consistent relation, or a view of one, of which the declared lengths of streams
and the declared constraints are true. -/
structure InMemory {σ : Type} [LinearOrder σ] (R : RankedClass σ) (K : ValueClass κ) (a : Atom)
    (r : StoredRelation) (rows : List (List Value)) : Prop extends a.Over R r rows where
  measured : r.Measured
  constraints : ∀ c ∈ a.relation.constraints, c.Holds K a.relation.attributes a.relation.tuples

variable {σ : Type} [LinearOrder σ] {R : RankedClass σ} {r : StoredRelation}
  {rows : List (List Value)}

theorem InMemory.announces (H : a.InMemory R K r rows) (hK : K.IncludesIntegers R.toValueClass) :
    a.Announces K (r.Typed R) a.relation.tuples where
  wellFormed := H.wellFormed
  fits := H.fits hK
  announces := H.shows.announces (fun _ => (H.consistent.keeps hK).fits)
    (fun _ hb => hb.attributes) (H.consistent.announces H.measured hK)
  constraints := H.constraints
  binds_nil := ⟨nofun, nofun, nofun⟩
  carrier _ hb := hb.included H.consistent.wellFormed hK

/-- The estimate of a variable bounds how many values it has in the tuples that agree with any
values of the bound variables, as far as these are known. It only fails if the bound of a constraint
is out of the range of numbers. -/
theorem estimate_bounds (hK : K.IncludesIntegers R.toValueClass) (H : a.InMemory R K r rows)
    (hk : r.Typed R (a.relationBinding b.values)) (hv : v ∈ a.vars) :
    (∃ e, a.estimate b v = .ok e ∧ ∀ s, a.Admits K b s →
      e.cardinality.Bounds (a.valuesAt K a.relation.tuples s v).card) ∨
    ∃ f, a.estimate b v = .error f ∧
      ∃ c ∈ a.relation.constraints, ∃ n, c.upper = some n ∧ Binary64.ofInt? n = none := by
  have A := H.announces hK
  cases h : a.estimate b v with
  | ok e => exact .inl ⟨e, rfl, fun s hs => A.estimate_bounds_of_ok hk hs h⟩
  | error f =>
    refine .inr ⟨f, rfl, ?_⟩
    by_contra hc
    have hall : ∀ c ∈ a.relation.constraints, ∀ n, c.upper = some n →
        (Binary64.ofInt? n).isSome = true := by
      intro c hmem n hn
      rw [← Option.ne_none_iff_isSome]
      exact fun hnone => hc ⟨c, hmem, n, hn, hnone⟩
    obtain ⟨e, he, -⟩ := (A.reports hk hall).exists_estimate hv
    cases h.symm.trans he

end Atom

/-! ## Edges of a node -/

namespace Edges

/-- The edges, of which no more than two leave a node. -/
def bounded : StoredRelation :=
  { relation with constraints := [⟨0, some 2, [.text "a"], [.text "b"]⟩] }

/-- The edges with their ends first. -/
def atom : Atom :=
  ⟨.view ⟨bounded, [.text "b", .text "a"]⟩, [(.named "x", [.text "a"]), (.named "y", [.text "b"])]⟩

theorem bounded_consistent : bounded.Consistent OrderedClass.ints.toRanked
    (numbers [[1, 2], [2, 2], [2, 3]]) :=
  ⟨⟨by decide, by decide, by decide⟩, relation_consistent.primary, relation_consistent.auxiliaries⟩

theorem atom_inMemory : atom.InMemory OrderedClass.ints.toRanked OrderedClass.ints.toValueClass
    bounded (numbers [[1, 2], [2, 2], [2, 3]]) where
  wellFormed := ⟨by decide, by decide, by decide, by decide⟩
  shows := .view (by decide)
  consistent := bounded_consistent
  measured s hs := by
    simp only [bounded, StoredRelation.sources, relation, List.mem_cons, List.not_mem_nil, or_false]
      at hs
    rcases hs with rfl | rfl <;> exact .inl ⟨_, rfl⟩
  constraints c hc := by
    cases List.mem_singleton.1 hc
    change DegreeConstraint.Holds _ [.text "b", .text "a"] (numbers [[2, 1], [2, 2], [3, 2]]) _
    intro n hn t ht
    cases hn
    simp only [numbers, List.map_cons, List.map_nil, List.mem_cons, List.not_mem_nil,
      or_false] at ht
    rcases ht with rfl | rfl | rfl <;> decide

end Edges

namespace Atom

/-- Nodes are estimated to have two successors. None has more, and one has as many. -/
theorem estimate_edges :
    OrderedClass.ints.IncludesIntegers OrderedClass.ints.toRanked.toValueClass ∧
    Edges.atom.InMemory OrderedClass.ints.toRanked OrderedClass.ints.toValueClass Edges.bounded
      (Edges.numbers [[1, 2], [2, 2], [2, 3]]) ∧
    Edges.bounded.Typed OrderedClass.ints.toRanked
      (Edges.atom.relationBinding (Binding.ofParts [] [.named "x"]).values) ∧
    .named "y" ∈ Edges.atom.vars ∧
    ∃ e, Edges.atom.estimate (.ofParts [] [.named "x"]) (.named "y") = .ok e ∧
      e.cardinality = .known 2 ∧
      (∀ s, Edges.atom.Admits OrderedClass.ints.toValueClass (.ofParts [] [.named "x"]) s →
        e.cardinality.Bounds (Edges.atom.valuesAt OrderedClass.ints.toValueClass
          Edges.atom.relation.tuples s (.named "y")).card) ∧
      Edges.atom.Admits OrderedClass.ints.toValueClass (.ofParts [] [.named "x"])
        [(.named "x", .int 2)] ∧
      Edges.atom.valuesAt OrderedClass.ints.toValueClass Edges.atom.relation.tuples
        [(.named "x", .int 2)] (.named "y") = {2, 3} := by
  have hv : .named "y" ∈ Edges.atom.vars := by decide
  have hk : Edges.bounded.Typed OrderedClass.ints.toRanked
      (Edges.atom.relationBinding (Binding.ofParts [] [.named "x"]).values) := ⟨nofun, nofun, nofun⟩
  have he : ∃ e, Edges.atom.estimate (.ofParts [] [.named "x"]) (.named "y") = .ok e ∧
      e.cardinality = .known 2 := ⟨_, rfl, rfl⟩
  obtain ⟨e, he, hsize⟩ := he
  refine ⟨OrderedClass.ints_includes, Edges.atom_inMemory, hk, hv, e, he, hsize, ?_,
    ⟨⟨by simp, fun v => Iff.rfl, ?_⟩, ?_⟩, rfl⟩
  · rcases estimate_bounds OrderedClass.ints_includes Edges.atom_inMemory hk hv with
      ⟨e', he', hbound⟩ | ⟨f, hf, -⟩
    · cases he.symm.trans he'
      exact hbound
    · cases he.symm.trans hf
  · intro v x hx
    cases List.mem_singleton.1 (Assignment.mem_of_get? hx)
    exact ⟨2, rfl⟩
  · intro v x y hx
    cases hx

end Atom
end JoinOrder
