import JoinOrder.Proofs.Bounds

/-!
# What atoms contribute

What an atom is expected to contribute bounds the different rows that a step makes of a row
(`Atom.output_bounds`). Repeated rows are only covered where tuples are counted: a constraint bounds
the values of a variable, not how often they occur, and an atom that only confirms a row is taken
for a single tuple.
-/

namespace JoinOrder

/-- What a row assigns to some variables. -/
def Assignment.among (vars : List Variable) (row : Assignment) : Assignment :=
  row.filter (·.1 ∈ vars)

namespace Assignment

variable {row : Assignment} {vars : List Variable} {v : Variable}

theorem mem_vars_among : v ∈ (row.among vars).vars ↔ v ∈ row.vars ∧ v ∈ vars := by
  simp [among, Assignment.vars]

theorem get?_among (hv : v ∈ vars) : (row.among vars).get? v = row.get? v := by
  induction row with
  | nil => rfl
  | cons e rest ih =>
    rw [among] at ih ⊢
    rw [List.filter_cons, get?_cons]
    by_cases he : e.1 ∈ vars
    · rw [if_pos (by simpa using he), get?_cons, ih]
    · rw [if_neg (by simpa using he), if_neg fun h : v = e.1 => he (h ▸ hv), ih]

end Assignment

namespace Atom

variable {κ : Type} [DecidableEq κ] {K : ValueClass κ} {a : Atom} {b : Binding}
  {tuples : List (List Value)} {row s : Assignment} {v : Variable} {c : Cardinality}
  {binds : NamedValues → Prop}

/-! ## Rows of an atom -/

theorem agreeing_cons {t : List Value} {o : Option Assignment} (ho : a.variableBinding t = .ok o) :
    a.agreeing K (t :: tuples) s =
      (o.filter fun row => ∀ w ∈ s.vars, K.view row w = K.view s w).toList ++
        a.agreeing K tuples s := by
  rw [agreeing, agreeing, List.filterMap_eq_flatMap_toList, List.flatMap_cons, ho,
    ← List.filterMap_eq_flatMap_toList]
  rfl

omit [DecidableEq κ] in
/-- A row of an atom agrees with a row if it has its values. -/
theorem agree_iff_among {found : Assignment} (h : K.Assigns a.vars found) :
    (K.view row).Agree (K.view found) ↔
      ∀ w ∈ (row.among a.vars).vars, K.view found w = K.view (row.among a.vars) w := by
  rw [View.agree_comm, ValueClass.agree_iff h]
  constructor
  · intro H w hw
    obtain ⟨hrow, hmem⟩ := Assignment.mem_vars_among.1 hw
    rw [H w hmem hrow, ValueClass.view, ValueClass.view, Assignment.get?_among hmem]
  · intro H w hmem hrow
    rw [H w (Assignment.mem_vars_among.2 ⟨hrow, hmem⟩), ValueClass.view, ValueClass.view,
      Assignment.get?_among hmem]

open Classical in
/-- The rows of an atom that have the values of a row are those that agree with it. -/
theorem bag_agreeing (h : a.WellFormed)
    (ht : ∀ t ∈ tuples, K.Fits a.relation.attributes t ∧ a.ComparesKeys t) :
    K.bag (a.agreeing K tuples (row.among a.vars)) =
      (a.bag K tuples).filter (K.view row).Agree := by
  induction tuples with
  | nil => rfl
  | cons t rest ih =>
    rw [List.forall_mem_cons] at ht
    obtain ⟨o, ho, hview, hassigns⟩ := variableBinding_spec h ht.1.1 ht.1.2
    rw [agreeing_cons ho, ValueClass.bag_append, ih ht.2]
    cases o with
    | none =>
      rw [bag_cons_none hview.symm]
      exact zero_add _
    | some f =>
      rw [bag_cons_some hview.symm, Option.filter_some]
      have hiff : (K.view row).Agree (K.view f) ↔ _ := agree_iff_among (hassigns f rfl)
      by_cases hf : (K.view row).Agree (K.view f)
      · rw [if_pos (decide_eq_true (hiff.1 hf)), Multiset.filter_cons_of_pos _ hf]
        rfl
      · rw [if_neg (by simpa using mt hiff.2 hf), Multiset.filter_cons_of_neg _ hf]
        exact zero_add _

/-! ## Bounds -/

open Classical in
/-- The different rows that an atom makes of some tuples and that have the values of a row. -/
noncomputable def differing (K : ValueClass κ) (a : Atom) (tuples : List (List Value))
    (s : Assignment) : Finset (View κ) := ((a.agreeing K tuples s).map K.view).toFinset

theorem card_differing_le : (a.differing K tuples s).card ≤ (a.agreeing K tuples s).length := by
  classical
  exact Nat.le_trans (List.toFinset_card_le _) (Nat.le_of_eq (List.length_map ..))

theorem mem_differing {f : View κ} : f ∈ a.differing K tuples s ↔
    ∃ t ∈ tuples, ∃ found, a.MeansAt K s t found ∧ K.view found = f := by
  classical
  simp only [differing, List.mem_toFinset, List.mem_map, agreeing, List.mem_filterMap,
    filter_eq_some]
  constructor
  · rintro ⟨found, ⟨t, ht, hm⟩, rfl⟩
    exact ⟨t, ht, found, hm, rfl⟩
  · rintro ⟨t, ht, found, hm, rfl⟩
    exact ⟨found, ⟨t, ht, hm⟩, rfl⟩

/-- An estimate counts tuples: it comes from an index, or it is the size of the relation. -/
def CountsTuples (a : Atom) (b : Binding) (c : Cardinality) : Prop :=
  (∃ i, a.indexEstimate b (a.boundVariables b) = .ok (some i) ∧ c = i.cardinality) ∨
    a.relation.extent = .ok c

namespace Announces

variable (H : a.Announces K binds tuples)

include H

/-- The values that a variable has in different rows. -/
theorem card_image_differing_le (hv : v ∈ a.vars) :
    ((a.differing K tuples s).image (· v)).card ≤ (a.valuesAt K tuples s v).card := by
  rw [← Finset.card_image_of_injective _ (Option.some_injective κ)]
  refine Finset.card_le_card fun o ho => ?_
  obtain ⟨f, hf, rfl⟩ := Finset.mem_image.1 ho
  obtain ⟨t, ht, found, hm, rfl⟩ := mem_differing.1 hf
  obtain ⟨x, hx, -⟩ := (hm.means H.wellFormed (H.fits t ht)).2.get? hv
  have hview : K.view found v = some (K.code x) := by rw [ValueClass.view, hx, Option.map_some]
  exact Finset.mem_image.2 ⟨_, mem_valuesAt.2 ⟨t, ht, found, hm, hview⟩, hview.symm⟩

variable (hk : binds (a.relationBinding b.values)) (hs : a.Admits K b s)

include hs

/-- Different rows differ in the unbound variables. -/
theorem differing_ext {f g : View κ} (hf : f ∈ a.differing K tuples s)
    (hg : g ∈ a.differing K tuples s) (h : ∀ v ∈ a.unboundVariables b, f v = g v) : f = g := by
  obtain ⟨t, ht, found, hm, rfl⟩ := mem_differing.1 hf
  obtain ⟨u, hu, found', hm', rfl⟩ := mem_differing.1 hg
  funext v
  by_cases hv : v ∈ a.vars
  · by_cases hbound : b.isBound v = true
    · have hmem := (hs.assigns.mem_vars v).2 (List.mem_filter.2 ⟨hv, hbound⟩)
      rw [hm.2 v hmem, hm'.2 v hmem]
    · exact h v (List.mem_filter.2 ⟨hv, by simpa using hbound⟩)
  · rw [(hm.means H.wellFormed (H.fits t ht)).1.unmapped v hv,
      (hm'.means H.wellFormed (H.fits u hu)).1.unmapped v hv]

include hk

/-- An estimate that counts tuples bounds all rows. -/
theorem rows_bounds (h : a.CountsTuples b c) : c.Bounds (a.agreeing K tuples s).length := by
  rcases h with ⟨i, hi, rfl⟩ | hextent
  · exact H.index_bounds hk hs hi
  · exact H.extent_bounds hextent

/-- The product of the estimates of all unbound variables bounds the different rows. -/
theorem product_bounds {estimates : List Estimate}
    (h : (a.unboundVariables b).mapM (a.estimate b) = .ok estimates) :
    (estimates.foldl (fun c (e : Estimate) => c * e.cardinality) (.known 1)).Bounds
      (min (a.differing K tuples s).card (2 ^ 53)) := by
  have hestimates : List.Forall₂ (fun v (e : Estimate) =>
      e.cardinality.Bounds ((a.differing K tuples s).image (· v)).card) (a.unboundVariables b)
      estimates := by
    have hmem : ∀ v ∈ a.unboundVariables b, v ∈ a.vars := fun v => List.mem_of_mem_filter
    refine ((List.forall₂_and_left _ _).2 ⟨hmem, Checked.mapM_eq_ok.1 h⟩).imp ?_
    rintro v e ⟨hv, he⟩
    exact (H.estimate_bounds_of_ok hk hs he).mono (H.card_image_differing_le hv)
  have hone : (Cardinality.known 1).Bounds (min 1 (2 ^ 53)) := .inr ⟨1, rfl, Nat.min_le_left ..⟩
  refine (Cardinality.Bounds.foldl_mul hestimates hone).mono ?_
  rw [Nat.one_mul]
  exact min_le_min_right _
    (card_le_prod_values _ _ fun f hf g hg => H.differing_ext hs hf hg)

/-- What an atom is expected to contribute bounds the different rows. -/
theorem output_bounds_of_ok (h : a.outputEstimate b = .ok c) :
    c.Bounds (min (a.differing K tuples s).card (2 ^ 53)) := by
  have hcounts : a.CountsTuples b c → c.Bounds (min (a.differing K tuples s).card (2 ^ 53)) :=
    fun h => (H.rows_bounds hk hs h).mono
      (Nat.le_trans (Nat.min_le_left ..) card_differing_le)
  rcases outputEstimate_cases h with hindex | hextent | ⟨-, estimates, hestimates, rfl⟩
  · exact hcounts (.inl hindex)
  · exact hcounts (.inr hextent)
  · exact H.product_bounds hk hs hestimates

end Announces

/-! ## Steps -/

section

variable {out different : List Assignment} {vars : List Variable} (hw : a.WellFormed)
  (ht : ∀ t ∈ tuples, K.Fits a.relation.attributes t ∧ a.ComparesKeys t)
  (hbag : K.bag out = K.bag [row] * a.bag K tuples)

include hw ht hbag

/-- What a row is joined to are the rows that the atom makes of the tuples with its values. -/
theorem perm_agreeing : (out.map K.view).Perm
    (((a.agreeing K tuples (row.among a.vars)).map K.view).map (K.view row).union) := by
  classical
  rw [← Multiset.coe_eq_coe, ← Multiset.map_coe]
  change K.bag out = (K.bag _).map _
  rw [hbag, bag_agreeing hw ht, ← single_join]
  rfl

theorem length_eq_agreeing : out.length = (a.agreeing K tuples (row.among a.vars)).length := by
  have hlen := (perm_agreeing hw ht hbag).length_eq
  rwa [List.length_map, List.length_map, List.length_map] at hlen

/-- Different rows come from different rows of the atom. -/
theorem length_le_differing (hout : ∀ r ∈ out, K.Assigns vars r) (hs : different.Sublist out)
    (hd : different.Pairwise fun x y => x.agrees y = false) :
    different.length ≤ (a.differing K tuples (row.among a.vars)).card := by
  classical
  have hnodup : (different.map K.view).Nodup := by
    refine List.pairwise_map.2 (hd.imp_of_mem fun {x y} hx hy hxy heq => ?_)
    have hagree : (K.view x).Agree (K.view y) := fun v p q hp hq =>
      Option.some.inj (hp.symm.trans (heq ▸ hq))
    rw [(ValueClass.agrees_iff (hout x (hs.subset hx)) (hout y (hs.subset hy))).2 hagree] at hxy
    cases hxy
  calc different.length = (different.map K.view).toFinset.card := by
        rw [List.toFinset_card_of_nodup hnodup, List.length_map]
    _ ≤ ((a.differing K tuples (row.among a.vars)).image (K.view row).union).card := by
        refine Finset.card_le_card fun f hf => ?_
        have hmem := (hs.map K.view).subset (List.mem_toFinset.1 hf)
        obtain ⟨g, hg, rfl⟩ := List.mem_map.1 ((perm_agreeing hw ht hbag).mem_iff.1 hmem)
        exact Finset.mem_image_of_mem _ (List.mem_toFinset.2 hg)
    _ ≤ (a.differing K tuples (row.among a.vars)).card := Finset.card_image_le

end

/-! ## Consistent tables -/

/-- An atom over a consistent relation of tables, or a view of one, of which the declared
constraints are true. Values that the atom compares may be keys. -/
structure OverTables {σ : Type} [LinearOrder σ] (R : RankedClass σ) (K : ValueClass κ) (a : Atom)
    (r : StoredRelation) (rows : List (List Value)) : Prop extends a.Over R r rows where
  tables : ∀ s ∈ r.sources, ∃ others, s.IsTable others
  constraints : ∀ c ∈ a.relation.constraints, c.Holds K a.relation.attributes a.relation.tuples
  keys : ∀ v x, a.Repeats v → a.Offers r v x → x.isKey = true

/-- A row that reaches an atom under a binding. It extends the constants, and its values for the
variables of the atom are those of the bound ones and agree with the known values. The sources may
be asked for them. -/
structure Reached {σ : Type} [LinearOrder σ] (R : RankedClass σ) (K : ValueClass κ) (a : Atom)
    (r : StoredRelation) (b : Binding) (constants : Assignment) (bound : List Variable)
    (row : Assignment) : Prop extends Extends K constants bound row where
  constants_assigns : K.Assigns constants.vars constants
  admits : a.Admits K b (row.among a.vars)
  binds : r.Binds R (a.relationBinding row)
  constants_binds : r.Binds R (a.relationBinding constants)

namespace OverTables

variable {σ : Type} [LinearOrder σ] {R : RankedClass σ} {r : StoredRelation}
  {rows : List (List Value)} (hK : K.IncludesIntegers R.toValueClass) (H : a.OverTables R K r rows)

include hK H

theorem announces : a.Announces K (r.Typed R) a.relation.tuples :=
  InMemory.announces ⟨H.toOver, StoredRelation.measured_of_tables H.tables, H.constraints⟩ hK

theorem tuple_spec :
    ∀ t ∈ a.relation.tuples, K.Fits a.relation.attributes t ∧ a.ComparesKeys t := fun t ht =>
  ⟨H.fits hK t ht, (H.takesTuple hK ht).imp fun v x hx hv => H.keys v x hv hx⟩

theorem answers {T : Variable → Value → Prop} (hT : ∀ v x, a.Offers r v x → T v x) :
    a.Answers K (fun row => r.Binds R (a.relationBinding row)) T (a.bag K a.relation.tuples) :=
  H.toOver.answers hK H.keys (fun _ _ _ hb => hb.located H.consistent.wellFormed hK)
    fun v x hx _ => hT v x hx

/-- There is no estimate only if the bound of a constraint is out of the range of numbers. -/
theorem bound_of_error {f : Fault} (hb : r.Typed R (a.relationBinding b.values))
    (h : a.outputEstimate b = .error f) :
    ∃ c ∈ a.relation.constraints, ∃ n, c.upper = some n ∧ Binary64.ofInt? n = none := by
  by_contra hc
  have hall : ∀ c ∈ a.relation.constraints, ∀ n, c.upper = some n →
      (Binary64.ofInt? n).isSome = true := by
    intro c hmem n hn
    rw [← Option.ne_none_iff_isSome]
    exact fun hnone => hc ⟨c, hmem, n, hn, hnone⟩
  obtain ⟨c, hok, -⟩ := ((H.announces hK).reports hb hall).exists_outputEstimate
  cases h.symm.trans hok

end OverTables

/-- What an atom is expected to contribute bounds the different rows that a step makes of any row
with the known values, as far as numbers are exact, and all of them if tuples are counted. It only
fails if the bound of a constraint is out of the range of numbers. -/
theorem output_bounds {σ : Type} [LinearOrder σ] {R : RankedClass σ} {r : StoredRelation}
    {rows : List (List Value)} (hK : K.IncludesIntegers R.toValueClass)
    (H : a.OverTables R K r rows)
    (hb : r.Binds R (a.relationBinding b.values)) :
    (∃ c, a.outputEstimate b = .ok c ∧ ∀ constants bound row join strategy,
      a.Reached R K r b constants bound row → (∀ v, v ∈ join ↔ v ∈ a.vars ∧ v ∈ bound) →
      (strategy ≠ .iterate → ∀ v ∈ join, ∀ x, row.get? v = some x ∨ a.Offers r v x →
        x.isKey = true) →
      ∃ out, (Execution.extend strategy a join constants (.single row)).Yields out ∧
        (a.CountsTuples b c → c.Bounds out.length) ∧
        ∀ different : List Assignment, different.Sublist out →
          different.Pairwise (fun x y => x.agrees y = false) →
          c.Bounds (min different.length (2 ^ 53))) ∨
    ∃ f, a.outputEstimate b = .error f ∧
      ∃ c ∈ a.relation.constraints, ∃ n, c.upper = some n ∧ Binary64.ofInt? n = none := by
  have A := H.announces hK
  cases h : a.outputEstimate b with
  | error f => exact .inr ⟨f, rfl, H.bound_of_error hK hb.typed h⟩
  | ok c =>
    refine .inl ⟨c, rfl, fun constants bound row join strategy hr hj hkeys => ?_⟩
    have hadmitted : Admitted K (fun v x => row.get? v = some x ∨ a.Offers r v x) constants bound
      row := ⟨hr.toExtends, fun _ _ => .inl⟩
    obtain ⟨out, hy, hbag, hout⟩ := Execution.joins_extend (H.answers hK fun _ _ => .inr)
      hr.constants_assigns hr.constants_binds hj hkeys (Rows.yields_single row)
      (List.forall_mem_singleton.2 hadmitted) (List.forall_mem_singleton.2 hr.binds)
    have ht := H.tuple_spec hK
    refine ⟨out, hy, fun hcounts => ?_, fun different hsub hd => ?_⟩
    · rw [length_eq_agreeing A.wellFormed ht hbag]
      exact A.rows_bounds hb.typed hr.admits hcounts
    · refine (A.output_bounds_of_ok hb.typed hr.admits h).mono (min_le_min_right _ ?_)
      exact length_le_differing A.wellFormed ht hbag (fun r' hr' => (hout r' hr').assigns)
        hsub hd

end Atom

/-! ## Repeated edges -/

namespace Edges

/-- The edges of a node, one of which is listed twice. They lead to two nodes. -/
def repeated : StoredRelation :=
  ⟨.text "R", [.text "a", .text "b"], [.text "int", .text "int"],
    .ofSchema ⟨.table, [.text "a", .text "b"], none, [0]⟩
      (some (table 0 [[1, 1], [1, 2], [1, 2]]).handle), [],
    [⟨0, some 2, [.text "a"], [.text "b"]⟩]⟩

def repeatedAtom : Atom :=
  ⟨.stored repeated, [(.named "x", [.text "a"]), (.named "y", [.text "b"])]⟩

theorem repeated_schema : Schema.WellFormed ⟨.table, [.text "a", .text "b"], none, [0]⟩ :=
  ⟨by decide, by simp [Schema.columns], by simp, by simp⟩

theorem build_repeated : SortedTable.build (numbers [[1, 1], [1, 2], [1, 2]]) [.ofNat 0] =
    .ok (table 0 [[1, 1], [1, 2], [1, 2]]) := rfl

theorem repeated_consistent : repeated.Consistent OrderedClass.ints.toRanked
    (numbers [[1, 1], [1, 2], [1, 2]]) := by
  refine ⟨⟨by simp [repeated], by simp [repeated, Source.ofSchema, Source.columns,
    Schema.columns], nofun⟩, ?_, nofun⟩
  exact Source.inMemory_table repeated_schema (all_numbers _) (by simp [numbers])
    (by simp [numbers]) build_repeated rfl

theorem repeatedAtom_overTables : repeatedAtom.OverTables OrderedClass.ints.toRanked
    OrderedClass.ints.toValueClass repeated (numbers [[1, 1], [1, 2], [1, 2]]) where
  wellFormed := ⟨by decide, by decide, by decide, by decide⟩
  shows := .stored
  consistent := repeated_consistent
  tables s hs := by
    cases List.mem_singleton.1 hs
    exact ⟨_, Source.isTable_ofSchema repeated_schema build_repeated rfl⟩
  constraints c hc := by
    cases List.mem_singleton.1 hc
    change DegreeConstraint.Holds _ [.text "a", .text "b"] (numbers [[1, 1], [1, 2], [1, 2]]) _
    intro n hn t ht
    cases hn
    simp only [numbers, List.map_cons, List.map_nil, List.mem_cons, List.not_mem_nil,
      or_false] at ht
    rcases ht with rfl | rfl | rfl <;> decide
  keys v x hv := by
    obtain ⟨attributes, hattributes, hl⟩ := hv
    simp only [repeatedAtom, List.mem_cons, Prod.mk.injEq, List.not_mem_nil, or_false]
      at hattributes
    rcases hattributes with ⟨-, rfl⟩ | ⟨-, rfl⟩ <;> simp at hl

theorem repeated_binds : repeated.Binds OrderedClass.ints.toRanked [(.text "a", .int 1)] where
  nodup := List.nodup_singleton _
  attributes := by simp [repeated]
  takes e he := by
    cases List.mem_singleton.1 he
    exact repeated_consistent.takes OrderedClass.ints.total_toRanked ⟨1, rfl⟩
  asks e he s hs hp := by
    cases List.mem_singleton.1 hs
    cases hp

theorem repeated_binds_nil : repeated.Binds OrderedClass.ints.toRanked [] :=
  ⟨List.nodup_nil, nofun, nofun, nofun⟩

theorem repeated_reached : repeatedAtom.Reached OrderedClass.ints.toRanked
    OrderedClass.ints.toValueClass repeated (.ofParts [] [.named "x"]) [] [.named "x"]
    [(.named "x", .int 1)] where
  assigns := by
    refine ⟨by simp, fun v => Iff.rfl, fun v x hx => ?_⟩
    cases List.mem_singleton.1 (Assignment.mem_of_get? hx)
    exact ⟨1, rfl⟩
  within := nofun
  constants_assigns := ⟨List.nodup_nil, fun _ => Iff.rfl, nofun⟩
  admits := by
    refine ⟨⟨by decide, fun v => Iff.rfl, fun v x hx => ?_⟩, nofun⟩
    cases List.mem_singleton.1 (Assignment.mem_of_get? hx)
    exact ⟨1, rfl⟩
  binds := repeated_binds
  constants_binds := repeated_binds_nil

theorem repeated_join (v : Variable) :
    v ∈ [.named "x"] ↔ v ∈ repeatedAtom.vars ∧ v ∈ [.named "x"] := by
  refine ⟨fun hv => ⟨?_, hv⟩, And.right⟩
  cases List.mem_singleton.1 hv
  decide

/-- What the node is joined to. -/
theorem repeated_extend (strategy : JoinStrategy) : (Execution.extend strategy repeatedAtom
    [.named "x"] [] (.single [(.named "x", .int 1)])).Yields
      [[(.named "x", .int 1), (.named "y", .int 1)], [(.named "x", .int 1), (.named "y", .int 2)],
        [(.named "x", .int 1), (.named "y", .int 2)]] := by
  cases strategy <;> rfl

end Edges

namespace Atom

/-- A node is expected to have two different successors, and it has two, one of them twice. -/
theorem output_bounds_repeated :
    OrderedClass.ints.IncludesIntegers OrderedClass.ints.toRanked.toValueClass ∧
    Edges.repeatedAtom.OverTables OrderedClass.ints.toRanked OrderedClass.ints.toValueClass
      Edges.repeated (Edges.numbers [[1, 1], [1, 2], [1, 2]]) ∧
    Edges.repeated.Binds OrderedClass.ints.toRanked [] ∧
    Edges.repeatedAtom.Reached OrderedClass.ints.toRanked OrderedClass.ints.toValueClass
      Edges.repeated (.ofParts [] [.named "x"]) [] [.named "x"] [(.named "x", .int 1)] ∧
    ∃ c out, Edges.repeatedAtom.outputEstimate (.ofParts [] [.named "x"]) = .ok c ∧
      c = .known 2 ∧ (Execution.extend .iterate Edges.repeatedAtom [.named "x"] []
        (.single [(.named "x", .int 1)])).Yields out ∧ out.length = 3 ∧
      ∃ different : List Assignment, different.Sublist out ∧ different.length = 2 ∧
        different.Pairwise (fun x y => x.agrees y = false) ∧
        c.Bounds (min different.length (2 ^ 53)) := by
  have hc : Edges.repeatedAtom.outputEstimate (.ofParts [] [.named "x"]) = .ok (.known 2) := rfl
  refine ⟨OrderedClass.ints_includes, Edges.repeatedAtom_overTables, Edges.repeated_binds_nil,
    Edges.repeated_reached, .known 2, _, hc, rfl, Edges.repeated_extend .iterate, rfl, _,
    List.sublist_append_left [_, _] [_], rfl, by decide, ?_⟩
  rcases output_bounds (b := .ofParts [] [.named "x"]) OrderedClass.ints_includes
    Edges.repeatedAtom_overTables Edges.repeated_binds_nil with ⟨c, hc', hbound⟩ | ⟨f, hf, -⟩
  · cases hc.symm.trans hc'
    obtain ⟨out, hy, -, hdifferent⟩ := hbound _ _ _ _ .iterate Edges.repeated_reached
      Edges.repeated_join (fun h => (h rfl).elim)
    cases hy.unique (Edges.repeated_extend .iterate)
    exact hdifferent _ (List.sublist_append_left [_, _] [_]) (by decide)
  · cases hc.symm.trans hf

/-- A constraint says nothing about how often a tuple repeats. -/
theorem not_output_bounds : ¬∀ (a : Atom) (r : StoredRelation) (rows : List (List Value))
    (b : Binding) (c : Cardinality) (constants : Assignment) (bound : List Variable)
    (row : Assignment) (join : List Variable) (strategy : JoinStrategy) (out : List Assignment),
    a.OverTables OrderedClass.ints.toRanked OrderedClass.ints.toValueClass r rows →
    r.Binds OrderedClass.ints.toRanked (a.relationBinding b.values) →
    a.outputEstimate b = .ok c →
    a.Reached OrderedClass.ints.toRanked OrderedClass.ints.toValueClass r b constants bound row →
    (∀ v, v ∈ join ↔ v ∈ a.vars ∧ v ∈ bound) →
    (Execution.extend strategy a join constants (.single row)).Yields out →
    c.Bounds out.length := by
  intro h
  have hc : Edges.repeatedAtom.outputEstimate (.ofParts [] [.named "x"]) = .ok (.known 2) := rfl
  rcases h _ _ _ (.ofParts [] [.named "x"]) _ _ _ _ _ .iterate _ Edges.repeatedAtom_overTables
    Edges.repeated_binds_nil hc Edges.repeated_reached Edges.repeated_join
    (Edges.repeated_extend .iterate) with hinfinite | ⟨m, hm, hle⟩
  · cases hinfinite
  · cases hm
    exact absurd hle (by decide)

end Atom
end JoinOrder
