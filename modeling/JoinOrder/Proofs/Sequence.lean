import JoinOrder.Proofs.Agreement

/-!
# The order of results

A step over a single source looks up, for each row, those of the tuples with the constants that
agree with the row, in the order of the source. Hence probing the source for each row gives the
same sequence as reading it once, and collecting the rows first only gives another order
(`Execution.same_sequence`).
-/

namespace JoinOrder

/-- Pairs that are picked may be listed by their first or by their second components. -/
theorem flatMap_filter_comm {α β γ : Type} (p : α → β → Bool) (g : α → β → γ) (xs : List α)
    (ys : List β) : (ys.flatMap fun y => (xs.filter (p · y)).map (g · y)).Perm
      (xs.flatMap fun x => (ys.filter (p x)).map (g x)) := by
  have hpick (y : β) : (xs.filter (p · y)).map (g · y) =
      xs.flatMap fun x => if p x y then [g x y] else [] := by
    induction xs with
    | nil => rfl
    | cons x xs ih =>
      rw [List.filter_cons, List.flatMap_cons, ← ih]
      split <;> rfl
  induction ys with
  | nil => simp
  | cons y ys ih =>
    rw [List.flatMap_cons, hpick]
    refine (ih.append_left _).trans ((List.flatMap_append_perm ..).trans (.of_eq ?_))
    refine List.flatMap_congr fun x _ => ?_
    rw [List.filter_cons]
    split <;> rfl

/-! ## Relations over a single source -/

/-- A lookup filters the tuples and keeps their order. -/
theorem Relation.Shows.lookup_single {κ μ : Type} [LinearOrder κ] {R : RankedClass κ}
    {K : ValueClass μ} {relation : Relation} {r : StoredRelation} {rows : List (List Value)}
    {binding : NamedValues} (h : relation.Shows r) (H : r.Consistent R rows)
    (hK : K.IncludesIntegers R.toValueClass) (ha : r.auxiliaries = [])
    (hb : r.BindsLocated R K binding) : ∃ found, relation.lookup binding = .ok found ∧
      (found.rows ()).Yields (relation.tuples.filter (binding.holds relation.attributes)) := by
  obtain ⟨found, hl, hy⟩ := H.lookup_single hK ha hb
  cases h with
  | stored => exact ⟨found, hl, hy⟩
  | @view attributes h =>
    have hnames : ∀ name ∈ binding.names, name ∈ attributes := fun name hn =>
      h.mem_iff.2 (hb.attributes name hn)
    have hfit : ∀ t ∈ r.tuples, K.Fits r.attributes t := fun t => (H.keeps hK).fits
    refine ⟨_, ReorderedView.lookup_eq (v := ⟨r, attributes⟩) hnames hl, ?_⟩
    have hy' := ReorderedView.yields_present (v := ⟨r, attributes⟩) h hy fun t ht =>
      hfit t (List.mem_of_mem_filter ht)
    rw [Relation.tuples, List.filter_map]
    convert hy' using 2
    refine List.filter_congr fun t ht => ?_
    exact ReorderedView.holds_permute h (hfit t ht) hnames

namespace Execution

variable {κ μ : Type} [LinearOrder κ] {O : OrderedClass κ} {K : ValueClass μ} {a : Atom}
  {r : StoredRelation} {stored tuples : List (List Value)} {constants row : Assignment}
  {bound join : List Variable} {rows : List Assignment} {o : List Value → Option Assignment}

/-! ## What a row finds -/

/-- The tuples with the values of a row are, in their order, those with the constants that have the
key of the row. -/
theorem filterMap_relationBinding (h : a.WellFormed)
    (hfit : ∀ t ∈ tuples, K.Fits a.relation.attributes t) (hk : ∀ t ∈ tuples, a.ComparesKeys t)
    (ho : ∀ t ∈ tuples, a.variableBinding t = .ok (o t))
    (hc : K.Assigns constants.vars constants) (H : Extends K constants bound row)
    (hj : ∀ v, v ∈ join ↔ v ∈ a.vars ∧ v ∈ bound) :
    (tuples.filter ((a.relationBinding row).holds a.relation.attributes)).filterMap o =
      ((tuples.filter ((a.relationBinding constants).holds a.relation.attributes)).filterMap
        o).filter fun f => Value.eqList (joinValues join f) (joinValues join row) := by
  rw [List.filterMap_filter, List.filterMap_filter, List.filter_filterMap]
  refine List.filterMap_congr fun t ht => ?_
  obtain ⟨_, ho', hview, hassigns⟩ := Atom.variableBinding_spec h (hfit t ht) (hk t ht)
  cases (ho t ht).symm.trans ho'
  cases hf : o t with
  | none => split <;> split <;> rfl
  | some f =>
    rw [hf, Option.map_some] at hview
    have hm := (Atom.meaning_eq_some h).1 hview.symm
    have hrow := Atom.holds_relationBinding h (fun v _ => H.assigns.carrier v) (hfit t ht) hm
    have hconstants := Atom.holds_relationBinding h (fun v _ => hc.carrier v) (hfit t ht) hm
    have hkey := eqList_joinValues H.assigns (hassigns f hf) hj
    by_cases hagree : (K.view row).Agree (K.view f)
    · rw [if_pos (hrow.2 hagree), if_pos (hconstants.2 (hagree.of_within H.within)),
        Option.filter_some, if_pos (hkey.2 hagree)]
    · rw [if_neg (mt hrow.1 hagree)]
      split
      · rw [Option.filter_some, if_neg (mt hkey.1 hagree)]
      · rfl

/-! ## Steps over a single source -/

/-- A step over a relation with a single source in memory, or a view of it, all of whose values are
of one type. The rows that reach it have the same variables, among them the constants, and the
join variables are the variables of the atom that they bind. -/
structure StepOver (type : Value → Prop) (a : Atom) (r : StoredRelation)
    (stored : List (List Value)) (constants : Assignment) (bound join : List Variable)
    (rows : List Assignment) : Prop where
  atom : a.WellFormed
  shows : a.relation.Shows r
  relation : r.WellFormed
  single : r.auxiliaries = []
  source : r.primary.WellFormed
  kept : r.primary.IsTable stored ∨ r.primary.IsStream stored
  width : ∀ row ∈ stored, row.length = r.primary.stored.length
  countable : stored.length < 2 ^ 63
  values : ∀ row ∈ stored, ∀ v ∈ row, type v
  join : ∀ v, v ∈ join ↔ v ∈ a.vars ∧ v ∈ bound
  constants_nodup : constants.vars.Nodup
  constants_type : ∀ e ∈ constants, type e.2
  nodup : ∀ row ∈ rows, row.vars.Nodup
  binds : ∀ row ∈ rows, ∀ v, v ∈ row.vars ↔ v ∈ bound
  rows_type : ∀ row ∈ rows, ∀ e ∈ row, type e.2
  agrees : ∀ row ∈ rows, ∀ e ∈ constants, ∃ x, row.get? e.1 = some x ∧ Value.eq x e.2 = true

namespace StepOver

variable (H : StepOver O.carrier a r stored constants bound join rows)
  (hK : K.IncludesIntegers O.toValueClass)

include H

theorem consistent : r.Consistent O.toRanked stored where
  wellFormed := H.relation
  primary := {
    columns_nodup := H.source.columns_nodup
    stored_perm := H.source.stored_perm
    width := H.width
    all := H.values
    countable := H.countable
    kept := H.kept }
  auxiliaries := by
    rw [H.single]
    nofun

include hK

theorem assigns_constants : K.Assigns constants.vars constants where
  nodup := H.constants_nodup
  mem_vars _ := .rfl
  carrier _ _ hx := hK.carrier _ (H.constants_type _ (Assignment.mem_of_get? hx))

theorem row_extends (hrow : row ∈ rows) : Extends K constants bound row where
  assigns := {
    nodup := H.nodup row hrow
    mem_vars := H.binds row hrow
    carrier _ _ hx := hK.carrier _ (H.rows_type row hrow _ (Assignment.mem_of_get? hx)) }
  within v c hv := by
    obtain ⟨x, hx, rfl⟩ := Option.map_eq_some_iff.1 hv
    have he := Assignment.mem_of_get? hx
    obtain ⟨y, hy, heq⟩ := H.agrees row hrow _ he
    have hxy := (K.eq_iff (hK.carrier _ (H.rows_type row hrow _ (Assignment.mem_of_get? hy)))
      (hK.carrier _ (H.constants_type _ he))).1 heq
    rw [ValueClass.view, hy, Option.map_some, hxy]

/-- What an assignment means for the attributes can be looked up. -/
theorem bindsLocated {values : Assignment} (hvalues : ∀ e ∈ values, O.carrier e.2)
    (hp : ∀ e ∈ a.relationBinding values, r.Locates e.1 e.2) :
    r.BindsLocated O.toRanked K (a.relationBinding values) := by
  have hvalue : ∀ v x, values.get? v = some x → O.carrier x := fun v x hx =>
    hvalues _ (Assignment.mem_of_get? hx)
  refine H.atom.bindsLocated H.shows (fun v _ x hx => hK.carrier x (hvalue v x hx))
    fun e he name hname x hx => ⟨H.consistent.takes O.total_toRanked (hvalue e.1 x hx), ?_⟩
  exact hp (name, x) (Atom.mem_relationBinding.2 ⟨e, he, hname, hx⟩)

/-- What is read for the constants. What is found for a row are those assignments among it that have
the key of the row, in the same order. -/
theorem found_spec (hk : ∀ t ∈ a.relation.tuples, a.HashesKeys join t)
    (hp : ∀ row ∈ constants :: rows, ∀ e ∈ a.relationBinding row, r.Locates e.1 e.2) :
    ∃ found, (assignments a (a.relationBinding constants)).Yields found ∧
      (∀ f ∈ found, K.Assigns a.vars f ∧ HasKey join f) ∧
      ∀ row ∈ rows, (assignments a (a.relationBinding row)).Yields
        (found.filter fun f => Value.eqList (joinValues join f) (joinValues join row)) := by
  rw [List.forall_mem_cons] at hp
  have hfit := H.shows.fits fun _ => (H.consistent.keeps hK).fits
  have hcompares : ∀ t ∈ a.relation.tuples, a.ComparesKeys t := fun t ht =>
    (hk t ht).imp fun _ _ hx hv => hx (.inr hv)
  have hspec := fun t ht => Atom.variableBinding_spec H.atom (hfit t ht) (hcompares t ht)
  choose! o ho hview hassigns using hspec
  have hread : ∀ values : Assignment, (∀ e ∈ values, O.carrier e.2) →
      (∀ e ∈ a.relationBinding values, r.Locates e.1 e.2) →
      (assignments a (a.relationBinding values)).Yields ((a.relation.tuples.filter
        ((a.relationBinding values).holds a.relation.attributes)).filterMap o) := by
    intro values hvalues hlocates
    obtain ⟨found, hl, hy⟩ := H.shows.lookup_single H.consistent hK H.single
      (H.bindsLocated hK hvalues hlocates)
    refine Rows.yields_ofChecked_iff.2 ⟨_, ?_, hy.filterMap fun t ht =>
      ho t (List.mem_of_mem_filter ht)⟩
    rw [hl, Checked.bind_ok, Checked.pure_def]
  refine ⟨_, hread constants H.constants_type hp.1, fun f hf => ?_, fun row hrow => ?_⟩
  · obtain ⟨t, ht, hf⟩ := List.mem_filterMap.1 hf
    have hmem := List.mem_of_mem_filter ht
    refine ⟨hassigns t hmem f hf, ?_⟩
    exact Atom.takes_of_variableBinding H.atom (hfit t hmem)
      ((hk t hmem).imp fun _ _ hx hv => hx (.inl hv)) (hf ▸ ho t hmem)
  · rw [← filterMap_relationBinding H.atom hfit hcompares ho (H.assigns_constants hK)
      (H.row_extends hK hrow) H.join]
    exact hread row (H.rows_type row hrow) (hp.2 row hrow)

end StepOver

/-- Over a single source, iterate and intermediate give the same rows in the same order, and filter
gives them in some order, if the source finds the right rows for the positions it is asked for and
the values that are hashed may be keys. -/
theorem same_sequence {input : Rows Assignment}
    (H : StepOver O.carrier a r stored constants bound join rows) (hin : input.Yields rows)
    (hk : ∀ t ∈ a.relation.tuples, a.HashesKeys join t) (hkeys : ∀ row ∈ rows, HasKey join row)
    (hp : ∀ row ∈ constants :: rows, ∀ e ∈ a.relationBinding row, r.Locates e.1 e.2) :
    ∃ out permuted, (iterate a input).Yields out ∧
      (intermediate a join constants input).Yields out ∧
      (filter a join constants input).Yields permuted ∧ permuted.Perm out := by
  have hK := O.toValueClass.withIntegers_includes
  obtain ⟨found, hread, hassigns, hfound⟩ := H.found_spec hK hk hp
  have hrows := fun row (hrow : row ∈ rows) => (H.row_extends hK hrow).assigns
  have hprobe := fun row hrow => And.intro (hrows row hrow) (hkeys row hrow)
  refine ⟨_, _, iterate_yields hin hfound, intermediate_yields hread hassigns H.join hin hprobe,
    filter_yields hread hassigns H.join hin hprobe, ?_⟩
  have hkeys : ∀ f ∈ found, (rows.filter fun row =>
      Value.eqList (joinValues join row) (joinValues join f)) = rows.filter fun row =>
        Value.eqList (joinValues join f) (joinValues join row) := fun f hf =>
    List.filter_congr fun row hrow =>
      eqList_joinValues_comm (hrows row hrow) (hassigns f hf).1 H.join
  refine .trans (.of_eq (List.flatMap_congr fun f hf => ?_)) (flatMap_filter_comm
    (fun row f => Value.eqList (joinValues join f) (joinValues join row)) Assignment.merge rows
      found)
  rw [hkeys f hf]

end Execution

/-! ## Edges and their positions -/

namespace Edges

/-- Edges with their positions, without any other source. -/
def numbered : StoredRelation :=
  ⟨.text "R", [.text "a", .text "b", .text "p"], [.text "int", .text "int", .text "int"], primary,
    [], []⟩

/-- An edge from `y` to `z` at the position `n`, where the end comes first. -/
def edge : Atom :=
  ⟨.view ⟨numbered, [.text "b", .text "p", .text "a"]⟩, [(.named "y", [.text "a"]),
    (.named "z", [.text "b"]), (.named "n", [.text "p"])]⟩

/-- Positions of edges that are to begin at a node. -/
def positions (node : Int) (ns : List Int) : List Assignment :=
  ns.map fun n => [(.named "n", .int n), (.named "y", .int node)]

theorem numbered_locates {name : Name} {v : Value} (hv : OrderedClass.ints.carrier v) :
    numbered.Locates name v := by
  obtain ⟨n, rfl⟩ := hv
  intro s hs hp others
  cases List.mem_singleton.1 hs.mem
  have htable : primary.IsTable (numbers [[1, 2], [2, 2], [2, 3]]) :=
    primary_inMemory.kept.resolve_right fun ⟨_, _, hkey, _⟩ => nomatch hkey
  exact Source.locates_int fun h => (htable.not_isStream h).elim

theorem stepOver (node : Int) (ns : List Int) :
    Execution.StepOver OrderedClass.ints.carrier edge numbered (numbers [[1, 2], [2, 2], [2, 3]])
      [(.named "y", .int node)] [.named "n", .named "y"] [.named "y", .named "n"]
      (positions node ns) where
  atom := ⟨by decide, by decide, by decide, by decide⟩
  shows := .view (by decide)
  relation := ⟨by decide, by decide, nofun⟩
  single := rfl
  source := ⟨primary_inMemory.columns_nodup, primary_inMemory.stored_perm⟩
  kept := primary_inMemory.kept
  width := primary_inMemory.width
  countable := primary_inMemory.countable
  values := primary_inMemory.all
  join v := by
    simp only [edge, Atom.vars, List.map_cons, List.map_nil, List.mem_cons, List.not_mem_nil]
    grind
  constants_nodup := List.nodup_singleton _
  constants_type := by simp [OrderedClass.ints]
  nodup row hrow := by
    obtain ⟨n, -, rfl⟩ := List.mem_map.1 hrow
    exact (by decide : [Variable.named "n", .named "y"].Nodup)
  binds row hrow v := by
    obtain ⟨n, -, rfl⟩ := List.mem_map.1 hrow
    rfl
  rows_type row hrow := by
    obtain ⟨n, -, rfl⟩ := List.mem_map.1 hrow
    simp [OrderedClass.ints]
  agrees row hrow := by
    obtain ⟨n, -, rfl⟩ := List.mem_map.1 hrow
    exact List.forall_mem_singleton.2 ⟨.int node, rfl, by simp [Value.eq_int]⟩

end Edges

/-- The edges at the positions 2, 1 and 0 that begin at the node 2. -/
theorem Execution.same_sequence_edges :
    Execution.StepOver OrderedClass.ints.carrier Edges.edge Edges.numbered
      (Edges.numbers [[1, 2], [2, 2], [2, 3]]) [(.named "y", .int 2)] [.named "n", .named "y"]
      [.named "y", .named "n"] (Edges.positions 2 [2, 1, 0]) ∧
    (∀ t ∈ Edges.edge.relation.tuples, Edges.edge.HashesKeys [.named "y", .named "n"] t) ∧
    (∀ row ∈ Edges.positions 2 [2, 1, 0],
      Execution.HasKey [.named "y", .named "n"] row) ∧
    (∀ row ∈ [(.named "y", .int 2)] :: Edges.positions 2 [2, 1, 0],
      ∀ e ∈ Edges.edge.relationBinding row, Edges.numbered.Locates e.1 e.2) ∧
    (Execution.intermediate Edges.edge [.named "y", .named "n"] [(.named "y", .int 2)]
      (.ofList (Edges.positions 2 [2, 1, 0]))).Yields
      [[(.named "n", .int 2), (.named "y", .int 2), (.named "z", .int 3)],
        [(.named "n", .int 1), (.named "y", .int 2), (.named "z", .int 2)]] := by
  have H := Edges.stepOver 2 [2, 1, 0]
  have hfits : ∀ t ∈ Edges.edge.relation.tuples,
      OrderedClass.ints.Fits Edges.edge.relation.attributes t :=
    H.shows.fits fun _ => (H.consistent.keeps OrderedClass.ints_includes).fits
  have hk : ∀ t ∈ Edges.edge.relation.tuples,
      Edges.edge.HashesKeys [.named "y", .named "n"] t := fun t ht =>
    Atom.takesTuple_of_keys OrderedClass.keys_ints (hfits t ht).2 fun _ _ h _ => h
  have hkeys : ∀ row ∈ Edges.positions 2 [2, 1, 0],
      Execution.HasKey [.named "y", .named "n"] row := fun row hrow v x hx _ =>
    OrderedClass.keys_ints (H.rows_type row hrow _ (Assignment.mem_of_get? hx))
  have hp : ∀ row ∈ [(.named "y", .int 2)] :: Edges.positions 2 [2, 1, 0],
      ∀ e ∈ Edges.edge.relationBinding row, Edges.numbered.Locates e.1 e.2 := by
    intro row hrow e he
    refine Edges.numbered_locates (Atom.carrier_relationBinding
      (K := OrderedClass.ints.toValueClass) (fun v _ x hx => ?_) e he)
    have hmem := Assignment.mem_of_get? hx
    rcases List.mem_cons.1 hrow with rfl | hrow
    · exact H.constants_type _ hmem
    · exact H.rows_type row hrow _ hmem
  refine ⟨H, hk, hkeys, hp, ?_⟩
  obtain ⟨out, -, hiterate, hintermediate, -⟩ :=
    Execution.same_sequence H (Rows.yields_ofList _) hk hkeys hp
  have hrows : (Execution.iterate Edges.edge (.ofList (Edges.positions 2 [2, 1, 0]))).Yields
      [[(.named "n", .int 2), (.named "y", .int 2), (.named "z", .int 3)],
        [(.named "n", .int 1), (.named "y", .int 2), (.named "z", .int 2)]] := rfl
  cases hiterate.unique hrows
  exact hintermediate

/-! ## Values without keys and positions out of range -/

namespace Execution

/-- Iterate and intermediate give the same rows in the same order, whatever values of a type the
rows have. -/
def SameSequence (type : Value → Prop) : Prop :=
  ∀ (a : Atom) (r : StoredRelation) (stored : List (List Value)) (constants : Assignment)
    (bound join : List Variable) (rows : List Assignment),
    StepOver type a r stored constants bound join rows → ∃ out,
      (iterate a (.ofList rows)).Yields out ∧
        (intermediate a join constants (.ofList rows)).Yields out

end Execution

namespace Numbered

/-- A selection by the value that the rows have already. -/
def reselect (rows : List (List Value)) : Atom :=
  ⟨.stored (selection rows), [(.named "x", [.text "a"])]⟩

theorem stepOver_emptyList : Execution.StepOver OrderedClass.ints.toRanked.lists.carrier
    (reselect [[.list []]]) (selection [[.list []]]) [[.list []]] [] [.named "x"] [.named "x"]
    [[(.named "x", .list [])]] where
  atom := ⟨by decide, by decide, by decide, by decide⟩
  shows := .stored
  relation := ⟨by decide, by decide, nofun⟩
  single := rfl
  source := ⟨by decide, .refl _⟩
  kept := by
    have hschema : Schema.WellFormed ⟨.table, [.text "a"], none, []⟩ :=
      ⟨by decide, by simp [Schema.columns], by simp, by simp⟩
    have hbuild : SortedTable.build [[.list []]] [] = .ok ⟨[], #[[.list []]], #[[]]⟩ := rfl
    exact .inl (Source.isTable_ofSchema hschema hbuild rfl)
  width := by decide
  countable := by decide
  values := by simpa using RankedClass.carrier_lists_nil
  join v := by simp [reselect, Atom.vars]
  constants_nodup := List.nodup_nil
  constants_type := nofun
  nodup := by decide
  binds := by simp [Assignment.vars]
  rows_type := by simpa using RankedClass.carrier_lists_nil
  agrees := nofun

end Numbered

namespace Lines

theorem stepOver_position (position : Int) : Execution.StepOver OrderedClass.ints.carrier
    ⟨.stored relation, [(.named "x", [.text "a"]), (.named "y", [.text "p"])]⟩ relation
    [[.int 1]] [] [.named "y"] [.named "y"] [[(.named "y", .int position)]] where
  atom := ⟨by decide, by decide, by decide, by decide⟩
  shows := .stored
  relation := ⟨by decide, by decide, nofun⟩
  single := rfl
  source := ⟨source_inMemory.columns_nodup, source_inMemory.stored_perm⟩
  kept := source_inMemory.kept
  width := source_inMemory.width
  countable := source_inMemory.countable
  values := source_inMemory.all
  join v := by
    simp only [Atom.vars, List.map_cons, List.map_nil, List.mem_cons, List.not_mem_nil]
    grind
  constants_nodup := List.nodup_nil
  constants_type := nofun
  nodup := by simp [Assignment.vars]
  binds := by simp [Assignment.vars]
  rows_type := by simp [OrderedClass.ints]
  agrees := by simp

end Lines

/-- Lists are ordered, but they are no keys, so that only iterate can join by them. Of integers, only
iterate asks a stream for a position far behind its end. -/
theorem Execution.not_same_sequence :
    (¬∀ (κ : Type) (_ : LinearOrder κ) (R : RankedClass κ), R.Total → SameSequence R.carrier) ∧
      ¬SameSequence OrderedClass.ints.carrier := by
  constructor
  · intro h
    have htotal : OrderedClass.ints.toRanked.lists.Total :=
      RankedClass.Total.lists (OrderedClass.total_toRanked _)
    obtain ⟨out, -, hy⟩ := h _ _ _ htotal _ _ _ _ _ _ _ Numbered.stepOver_emptyList
    exact Rows.not_yields_broken hy
  · intro h
    obtain ⟨out, hy, -⟩ := h _ _ _ _ _ _ _ (Lines.stepOver_position (2 ^ 63))
    exact Rows.not_yields_broken hy

end JoinOrder
