import JoinOrder.Proofs.Consistent
import JoinOrder.Proofs.Execution
import JoinOrder.Proofs.Structure

/-!
# Planning and executing

A query over consistent relations has the results of nested loops over the rows of the primary
sources, whatever indexes, estimates, orders, strategies and branches are chosen.
-/

namespace JoinOrder

namespace Atom

/-- What the sources of a relation have under the attributes that a variable is mapped to. -/
def Offers (a : Atom) (r : StoredRelation) (v : Variable) (x : Value) : Prop :=
  ∃ attributes, (v, attributes) ∈ a.bindings ∧ ∃ name ∈ attributes, r.Stores name x

/-- An atom over a consistent relation, or over a view of one. -/
structure Over {κ : Type} [LinearOrder κ] (R : RankedClass κ) (a : Atom) (r : StoredRelation)
    (rows : List (List Value)) : Prop where
  wellFormed : a.WellFormed
  shows : a.relation.Shows r
  consistent : r.Consistent R rows

variable {κ μ : Type} [LinearOrder κ] {R : RankedClass κ} {K : ValueClass μ} {a : Atom}
  {r : StoredRelation} {rows : List (List Value)} {t : List Value} {row : Assignment}

/-- The values of a tuple that comes from the sources are among those of its variables. -/
theorem WellFormed.takesTuple (h : a.WellFormed)
    (ht : r.StoresAll a.relation.attributes t) : a.TakesTuple (a.Offers r) t := by
  intro e he name hname x hx
  obtain ⟨y, hy, hstores⟩ := ht name (h.attributes_mem e he name hname)
  cases hx.symm.trans hy
  exact ⟨e.2, he, name, hname, hstores⟩

/-- What a row asks for may be looked up, if each of its values may be under the attributes of its
variable. -/
theorem WellFormed.bindsLocated (h : a.WellFormed) (hr : a.relation.Shows r)
    (hc : ∀ v ∈ a.vars, ∀ x, row.get? v = some x → K.carrier x)
    (hx : ∀ e ∈ a.bindings, ∀ name ∈ e.2, ∀ x, row.get? e.1 = some x →
      r.Takes R name x ∧ r.Locates name x) : r.BindsLocated R K (a.relationBinding row) := by
  have hvalue : ∀ e ∈ a.relationBinding row, r.Takes R e.1 e.2 ∧ r.Locates e.1 e.2 := fun e he => by
    obtain ⟨b, hb, hname, hget⟩ := mem_relationBinding.1 he
    exact hx b hb e.1 hname e.2 hget
  exact {
    nodup := h.names_relationBinding.1
    attributes name hn := hr.mem_attributes.1 (h.names_relationBinding.2 name hn)
    included := carrier_relationBinding hc
    takes e he := (hvalue e he).1
    locates e he := (hvalue e he).2 }

namespace Over

variable (H : a.Over R r rows) (hK : K.IncludesIntegers R.toValueClass)

include H hK

theorem fits : ∀ t ∈ a.relation.tuples, K.Fits a.relation.attributes t :=
  H.shows.fits fun _ => (H.consistent.keeps hK).fits

theorem takesTuple (ht : t ∈ a.relation.tuples) : a.TakesTuple (a.Offers r) t :=
  H.wellFormed.takesTuple (H.shows.storesAll (fun _ => (H.consistent.keeps hK).fits)
    (fun _ => (H.consistent.keeps hK).storesAll) t ht)

/-- An atom answers for rows whose values may be looked up. -/
theorem answers {P : Assignment → Prop} {T : Variable → Value → Prop}
    (hkeys : ∀ v x, a.Repeats v → a.Offers r v x → x.isKey = true)
    (hP : ∀ vars row, K.Assigns vars row → P row → r.BindsLocated R K (a.relationBinding row))
    (hT : ∀ v x, a.Offers r v x → K.carrier x → T v x) :
    a.Answers K P T (a.bag K a.relation.tuples) := by
  refine Atom.answers H.wellFormed (H.fits hK) fun vars row hassigns hp => ?_
  have hb := hP vars row hassigns hp
  obtain ⟨found, out, hl, hy, hout, hperm⟩ := H.consistent.lookup_spec hK hb
  obtain ⟨found, out, hl, hy, hout, hperm⟩ := H.shows.lookup_spec
    (fun _ => (H.consistent.keeps hK).fits) hb.attributes hl hy hout hperm
  refine ⟨found, out, hl, hy, fun t ht => ?_, hperm⟩
  obtain ⟨hfit, hstores⟩ := hout t ht
  have hoffers := H.wellFormed.takesTuple hstores
  refine ⟨hfit, hoffers.imp fun v x hx hv => hkeys v x hv hx, fun e he name hname x hx => ?_⟩
  exact hT e.1 x (hoffers e he name hname x hx) (hfit.2 x (List.mem_of_getElem? hx))

end Over
end Atom

namespace QueryGraph

/-- An atom maps a variable to an attribute of a relation. -/
def Maps (q : QueryGraph) (v : Variable) (r : StoredRelation) (name : Name) : Prop :=
  ∃ a ∈ q.atoms, a.relation.Shows r ∧ ∃ attributes, (v, attributes) ∈ a.bindings ∧ name ∈ attributes

/-- The values that a variable may have: a constant, or one that some atom offers. -/
def Offers (q : QueryGraph) (v : Variable) (x : Value) : Prop :=
  q.constants.get? v = some x ∨ ∃ a ∈ q.atoms, ∃ r, a.relation.Shows r ∧ a.Offers r v x

/-- A query over consistent relations, or views of them. The values that a variable may have may be
looked up wherever it is mapped, and where they are compared they may be keys. -/
structure InMemory {κ μ : Type} [LinearOrder κ] (R : RankedClass κ) (K : ValueClass μ)
    (q : QueryGraph) : Prop where
  wellFormed : q.WellFormed
  relations : ∀ a ∈ q.atoms, ∃ r rows, a.relation.Shows r ∧ r.Consistent R rows
  carrier : ∀ e ∈ q.constants, K.carrier e.2
  takes : ∀ v x, q.Offers v x → ∀ r name, q.Maps v r name → r.Takes R name x
  accepts : ∀ v x, q.Offers v x → q.Accepts v x

/-- Wherever a variable is mapped to a position, the sources find the right rows for its values. -/
def Located (q : QueryGraph) : Prop :=
  ∀ v x, q.Offers v x → ∀ r name, q.Maps v r name → r.Locates name x

variable {κ μ : Type} [LinearOrder κ] {R : RankedClass κ} {K : ValueClass μ} {q : QueryGraph}

theorem InMemory.over (H : q.InMemory R K) : ∀ a ∈ q.atoms, ∃ r rows, a.Over R r rows := by
  intro a ha
  obtain ⟨r, rows, hr, hrows⟩ := H.relations a ha
  exact ⟨r, rows, H.wellFormed.atoms a ha, hr, hrows⟩

theorem InMemory.answers (H : q.InMemory R K) (hK : K.IncludesIntegers R.toValueClass)
    {T : Variable → Value → Prop} (hoffers : ∀ v x, q.Offers v x → K.carrier x → T v x)
    (hT : ∀ v x, T v x → q.Accepts v x ∧
      ∀ r name, q.Maps v r name → r.Takes R name x ∧ r.Locates name x) :
    q.Answers K T Relation.tuples where
  wellFormed := H.wellFormed
  fits a ha := by
    obtain ⟨r, rows, hover⟩ := H.over a ha
    exact hover.fits hK
  keys a ha t ht := by
    obtain ⟨r, rows, hover⟩ := H.over a ha
    refine (hover.takesTuple hK ht).imp fun v x hx hv => ?_
    exact H.accepts v x (.inr ⟨a, ha, r, hover.shows, hx⟩) (compares_of_repeats ha hv)
  answers a ha := by
    obtain ⟨r, rows, hover⟩ := H.over a ha
    have hoffered : ∀ v x, a.Offers r v x → q.Offers v x := fun v x hx =>
      .inr ⟨a, ha, r, hover.shows, hx⟩
    refine hover.answers hK
      (fun v x hv hx => H.accepts v x (hoffered v x hx) (compares_of_repeats ha hv))
      (fun vars row hassigns htakes => ?_) fun v x hx hc => hoffers v x (hoffered v x hx) hc
    refine hover.wellFormed.bindsLocated hover.shows (fun v _ => hassigns.carrier v)
      fun e he name hname x hx => ?_
    exact (hT e.1 x (htakes e.1 x hx)).2 r name ⟨a, ha, hover.shows, e.2, he, hname⟩
  carrier := H.carrier
  takes v x hx := hoffers v x (.inl hx) (H.carrier _ (Assignment.mem_of_get? hx))
  accepts v x hx := (hT v x hx).1

/-- A query answers for the values that its variables may have. -/
theorem InMemory.answers_offered (H : q.InMemory R K) (hK : K.IncludesIntegers R.toValueClass)
    (hl : q.Located) : q.Answers K q.Offers Relation.tuples :=
  H.answers hK (fun _ _ hx _ => hx) fun v x hx =>
    ⟨H.accepts v x hx, fun r name hm => ⟨H.takes v x hx r name hm, hl v x hx r name hm⟩⟩

/-- The values that variables may have belong to a class with all integers. -/
theorem Offers.carrier {v : Variable} {x : Value} (h : q.Offers v x)
    (hK : K.IncludesIntegers R.toValueClass)
    (hr : ∀ a ∈ q.atoms, ∃ r rows, a.relation.Shows r ∧ r.Consistent R rows)
    (hc : ∀ e ∈ q.constants, K.carrier e.2) : K.carrier x := by
  rcases h with hx | ⟨a, ha, r, hshows, names, -, name, -, hx⟩
  · exact hc _ (Assignment.mem_of_get? hx)
  · obtain ⟨r', rows, hshows', H⟩ := hr a ha
    cases hshows.unique hshows'
    exact H.included hK hx

/-- Values of one ordered type with all integers may be looked up everywhere. -/
theorem inMemory_of_ordered {O : OrderedClass κ} (hO : O.IncludesIntegers O.toValueClass)
    (hkeys : O.Keys) (hq : q.WellFormed)
    (hr : ∀ a ∈ q.atoms, ∃ r rows, a.relation.Shows r ∧ r.Consistent O.toRanked rows)
    (hc : ∀ e ∈ q.constants, O.carrier e.2) : q.InMemory O.toRanked O.toValueClass where
  wellFormed := hq
  relations := hr
  carrier := hc
  takes v x hx r name hm := by
    obtain ⟨a, ha, hshows, -⟩ := hm
    obtain ⟨r', rows, hshows', H⟩ := hr a ha
    cases hshows.unique hshows'
    exact H.takes O.total_toRanked (hx.carrier (K := O.toValueClass) hO hr hc)
  accepts v x hx _ := hkeys (hx.carrier (K := O.toValueClass) hO hr hc)

/-- Evaluating a query has the results of nested loops, for all estimates and costs. -/
theorem evaluate_results {e : Estimator} {m : CostModel} {c : Cursor} (H : q.InMemory R K)
    (hK : K.IncludesIntegers R.toValueClass) (hl : q.Located) (h : q.evaluateWith e m = .ok c) :
    ∃ rows, (c.rows ()).collect = .ok rows ∧
      (rows.map K.view).Perm ((q.results Relation.tuples).map K.view) := by
  obtain ⟨p, hplan, h⟩ := Checked.bind_eq_ok.1 h
  cases h
  obtain ⟨rows, hrows, hbag, -⟩ := (wellFormed_of_planWith hplan).results_of_answers
    (H.answers_offered hK hl) fun _ _ => ⟨_, rfl⟩
  exact ⟨rows, hrows, ValueClass.bag_eq_iff.1 hbag⟩

end QueryGraph

/-! ## Paths of two edges -/

namespace Edges

/-- Paths of two edges that end at a node. -/
def query (node : Int) : QueryGraph where
  atoms := [⟨.stored relation, [(.named "x", [.text "a"]), (.named "y", [.text "b"])]⟩,
    ⟨.stored relation, [(.named "y", [.text "a"]), (.named "z", [.text "b"])]⟩]
  constants := [(.named "z", .int node)]

theorem query_wellFormed (node : Int) : (query node).WellFormed := by
  refine ⟨fun a ha => ?_, List.nodup_singleton _, fun v hv => ?_⟩
  · simp only [query, List.mem_cons, List.not_mem_nil, or_false] at ha
    rcases ha with rfl | rfl
    all_goals exact ⟨by decide, by decide, by decide, by decide⟩
  · cases List.mem_singleton.1 hv
    exact (by decide : Variable.named "z" ∈ (query 0).vars)

theorem shows_relation {node : Int} {a : Atom} (ha : a ∈ (query node).atoms) :
    a.relation.Shows relation := by
  simp only [query, List.mem_cons, List.not_mem_nil, or_false] at ha
  rcases ha with rfl | rfl <;> exact .stored

theorem query_inMemory (node : Int) : (query node).InMemory OrderedClass.ints.toRanked
    OrderedClass.ints.toValueClass := by
  refine QueryGraph.inMemory_of_ordered OrderedClass.ints_includes OrderedClass.keys_ints
    (query_wellFormed node) (fun a ha => ⟨_, _, shows_relation ha, relation_consistent⟩)
    fun e he => ?_
  cases List.mem_singleton.1 he
  exact ⟨node, rfl⟩

/-- The position of an edge is not an attribute. -/
theorem query_located (node : Int) : (query node).Located := by
  rintro v x - r name ⟨a, ha, hshows, attributes, hb, hname⟩ s hs hp
  cases hshows.unique (shows_relation ha)
  have hattr : name ∈ relation.attributes :=
    (shows_relation ha).mem_attributes.1
      ((query_wellFormed node).atoms a ha |>.attributes_mem _ hb name hname)
  have hnot : ∀ s ∈ relation.sources, ∀ name ∈ relation.attributes, s.position ≠ some name := by
    decide
  exact (hnot s hs.mem name hattr hp).elim

end Edges

/-- Two paths of two edges end at the node 2. -/
theorem QueryGraph.evaluate_edges : (Edges.query 2).InMemory OrderedClass.ints.toRanked
      OrderedClass.ints.toValueClass ∧
    OrderedClass.ints.IncludesIntegers OrderedClass.ints.toRanked.toValueClass ∧
    (Edges.query 2).Located ∧
    ∃ c rows, (Edges.query 2).evaluateWith .standard .unit = .ok c ∧
      (c.rows ()).collect = .ok rows ∧ rows.length = 2 := by
  have hc : ∃ c, (Edges.query 2).evaluateWith .standard .unit = .ok c := ⟨_, rfl⟩
  obtain ⟨c, hc⟩ := hc
  obtain ⟨rows, hrows, hperm⟩ := QueryGraph.evaluate_results (Edges.query_inMemory 2)
    OrderedClass.ints_includes (Edges.query_located 2) hc
  refine ⟨Edges.query_inMemory 2, OrderedClass.ints_includes, Edges.query_located 2, c, rows, hc,
    hrows, ?_⟩
  rw [← List.length_map, hperm.length_eq, List.length_map]
  rfl

/-! ## Lines of a stream -/

namespace Lines

/-- A stream of one row with its position. -/
def source : Source :=
  .ofSchema ⟨.stream, [.text "a"], some (.text "p"), []⟩
    (some (RowStream.ofValue (.list [.list [.int 1]]) .null).handle)

def relation : StoredRelation :=
  ⟨.text "R", [.text "a", .text "p"], [.text "int", .text "int"], source, [], []⟩

/-- The row at a position. -/
def query (position : Int) : QueryGraph where
  atoms := [⟨.stored relation, [(.named "x", [.text "a"]), (.named "y", [.text "p"])]⟩]
  constants := [(.named "y", .int position)]

theorem source_inMemory : source.InMemory OrderedClass.ints.toRanked [[.int 1]] :=
  Source.inMemory_stream ⟨by decide, by simp [Schema.columns], by simp, fun _ => rfl⟩
    (Edges.all_numbers [[1]]) (by simp [Edges.numbers]) (by simp [Edges.numbers])
    ⟨⟨_, rfl, rfl⟩, nofun⟩ rfl

theorem relation_consistent : relation.Consistent OrderedClass.ints.toRanked [[.int 1]] where
  wellFormed := ⟨by decide, by decide, nofun⟩
  primary := source_inMemory
  auxiliaries := nofun

theorem query_inMemory (position : Int) : (query position).InMemory OrderedClass.ints.toRanked
    OrderedClass.ints.toValueClass := by
  refine QueryGraph.inMemory_of_ordered OrderedClass.ints_includes OrderedClass.keys_ints
    ⟨fun a ha => ?_, List.nodup_singleton _, fun v hv => ?_⟩ (fun a ha => ?_) fun e he => ?_
  · cases List.mem_singleton.1 ha
    exact ⟨by decide, by decide, by decide, by decide⟩
  · cases List.mem_singleton.1 hv
    exact (by decide : Variable.named "y" ∈ (query 0).vars)
  · cases List.mem_singleton.1 ha
    exact ⟨_, _, .stored, relation_consistent⟩
  · cases List.mem_singleton.1 he
    exact ⟨position, rfl⟩

end Lines

/-- A stream fails to answer for a position far behind its end. -/
theorem QueryGraph.not_evaluate_results : ¬∀ (κ : Type) (_ : LinearOrder κ) (O : OrderedClass κ)
    (q : QueryGraph) (e : Estimator) (m : CostModel) (c : Cursor),
    q.InMemory O.toRanked O.toValueClass → O.IncludesIntegers O.toRanked.toValueClass →
    q.evaluateWith e m = .ok c → ∃ rows, (c.rows ()).collect = .ok rows ∧
      (rows.map O.view).Perm ((q.results Relation.tuples).map O.view) := by
  intro h
  have hc : ∃ c, (Lines.query (2 ^ 63)).evaluateWith .standard .unit = .ok c ∧
    (c.rows ()).collect = .error (.usage .positionTooLarge) := ⟨_, rfl, rfl⟩
  obtain ⟨c, hc, hfault⟩ := hc
  obtain ⟨rows, hrows, -⟩ := h Int _ OrderedClass.ints _ _ _ c (Lines.query_inMemory _)
    OrderedClass.ints_includes hc
  cases hfault.symm.trans hrows

end JoinOrder
