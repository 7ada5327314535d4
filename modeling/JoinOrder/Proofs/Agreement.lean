import JoinOrder.Proofs.Evaluation

/-!
# Agreement of strategies

One strategy asks the sources of an atom for the values of each row, the others compare the values
that they have read. Over numbers of all kinds both find the same rows (`strategies_agree`), unless
a number that equals a position is not taken for it: tables refuse truth values and fractional
numbers, and streams refuse the latter.
-/

namespace JoinOrder

namespace QueryGraph

variable {q : QueryGraph}

/-- A query over consistent relations of numbers, or views of them. -/
structure Numeric (q : QueryGraph) : Prop where
  wellFormed : q.WellFormed
  relations : ∀ a ∈ q.atoms, ∃ r rows, a.relation.Shows r ∧
    r.Consistent OrderedClass.numbers.toRanked rows
  carrier : ∀ e ∈ q.constants, OrderedClass.numbers.carrier e.2

theorem Numeric.inMemory (H : q.Numeric) :
    q.InMemory OrderedClass.numbers.toRanked OrderedClass.numbers.toValueClass :=
  inMemory_of_ordered OrderedClass.numbers_includes OrderedClass.keys_numbers H.wellFormed
    H.relations H.carrier

/-- Whatever the strategies of its steps, a plan for a query over numbers has the same results up
to equality, which are those of nested loops. -/
theorem strategies_agree {e : Estimator} {m : CostModel} {p : Plan} (H : q.Numeric)
    (hl : q.Located) (h : q.planWith e m = .ok p) (strategy : Step → JoinStrategy) :
    ∃ rows, ((p.executeWith (fun s => .ok (strategy s)) q).rows ()).collect = .ok rows ∧
      (rows.map OrderedClass.numbers.view).Perm
        ((q.results Relation.tuples).map OrderedClass.numbers.view) ∧
      ∀ strategy' : Step → JoinStrategy, ∃ rows',
        ((p.executeWith (fun s => .ok (strategy' s)) q).rows ()).collect = .ok rows' ∧
        (rows.map OrderedClass.numbers.view).Perm (rows'.map OrderedClass.numbers.view) := by
  have hp := wellFormed_of_planWith h
  have hq := H.inMemory.answers_offered OrderedClass.numbers_includes hl
  obtain ⟨rows, hrows, hbag, -⟩ := hp.results_of_answers hq fun _ _ => ⟨_, rfl⟩
  refine ⟨rows, hrows, ValueClass.bag_eq_iff.1 hbag, fun strategy' => ?_⟩
  obtain ⟨rows', hrows', hbag', -⟩ := hp.results_of_answers hq fun _ _ => ⟨_, rfl⟩
  exact ⟨rows', hrows', ValueClass.bag_eq_iff.1 (hbag.trans hbag'.symm)⟩

end QueryGraph

/-! ## Numbered lines -/

namespace Numbered

/-- A table that is not sorted by any attribute. -/
def table (attributes : List Name) (position : Option Name) (rows : List (List Value)) : Source :=
  .ofSchema ⟨.table, attributes, position, []⟩
    (some (SortedTable.handle ⟨[], rows.toArray, (rows.map fun _ => []).toArray⟩))

/-- Numbers that select lines. -/
def selection (rows : List (List Value)) : StoredRelation :=
  ⟨.text "R", [.text "a"], [.text "float"], table [.text "a"] none rows, [], []⟩

/-- Lines with their positions. -/
def lines : StoredRelation :=
  ⟨.text "S", [.text "p", .text "b"], [.text "int", .text "int"],
    table [.text "b"] (some (.text "p")) [[.int 10], [.int 20]], [], []⟩

/-- The lines at some positions. -/
def query (rows : List (List Value)) (constants : Assignment) : QueryGraph where
  atoms := [⟨.stored (selection rows), [(.named "x", [.text "a"])]⟩,
    ⟨.stored lines, [(.named "x", [.text "p"]), (.named "y", [.text "b"])]⟩]
  constants := constants

variable {rows : List (List Value)} {constants : Assignment}

theorem selection_consistent (hr : ∀ row ∈ rows, OrderedClass.numbers.All row)
    (hw : ∀ row ∈ rows, row.length = 1) (hc : rows.length < 2 ^ 63)
    (hb : SortedTable.build rows [] = .ok ⟨[], rows.toArray, (rows.map fun _ => []).toArray⟩) :
    (selection rows).Consistent OrderedClass.numbers.toRanked rows where
  wellFormed := ⟨by simp [selection], by simp [selection, table, Source.ofSchema, Source.columns,
    Schema.columns], nofun⟩
  primary := by
    have hs : Schema.WellFormed ⟨.table, [.text "a"], none, []⟩ :=
      ⟨by decide, by simp [Schema.columns], by simp, by simp⟩
    exact Source.inMemory_table hs hr hw hc hb rfl
  auxiliaries := nofun

theorem carrier_int (n : Int) : OrderedClass.numbers.carrier (.int n) := ⟨.int n, rfl, nofun⟩

theorem schema_lines : Schema.WellFormed ⟨.table, [.text "b"], some (.text "p"), []⟩ :=
  ⟨by decide, by simp [Schema.columns], by simp, by simp⟩

theorem build_lines : SortedTable.build [[.int 10], [.int 20]] [] =
    .ok ⟨[], #[[.int 10], [.int 20]], #[[], []]⟩ := rfl

theorem lines_isTable : lines.primary.IsTable [[.int 10], [.int 20]] :=
  Source.isTable_ofSchema schema_lines build_lines rfl

theorem lines_consistent :
    lines.Consistent OrderedClass.numbers.toRanked [[.int 10], [.int 20]] where
  wellFormed := ⟨by simp [lines], by simp [lines, table, Source.ofSchema, Source.columns,
    Schema.columns], List.forall_mem_nil _⟩
  primary := by
    refine Source.inMemory_table schema_lines ?_ (by simp) (by simp) build_lines rfl
    simp only [List.forall_mem_cons, ValueClass.all_cons]
    exact ⟨⟨carrier_int 10, List.forall_mem_nil _⟩, ⟨carrier_int 20, List.forall_mem_nil _⟩,
      List.forall_mem_nil _⟩
  auxiliaries := List.forall_mem_nil _

theorem vars_query : (query rows constants).vars = [.named "x", .named "y"] := rfl

theorem query_numeric (h : (selection rows).Consistent OrderedClass.numbers.toRanked rows)
    (hd : constants.vars.Nodup) (hm : ∀ v ∈ constants.vars, v ∈ (query rows constants).vars)
    (hc : ∀ e ∈ constants, OrderedClass.numbers.carrier e.2) : (query rows constants).Numeric where
  wellFormed := by
    refine ⟨fun a ha => ?_, hd, hm⟩
    simp only [query, List.mem_cons, List.not_mem_nil, or_false] at ha
    rcases ha with rfl | rfl
    · exact ⟨by simp [Atom.vars], by simp, by simp, by simp [selection, Relation.attributes]⟩
    · exact ⟨by decide, by decide, by decide, by decide⟩
  relations a ha := by
    simp only [query, List.mem_cons, List.not_mem_nil, or_false] at ha
    rcases ha with rfl | rfl
    · exact ⟨_, _, .stored, h⟩
    · exact ⟨_, _, .stored, lines_consistent⟩
  carrier := hc

theorem selection_one :
    (selection [[.real 1]]).Consistent OrderedClass.numbers.toRanked [[.real 1]] :=
  selection_consistent (by simpa [ValueClass.All] using ⟨_, rfl, by decide⟩) (by simp) (by simp) rfl

/-- The number behind all integers. -/
def top : Value := .real (.infinity false)

theorem selection_top : (selection [[.int 1], [top]]).Consistent OrderedClass.numbers.toRanked
    [[.int 1], [top]] := by
  refine selection_consistent ?_ (by simp) (by simp) rfl
  simpa [ValueClass.All, carrier_int] using ⟨_, rfl, by decide⟩

theorem twenty_numeric : (query [[.int 1], [top]] [(.named "y", .real 20)]).Numeric := by
  refine query_numeric selection_top (List.nodup_singleton _) (fun v hv => ?_) fun e he => ?_
  · rw [vars_query]
    exact List.mem_cons_of_mem _ hv
  · cases List.mem_singleton.1 he
    exact ⟨_, rfl, by decide⟩

/-- What is stored in a relation without auxiliary sources. -/
theorem mem_of_stores {r : StoredRelation} {name : Name} {x : Value} {scanned : List (List Value)}
    (h : r.Stores name x) (ha : r.auxiliaries = []) (hy : (r.primary.scan []).Yields scanned) :
    ∃ t ∈ scanned, t[r.primary.columns.idxOf name]? = some x := by
  obtain ⟨s, hs, scanned', hy', hx⟩ := h
  rw [StoredRelation.sources, ha, List.mem_singleton] at hs
  subst hs
  cases hy.unique hy'
  exact hx

theorem scan_selection : ((selection [[.int 1], [top]]).primary.scan []).Yields
    [[.int 1], [top]] := rfl

theorem scan_lines : (lines.primary.scan []).Yields
    [[.int 10, .int 0], [.int 20, .int 1]] := rfl

/-- Lines are selected by integers, and by what is not the position of any of them. -/
theorem offers_x {x : Value} (h : (query [[.int 1], [top]] [(.named "y", .real 20)]).Offers
    (.named "x") x) : (∃ n, x = .int n) ∨ x = top := by
  rcases h with hc | ⟨a, ha, r, hr, names, hb, name, hn, hx⟩
  · cases hc
  simp only [query, List.mem_cons, List.not_mem_nil, or_false] at ha
  rcases ha with rfl | rfl
  · cases List.mem_singleton.1 hb
    cases List.mem_singleton.1 hn
    cases hr
    obtain ⟨t, ht, hx⟩ := mem_of_stores hx rfl scan_selection
    simp only [List.mem_cons, List.not_mem_nil, or_false] at ht
    rcases ht with rfl | rfl
    · exact .inl ⟨1, (Option.some.inj hx).symm⟩
    · exact .inr (Option.some.inj hx).symm
  · simp only [List.mem_cons, Prod.mk.injEq, List.not_mem_nil, or_false] at hb
    rcases hb with ⟨-, rfl⟩ | ⟨hv, -⟩
    swap
    · exact absurd hv (by decide)
    cases List.mem_singleton.1 hn
    cases hr
    obtain ⟨t, ht, hx⟩ := mem_of_stores hx rfl scan_lines
    simp only [List.mem_cons, List.not_mem_nil, or_false] at ht
    rcases ht with rfl | rfl
    · exact .inl ⟨0, (Option.some.inj hx).symm⟩
    · exact .inl ⟨1, (Option.some.inj hx).symm⟩

theorem twenty_located : (query [[.int 1], [top]] [(.named "y", .real 20)]).Located := by
  rintro v x hx r name ⟨a, ha, hr, attributes, he, hname⟩ s hs hp others
  simp only [query, List.mem_cons, List.not_mem_nil, or_false] at ha
  rcases ha with rfl | rfl
  · cases hr
    cases List.mem_singleton.1 hs.mem
    cases hp
  cases hr
  cases List.mem_singleton.1 hs.mem
  cases hp
  have hstream : ¬lines.primary.IsStream others := lines_isTable.not_isStream
  simp only [List.mem_cons, Prod.mk.injEq, List.not_mem_nil, or_false] at he
  rcases he with ⟨rfl, rfl⟩ | ⟨-, rfl⟩
  · rcases offers_x hx with ⟨n, rfl⟩ | rfl
    · exact Source.locates_int fun h => (hstream h).elim
    · exact ⟨fun _ => .inr fun _ _ => rfl, fun h => (hstream h).elim⟩
  · simp at hname

/-- The line at one, which is given as a fractional number. -/
def evaluated (strategy : JoinStrategy) : Checked (List Assignment) := do
  let p ← (query [[.real 1]] []).planWith .standard .unit
  ((p.executeWith (fun _ => .ok strategy) (query [[.real 1]] [])).rows ()).collect

end Numbered

/-- Of the lines at 1 and at infinity, the one with 20 is found by all strategies. -/
theorem QueryGraph.strategies_agree_lines :
    (Numbered.query [[.int 1], [Numbered.top]] [(.named "y", .real 20)]).Numeric ∧
    (Numbered.query [[.int 1], [Numbered.top]] [(.named "y", .real 20)]).Located ∧
    ∃ p rows, (Numbered.query [[.int 1], [Numbered.top]] [(.named "y", .real 20)]).planWith
        .standard .unit = .ok p ∧
      ((p.executeWith (fun _ => .ok .iterate)
        (Numbered.query [[.int 1], [Numbered.top]] [(.named "y", .real 20)])).rows ()).collect =
          .ok rows ∧ rows.length = 1 := by
  have hp : ∃ p, (Numbered.query [[.int 1], [Numbered.top]] [(.named "y", .real 20)]).planWith
      .standard .unit = .ok p := ⟨_, rfl⟩
  obtain ⟨p, hp⟩ := hp
  obtain ⟨rows, hrows, hperm, -⟩ := QueryGraph.strategies_agree Numbered.twenty_numeric
    Numbered.twenty_located hp fun _ => .iterate
  refine ⟨Numbered.twenty_numeric, Numbered.twenty_located, p, rows, hp, hrows, ?_⟩
  rw [← List.length_map, hperm.length_eq, List.length_map]
  rfl

/-- A table does not take a fractional number for the position that it equals, so that the line at
1 is only found by the strategies that compare it. -/
theorem QueryGraph.not_strategies_agree : ¬∀ (q : QueryGraph) (e : Estimator) (m : CostModel)
    (p : Plan) (strategy strategy' : Step → JoinStrategy), q.Numeric → q.planWith e m = .ok p →
      ∃ rows rows', ((p.executeWith (fun s => .ok (strategy s)) q).rows ()).collect = .ok rows ∧
        ((p.executeWith (fun s => .ok (strategy' s)) q).rows ()).collect = .ok rows' ∧
        (rows.map OrderedClass.numbers.view).Perm (rows'.map OrderedClass.numbers.view) := by
  intro h
  have hq : (Numbered.query [[.real 1]] []).Numeric :=
    Numbered.query_numeric Numbered.selection_one List.nodup_nil nofun nofun
  have hiterate : Numbered.evaluated .iterate = .ok [] := rfl
  have hfilter : Numbered.evaluated .filter =
    .ok [[(.named "x", .int 1), (.named "y", .int 20)]] := rfl
  obtain ⟨p, hp, hiterate⟩ := Checked.bind_eq_ok.1 hiterate
  obtain ⟨p', hp', hfilter⟩ := Checked.bind_eq_ok.1 hfilter
  cases hp.symm.trans hp'
  obtain ⟨rows, rows', hrows, hrows', hperm⟩ := h _ _ _ p (fun _ => .iterate) (fun _ => .filter)
    hq hp
  cases hiterate.symm.trans hrows
  cases hfilter.symm.trans hrows'
  simpa using hperm.length_eq

end JoinOrder
