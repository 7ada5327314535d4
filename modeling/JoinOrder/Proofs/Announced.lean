import JoinOrder.Proofs.Counts
import JoinOrder.Proofs.Evaluation
import JoinOrder.Proofs.Sizes

/-!
# Announced and actual sizes

The sizes in the plan of a query over tables bound the numbers of rows of its execution, whatever
the strategies of its steps.
-/

namespace JoinOrder

namespace Plan

variable {κ : Type} {K : ValueClass κ} {T : Variable → Value → Prop} {q : QueryGraph}
  {tuples : Relation → List (List Value)} {bound bound' : List Variable} {p n : Plan}
  {asked asked' : List Nat} {steps : List Step}

theorem card_bag (rows : List Assignment) : Multiset.card (K.bag rows) = rows.length := by
  rw [ValueClass.bag, Multiset.coe_card, List.length_map]

theorem MarksBound.take (H : MarksBound q bound steps) (k : Nat) :
    MarksBound q bound (steps.take k) := by
  intro j s hs v
  rw [List.getElem?_take] at hs
  split at hs
  · next hj =>
    rw [H j s hs v, List.take_take, Nat.min_eq_left (Nat.le_of_lt hj)]
  · cases hs

/-- The atoms of a node are atoms of the plan. -/
theorem HasNode.joinOrder_subset (H : HasNode q asked bound p asked' bound' n) :
    ∀ i ∈ n.joinOrder, i ∈ p.joinOrder := by
  induction H with
  | root => exact fun _ h => h
  | branch hb _ ih => exact fun i hi => joinOrder_subset_of_mem hb (ih i hi)

/-- The rows that reach a step from a row that enters the node, and those that each of them is
extended to. -/
theorem Bounded.reaching_rows {k : Nat} {s : Step} {row : Assignment}
    (H : Bounded K T q tuples bound 1 n) (HR : q.Answers K T tuples)
    (hm : MarksBound q bound n.steps) (hi : ∀ s ∈ n.steps, s.atom < q.size)
    (hc : ∀ s ∈ n.steps, ∀ v ∈ s.boundVariables, q.Compares v)
    (strategy : Step → JoinStrategy) (hs : n.steps[k]? = some s)
    (hrow : Admitted K T q.constants bound row) :
    ∃ out reaching size fanout,
      Execution.runSteps (fun s => .ok (strategy s)) q (n.steps.take k) (.single row) = .ok out ∧
      out.Yields reaching ∧ s.boundSize = .known size ∧ reaching.length ≤ size ∧
      s.fanout = .known fanout ∧ ∀ r ∈ reaching, ∃ a found, q.atom s.atom = .ok a ∧
        (Execution.extend (strategy s) a s.boundVariables q.constants (.single r)).Yields found ∧
        found.length ≤ fanout := by
  have hsingle : ∀ r ∈ [row], Admitted K T q.constants bound r := List.forall_mem_singleton.2 hrow
  have hatoms : (n.steps.take k).map Step.atom = n.stepAtoms.take k := List.map_take
  obtain ⟨out, hout, reaching, hy, hbag, hext⟩ := Execution.runSteps_spec HR (hm.take k)
    (fun s hs => hi s (List.mem_of_mem_take hs)) (fun s hs => hc s (List.mem_of_mem_take hs))
    (fun _ _ => ⟨_, rfl⟩) (Rows.yields_single row) hsingle
  rw [hatoms] at hbag hext
  obtain ⟨size, m, hsize, hle, hcard⟩ := H.reaching k s hs
  obtain ⟨fanout, m', hfanout, hle', hcard'⟩ := H.fanout k s hs
  rw [Nat.one_mul] at hle hle'
  refine ⟨out, reaching, size, fanout, hout, hy, hsize, ?_, hfanout, fun r hr => ?_⟩
  · rw [← card_bag (K := K), hbag]
    exact Nat.le_trans (hcard row hrow) hle
  · obtain ⟨a, ha, -⟩ := QueryGraph.getElem?_of_lt (hi s (List.mem_of_getElem? hs))
    have hrext := hext r hr
    obtain ⟨found, hyf, hbagf, -⟩ := Execution.extend_spec HR ha
      (fun v => hatoms ▸ hm k s hs v) (hc s (List.mem_of_getElem? hs)) (Rows.yields_single r)
      (fun r' hr' => List.mem_singleton.1 hr' ▸ hrext) (strategy s)
    refine ⟨a, found, QueryGraph.atom_eq_ok.2 ha, hyf, ?_⟩
    rw [← card_bag (K := K), hbagf, QueryGraph.joined, List.map_singleton, List.prod_singleton]
    exact Nat.le_trans (hcard' r hrext) hle'

end Plan

namespace QueryGraph

/-- A value that a variable may be asked for: it may be looked up wherever the variable is mapped,
as a position only if it is an integer, and it may be a key where it is compared. -/
structure Sought {κ : Type} [LinearOrder κ] (R : RankedClass κ) (q : QueryGraph) (v : Variable)
    (x : Value) : Prop where
  accepts : q.Accepts v x
  takes : ∀ r name, q.Maps v r name → r.Takes R name x
  integers : ∀ r name, q.Maps v r name → r.AsksInteger name x

/-- A query over relations of different tuples in tables, of which the declared constraints are
true, and whose atoms map all attributes. All values that its variables may have may be asked
for. -/
structure InTables {κ μ : Type} [LinearOrder κ] [DecidableEq μ] (R : RankedClass κ)
    (K : ValueClass μ) (q : QueryGraph) : Prop where
  wellFormed : q.WellFormed
  relations : ∀ a ∈ q.atoms, ∃ r rows, a.relation.Shows r ∧ r.Consistent R rows ∧
    ∀ s ∈ r.sources, ∃ others, s.IsTable others
  carrier : ∀ e ∈ q.constants, K.carrier e.2
  sought : ∀ v x, q.Offers v x → q.Sought R v x
  covers : ∀ a ∈ q.atoms, ∀ name ∈ a.relation.attributes, ∃ e ∈ a.bindings, name ∈ e.2
  distinct : ∀ a ∈ q.atoms, (a.relation.tuples.map K.codes).Nodup
  constraints : ∀ a ∈ q.atoms, ∀ c ∈ a.relation.constraints,
    c.Holds K a.relation.attributes a.relation.tuples

variable {κ μ : Type} [LinearOrder κ] [DecidableEq μ] {R : RankedClass κ} {K : ValueClass μ}
  {q : QueryGraph} {m : CostModel} {p : Plan}

theorem InTables.inMemory (H : q.InTables R K) : q.InMemory R K where
  wellFormed := H.wellFormed
  relations a ha := by
    obtain ⟨r, rows, hr, hrows, -⟩ := H.relations a ha
    exact ⟨r, rows, hr, hrows⟩
  carrier := H.carrier
  takes v x hx := (H.sought v x hx).takes
  accepts v x hx := (H.sought v x hx).accepts

theorem InTables.answers (H : q.InTables R K) (hK : K.IncludesIntegers R.toValueClass) :
    q.Answers K (q.Sought R) Relation.tuples := by
  refine H.inMemory.answers hK (fun v x hx _ => H.sought v x hx) fun v x hx =>
    ⟨hx.accepts, fun r name hm => ⟨hx.takes r name hm, fun s hs hp others => ?_⟩⟩
  obtain ⟨n, rfl⟩ := hx.integers r name hm s hs.mem hp
  refine Source.locates_int fun hstream => ?_
  obtain ⟨a, ha, hshows, -⟩ := hm
  obtain ⟨r', rows, hshows', -, ht⟩ := H.relations a ha
  cases hshows.unique hshows'
  obtain ⟨_, htable⟩ := ht s hs.mem
  exact (htable.not_isStream hstream).elim

theorem InTables.counted (H : q.InTables R K) (hK : K.IncludesIntegers R.toValueClass) :
    ∀ a ∈ q.atoms, a.Counted K (q.Sought R) a.relation.tuples := by
  intro a ha
  obtain ⟨r, rows, hshows, hrows, ht⟩ := H.relations a ha
  have hwf := H.wellFormed.atoms a ha
  have htyped : ∀ binding, a.Asks K (q.Sought R) binding → r.Typed R binding := by
    rintro _ ⟨vars, row, hassigns, htakes, rfl⟩
    have hsought : ∀ e ∈ a.relationBinding row, ∃ v, q.Maps v r e.1 ∧ q.Sought R v e.2 := by
      intro e he
      obtain ⟨b, hb, hname, hx⟩ := Atom.mem_relationBinding.1 he
      exact ⟨b.1, ⟨a, ha, hshows, b.2, hb, hname⟩, htakes b.1 e.2 hx⟩
    refine ⟨fun name hn => hshows.mem_attributes.1 (hwf.names_relationBinding.2 name hn),
      fun e he => ?_, fun e he => ?_⟩
    · obtain ⟨v, hm, hx⟩ := hsought e he
      exact hx.takes r e.1 hm
    · obtain ⟨v, hm, hx⟩ := hsought e he
      exact hx.integers r e.1 hm
  have hfits : ∀ t ∈ r.tuples, K.Fits r.attributes t := fun _ => (hrows.keeps hK).fits
  refine ⟨hwf, ?_, H.covers a ha, hshows.fits hfits, ⟨hshows.announces hfits
    (fun binding hb => (htyped binding hb).attributes)
    ((hrows.announces (StoredRelation.measured_of_tables ht) hK).mono htyped),
    hshows.known (StoredRelation.lookup_known ht)⟩, H.distinct a ha, H.constraints a ha⟩
  exact hshows.attributes_nodup hrows.wellFormed.attributes_nodup

/-- If no product of sizes that the planner forms has more than 53 binary digits, then at each node
the announced sizes bound the rows that reach a step from one row and the rows that each of these is
extended to, and the size of the plan bounds the results. -/
theorem plan_sizes (H : q.InTables R K) (hK : K.IncludesIntegers R.toValueClass)
    (h : q.plan m = .ok p)
    (hp : ∀ x y, p.Multiplies q (.ofConstants q.constants) (.known 1) (.known x) (.known y) →
      x * y ≤ 2 ^ 53) (strategy : Step → JoinStrategy) :
    (∀ asked bound n, Plan.HasNode q q.indices q.constants.vars p asked bound n →
      ∀ k s, n.steps[k]? = some s → ∀ row, Admitted K (q.Sought R) q.constants bound row →
        ∃ out reaching size fanout,
          Execution.runSteps (fun s => .ok (strategy s)) q (n.steps.take k) (.single row) =
            .ok out ∧
          out.Yields reaching ∧ s.boundSize = .known size ∧ reaching.length ≤ size ∧
          s.fanout = .known fanout ∧ ∀ r ∈ reaching, ∃ a found, q.atom s.atom = .ok a ∧
            (Execution.extend (strategy s) a s.boundVariables q.constants (.single r)).Yields
              found ∧
            found.length ≤ fanout) ∧
    ∃ rows size, ((p.executeWith (fun s => .ok (strategy s)) q).rows ()).collect = .ok rows ∧
      p.cardinality = .known size ∧ rows.length ≤ size := by
  have hq := H.answers hK
  have hsized := (planned_of_planWith h).sized hq (H.counted hK) rfl rfl
    (fun v => Binding.isBound_ofConstants.symm) hp
  have hwf := wellFormed_of_planWith h
  constructor
  · intro asked bound n hn k s hs row hrow
    refine (hsized.bounded hn).reaching_rows hq (hwf.marks hn) (fun s hmem => ?_)
      (fun s hmem => hwf.compares s (hn.steps_subset s hmem)) strategy hs hrow
    have hatom : s.atom ∈ n.joinOrder := by
      rw [Plan.joinOrder_node]
      exact List.mem_append_left _ (List.mem_map_of_mem hmem)
    exact mem_indices.1 (hwf.resolves.mem_iff.1 (hn.joinOrder_subset _ hatom))
  · obtain ⟨rows, hrows, hbag, -⟩ := hwf.results_of_answers hq fun _ _ => ⟨_, rfl⟩
    obtain ⟨size, n, hsize, hle, hcard⟩ := hsized.root.results
    refine ⟨rows, size, hrows, hsize, ?_⟩
    rw [Nat.one_mul] at hle
    rw [← Plan.card_bag (K := K), hbag, hq.bag_results, ← joined_perm hwf.resolves]
    exact Nat.le_trans (hcard q.constants ⟨⟨hq.constants, fun _ _ h => h⟩, hq.takes⟩) hle

end QueryGraph

/-! ## Paths of two edges -/

namespace Edges

theorem query_inTables (node : Int) : (query node).InTables OrderedClass.ints.toRanked
    OrderedClass.ints.toValueClass where
  wellFormed := query_wellFormed node
  relations a ha := ⟨_, _, shows_relation ha, relation_consistent, relation_isTable⟩
  carrier := (query_inMemory node).carrier
  sought v x hx :=
    ⟨(query_inMemory node).accepts v x hx, (query_inMemory node).takes v x hx, fun _ _ _ _ _ _ =>
      hx.carrier OrderedClass.ints_includes (query_inMemory node).relations
        (query_inMemory node).carrier⟩
  covers a ha := by
    simp only [query, List.mem_cons, List.not_mem_nil, or_false] at ha
    rcases ha with rfl | rfl <;> decide
  distinct a ha := by
    simp only [query, List.mem_cons, List.not_mem_nil, or_false] at ha
    rcases ha with rfl | rfl
    all_goals
      change ((numbers [[1, 2], [2, 2], [2, 3]]).map OrderedClass.ints.codes).Nodup
      decide
  constraints a ha := by
    simp only [query, List.mem_cons, List.not_mem_nil, or_false] at ha
    rcases ha with rfl | rfl <;> exact fun _ hc => (List.not_mem_nil hc).elim

end Edges

namespace QueryGraph

/-- The size of a plan for the paths of two edges that end at a node. -/
theorem plan_edges : (Edges.query 2).InTables OrderedClass.ints.toRanked
      OrderedClass.ints.toValueClass ∧
    OrderedClass.ints.IncludesIntegers OrderedClass.ints.toRanked.toValueClass ∧
    ∃ p, (Edges.query 2).plan .unit = .ok p ∧
      (∀ x y, p.Multiplies (Edges.query 2) (.ofConstants (Edges.query 2).constants) (.known 1)
        (.known x) (.known y) → x * y ≤ 2 ^ 53) ∧
      ∃ rows size,
        ((p.executeWith (fun s => .ok s.strategy) (Edges.query 2)).rows ()).collect = .ok rows ∧
        p.cardinality = .known size ∧ rows.length ≤ size := by
  have hp : ∃ p, (Edges.query 2).plan .unit = .ok p ∧ ∀ x y,
      p.Multiplies (Edges.query 2) (.ofConstants (Edges.query 2).constants) (.known 1) (.known x)
        (.known y) → x * y ≤ 2 ^ 53 := by
    refine ⟨_, rfl, fun x y h => ?_⟩
    cases h with
    | output found formed =>
      cases found
      cases formed.1 _ rfl
    | extend =>
      decide
    | later found formed =>
      cases found
      cases formed with
      | output found formed =>
        cases found
        obtain ⟨-, estimates, hest, before, behind, hsplit, hx⟩ := formed
        cases hest
        replace hsplit : [.known 2] = before ++ .known y :: behind := hsplit
        obtain rfl : before = [] := by
          have hlen := congrArg List.length hsplit
          simp only [List.length_append, List.length_cons, List.length_nil] at hlen
          exact List.eq_nil_of_length_eq_zero (by omega)
        cases hsplit
        cases hx
        decide
      | extend => decide
      | later found formed =>
        cases found
        cases formed with
        | combine formed =>
          obtain ⟨before, behind, hsplit, -⟩ := formed
          cases before <;> cases hsplit
        | branch mem => cases mem
  obtain ⟨p, hp, hproducts⟩ := hp
  exact ⟨Edges.query_inTables 2, OrderedClass.ints_includes, p, hp, hproducts,
    (plan_sizes (Edges.query_inTables 2) OrderedClass.ints_includes hp hproducts Step.strategy).2⟩

end QueryGraph
end JoinOrder
