import JoinOrder.Proofs.Graph
import JoinOrder.Proofs.Nodes
import JoinOrder.Proofs.Ordered
import JoinOrder.Proofs.Strategy

/-!
# The results of a plan

A plan joins the rows that enter it with the bags of its atoms, whatever the strategies of its
steps (`run_spec`). Since the join is commutative, the order of the atoms and the division into
branches do not matter, and every well-formed plan has the results of the query.
-/

namespace JoinOrder

namespace QueryGraph

variable {q : QueryGraph} {a : Atom} {i : Nat} {κ : Type} {K : ValueClass κ}
  {T : Variable → Value → Prop} {tuples : Relation → List (List Value)}

/-- The values of a variable are compared with each other: it has a constant, it stands for several
attributes of an atom, or two atoms share it. -/
def Compares (q : QueryGraph) (v : Variable) : Prop :=
  v ∈ q.constants.vars ∨ (∃ a ∈ q.atoms, a.Repeats v) ∨
    ∃ i j, i ≠ j ∧ v ∈ q.atomVariables i ∧ v ∈ q.atomVariables j

/-- Values that are compared may be keys. -/
def Accepts (q : QueryGraph) (v : Variable) (x : Value) : Prop := q.Compares v → x.isKey = true

theorem compares_of_repeats (ha : a ∈ q.atoms) {v : Variable} (h : a.Repeats v) : q.Compares v :=
  .inr (.inl ⟨a, ha, h⟩)

/-- A query that reads these tuples of its relations. -/
structure Reads (K : ValueClass κ) (q : QueryGraph) (tuples : Relation → List (List Value)) :
    Prop where
  wellFormed : q.WellFormed
  filters : ∀ a ∈ q.atoms, a.relation.Filters K (tuples a.relation)
  finds : ∀ a ∈ q.atoms, a.relation.Finds K (a.TakesTuple q.Accepts)
  carrier : ∀ e ∈ q.constants, K.carrier e.2
  takes : q.constants.Takes q.Accepts

/-- A query whose atoms answer for all values that its variables may have. -/
structure Answers (K : ValueClass κ) (T : Variable → Value → Prop) (q : QueryGraph)
    (tuples : Relation → List (List Value)) : Prop where
  wellFormed : q.WellFormed
  fits : ∀ a ∈ q.atoms, ∀ t ∈ tuples a.relation, K.Fits a.relation.attributes t
  keys : ∀ a ∈ q.atoms, ∀ t ∈ tuples a.relation, a.ComparesKeys t
  answers : ∀ a ∈ q.atoms, a.Answers K (·.Takes T) T (a.bag K (tuples a.relation))
  carrier : ∀ e ∈ q.constants, K.carrier e.2
  takes : q.constants.Takes T
  accepts : ∀ v x, T v x → q.Accepts v x

/-- Values that a query accepts may be keys wherever an atom compares them. -/
theorem comparesKeys {t : List Value} (ha : a ∈ q.atoms) (h : a.TakesTuple q.Accepts t) :
    a.ComparesKeys t := h.imp fun _ _ hx hv => hx (compares_of_repeats ha hv)

theorem Reads.answers (H : q.Reads K tuples) : q.Answers K q.Accepts tuples where
  wellFormed := H.wellFormed
  fits a ha := (H.filters a ha).fits
  keys a ha t ht := comparesKeys ha ((H.filters a ha).holds (H.finds a ha) t ht)
  answers a ha := Atom.answers_of_filters (H.wellFormed.atoms a ha) (H.filters a ha)
    ((H.finds a ha).imp fun _ ht => ⟨comparesKeys ha ht, ht⟩)
  carrier := H.carrier
  takes := H.takes
  accepts _ _ := id

theorem Answers.constants (H : q.Answers K T tuples) :
    K.Assigns q.constants.vars q.constants where
  nodup := H.wellFormed.constants_nodup
  mem_vars _ := .rfl
  carrier _ _ h := H.carrier _ (Assignment.mem_of_get? h)

/-- The rows of an atom that is given by its index. -/
noncomputable def atomBag (K : ValueClass κ) (q : QueryGraph)
    (tuples : Relation → List (List Value)) (i : Nat) : Multiset (View κ) :=
  match q.atoms[i]? with
  | some a => a.bag K (tuples a.relation)
  | none => 1

/-- The natural join of some atoms. -/
noncomputable def joined (K : ValueClass κ) (q : QueryGraph)
    (tuples : Relation → List (List Value)) (order : List Nat) : Multiset (View κ) :=
  (order.map (q.atomBag K tuples)).prod

theorem joined_append (order more : List Nat) :
    q.joined K tuples (order ++ more) = q.joined K tuples order * q.joined K tuples more := by
  rw [joined, List.map_append, List.prod_append]
  rfl

theorem joined_cons (order : List Nat) :
    q.joined K tuples (i :: order) = q.atomBag K tuples i * q.joined K tuples order := by
  rw [joined, List.map_cons, List.prod_cons]
  rfl

/-- The order of the atoms does not matter. -/
theorem joined_perm {order more : List Nat} (h : order.Perm more) :
    q.joined K tuples order = q.joined K tuples more := (h.map _).prod_eq

/-- The nested loops join the constants with all atoms. -/
theorem Answers.bag_results (H : q.Answers K T tuples) :
    K.bag (q.results tuples) = {K.view q.constants} * q.joined K tuples q.indices := by
  rw [results, nestedLoop_spec H.wellFormed.atoms
    (fun a ha t ht => ⟨H.fits a ha t ht, H.keys a ha t ht⟩) H.constants]
  have hmap : q.indices.map (q.atomBag K tuples) =
      q.atoms.map fun a => a.bag K (tuples a.relation) := by
    refine List.ext_getElem (by simp [indices, size]) fun i h _ => ?_
    have hi : i < q.atoms.length := by simpa [indices, size] using h
    simp [indices, atomBag, hi]
  rw [joined, hmap]

end QueryGraph

/-! ## Steps -/

namespace Execution

open Plan ValueClass

variable {κ : Type} {K : ValueClass κ} {T : Variable → Value → Prop} {q : QueryGraph}
  {tuples : Relation → List (List Value)} {bound : List Variable} {order more : List Nat}
  {rows : List Assignment}
  {input : Rows Assignment} {choose : Choice}

/-- The rows come out joined with some atoms. -/
def Runs (K : ValueClass κ) (T : Variable → Value → Prop) (q : QueryGraph)
    (tuples : Relation → List (List Value))
    (bound : List Variable) (rows : List Assignment) (order : List Nat)
    (out : Rows Assignment) : Prop :=
  ∃ found, out.Yields found ∧ K.bag found = K.bag rows * q.joined K tuples order ∧
    ∀ r ∈ found, Admitted K T q.constants (boundBy q bound order) r

theorem extend_spec {a : Atom} {i : Nat} {join : List Variable} (H : q.Answers K T tuples)
    (ha : q.atoms[i]? = some a) (hj : ∀ v, v ∈ join ↔ v ∈ q.atomVariables i ∧ v ∈ bound)
    (hc : ∀ v ∈ join, q.Compares v)
    (hin : input.Yields rows) (hrows : ∀ r ∈ rows, Admitted K T q.constants bound r)
    (strategy : JoinStrategy) :
    Runs K T q tuples bound rows [i] (extend strategy a join q.constants input) := by
  rw [QueryGraph.atomVariables_eq ha] at hj
  obtain ⟨found, hy, hbag, hext⟩ := joins_extend (H.answers a (List.mem_of_getElem? ha)) H.constants
    H.takes hj (fun _ v hv x hx => H.accepts v x hx (hc v hv)) hin hrows
    fun r hr => (hrows r hr).takes
  refine ⟨found, hy, ?_, fun r hr => ?_⟩
  · rw [hbag, QueryGraph.joined, List.map_singleton, List.prod_singleton, QueryGraph.atomBag, ha]
  · simpa [boundBy, QueryGraph.atomVariables_eq ha] using hext r hr

/-- What comes out of some atoms may enter others. -/
theorem Runs.trans {out out' : Rows Assignment} (H : Runs K T q tuples bound rows order out)
    (H' : ∀ found, out.Yields found →
      (∀ r ∈ found, Admitted K T q.constants (boundBy q bound order) r) →
      Runs K T q tuples (boundBy q bound order) found more out') :
    Runs K T q tuples bound rows (order ++ more) out' := by
  obtain ⟨found, hy, hbag, hext⟩ := H
  obtain ⟨found', hy', hbag', hext'⟩ := H' found hy hext
  refine ⟨found', hy', ?_, fun r hr => boundBy_append order more ▸ hext' r hr⟩
  rw [hbag', hbag, mul_assoc, QueryGraph.joined_append]

theorem runSteps_spec {steps : List Step} (H : q.Answers K T tuples)
    (hm : MarksBound q bound steps) (hi : ∀ s ∈ steps, s.atom < q.size)
    (hc : ∀ s ∈ steps, ∀ v ∈ s.boundVariables, q.Compares v)
    (hs : ∀ s ∈ steps, ∃ strategy, choose s = .ok strategy)
    (hin : input.Yields rows) (hrows : ∀ r ∈ rows, Admitted K T q.constants bound r) :
    ∃ out, runSteps choose q steps input = .ok out ∧
      Runs K T q tuples bound rows (steps.map Step.atom) out := by
  induction steps generalizing bound rows input with
  | nil =>
    refine ⟨input, rfl, rows, hin, ?_, fun r hr => ?_⟩
    · rw [List.map_nil, QueryGraph.joined, List.map_nil, List.prod_nil, mul_one]
    · simpa [boundBy] using hrows r hr
  | cons s rest ih =>
    rw [List.forall_mem_cons] at hi hc hs
    rw [marksBound_cons] at hm
    obtain ⟨a, ha, -⟩ := QueryGraph.getElem?_of_lt hi.1
    obtain ⟨strategy, hst⟩ := hs.1
    have hstep := extend_spec H ha hm.1 hc.1 hin hrows strategy
    obtain ⟨found, hy, -, hext⟩ := id hstep
    obtain ⟨out, hout, -⟩ := ih hm.2 hi.2 hc.2 hs.2 hy hext
    refine ⟨out, ?_, hstep.trans fun found' hy' hext' => ?_⟩
    · rw [runSteps, QueryGraph.atom_eq_ok.2 ha, Checked.bind_ok, hst, Checked.bind_ok, hout]
    · obtain ⟨out', hout', hruns⟩ := ih hm.2 hi.2 hc.2 hs.2 hy' hext'
      cases hout.symm.trans hout'
      exact hruns

/-! ## Branches -/

variable {row s : Assignment} {bound' : List Variable} {ps : List Plan}
  {results : List (List Assignment)}

/-- The results of a branch for a row that enters it. -/
structure Results (K : ValueClass κ) (T : Variable → Value → Prop) (q : QueryGraph)
    (tuples : Relation → List (List Value)) (bound : List Variable) (row : Assignment) (p : Plan)
    (results : List Assignment) : Prop where
  bag : K.bag results = {K.view row} * q.joined K tuples p.joinOrder
  extends_row : ∀ r ∈ results, Admitted K T q.constants (boundBy q bound p.joinOrder) r

/-- The results of a branch contain the row. -/
theorem Results.within {p : Plan} {found : List Assignment} {r : Assignment}
    (H : Results K T q tuples bound row p found) (hr : r ∈ found) :
    (K.view row).Within (K.view r) := by
  have hmem : K.view r ∈ K.bag found := List.mem_map_of_mem hr
  rw [H.bag, mem_single_join] at hmem
  obtain ⟨g, -, -, hg⟩ := hmem
  exact hg ▸ View.Within.union (fun _ _ h => h) g

/-- Results of a branch share with a row of earlier branches only what entered both. -/
theorem Results.agree {p : Plan} {found : List Assignment} {r : Assignment}
    (H : Results K T q tuples bound row p found) (hr : r ∈ found)
    (hrow : Admitted K T q.constants bound row) (hs : Admitted K T q.constants bound' s)
    (hnew : ∀ i ∈ p.joinOrder, ∀ v ∈ q.atomVariables i, v ∈ bound' → v ∈ bound)
    (hwithin : (K.view row).Within (K.view s)) : (K.view s).Agree (K.view r) := by
  rw [agree_iff hs.assigns]
  intro v hv hrv
  have hb : v ∈ bound := by
    rcases mem_boundBy.1 (((H.extends_row r hr).assigns.mem_vars v).1 hrv) with hb | ⟨i, hi, hvi⟩
    · exact hb
    · exact hnew i hi v hvi hv
  obtain ⟨y, hy, -⟩ := hrow.assigns.get? hb
  have hy : K.view row v = some (K.code y) := by rw [view, hy, Option.map_some]
  rw [hwithin v _ hy, H.within hr v _ hy]

/-- The branches of a row have results, or one of them has none and the join is empty. -/
theorem runBranches_spec
    (H : ∀ p ∈ ps, Runs K T q tuples bound [row] p.joinOrder (run choose q p (.single row))) :
    ∃ o, runBranches choose q ps row = .ok o ∧
      (o = none → {K.view row} * q.joined K tuples (ps.flatMap joinOrder) = 0) ∧
      ∀ results, o = some results → List.Forall₂ (Results K T q tuples bound row) ps results := by
  induction ps with
  | nil =>
    refine ⟨some [], rfl, nofun, ?_⟩
    rintro _ ⟨⟩
    exact .nil
  | cons p rest ih =>
    rw [List.forall_mem_cons] at H
    obtain ⟨found, hy, hbag, hext⟩ := H.1
    obtain ⟨o, ho, hnone, hsome⟩ := ih H.2
    rw [runBranches, hy, Checked.bind_ok, List.flatMap_cons, QueryGraph.joined_append]
    cases found with
    | nil =>
      refine ⟨none, rfl, fun _ => ?_, nofun⟩
      rw [← mul_assoc]
      exact (congrArg (· * _) hbag.symm).trans (zero_join _)
    | cons f found =>
      rw [List.isEmpty_cons, if_neg Bool.false_ne_true, ho, Checked.bind_ok]
      refine ⟨_, rfl, fun hn => ?_, fun results hr => ?_⟩
      · rw [mul_left_comm, hnone (Option.map_eq_none_iff.1 hn), mul_comm, zero_join]
      · obtain ⟨others, hothers, rfl⟩ := Option.map_eq_some_iff.1 hr
        exact .cons ⟨hbag, hext⟩ (hsome others hothers)

/-- Combining the results of independent branches with a row joins the row with all of them. Here
`s` is the row with results of earlier branches. -/
theorem combine_spec (hres : List.Forall₂ (Results K T q tuples bound row) ps results)
    (hrow : Admitted K T q.constants bound row)
    (hapart : ps.Pairwise fun b c => ∀ i ∈ b.joinOrder, ∀ j ∈ c.joinOrder, ∀ v,
      v ∈ q.atomVariables i → v ∈ q.atomVariables j → v ∈ bound)
    (hs : Admitted K T q.constants bound' s)
    (hnew : ∀ p ∈ ps, ∀ i ∈ p.joinOrder, ∀ v ∈ q.atomVariables i, v ∈ bound' → v ∈ bound)
    (hwithin : (K.view row).Within (K.view s)) :
    Runs K T q tuples bound' [s] (ps.flatMap joinOrder) (combine results s) := by
  induction hres generalizing s bound' with
  | nil =>
    refine ⟨[s], rfl, ?_, fun r hr => ?_⟩
    · rw [List.flatMap_nil, QueryGraph.joined, List.map_nil, List.prod_nil, mul_one]
    · cases List.mem_singleton.1 hr
      simpa [boundBy] using hs
  | @cons p found ps results hp _ ih =>
    rw [List.pairwise_cons] at hapart
    rw [List.forall_mem_cons] at hnew
    have hagree : ∀ x ∈ found, (K.view s).Agree (K.view x) := fun x hx =>
      hp.agree hx hrow hs hnew.1 hwithin
    have hmerge := fun x hx => hs.merge (hp.extends_row x hx).assigns (hp.extends_row x hx).takes
      (hagree x hx)
    have hrest : ∀ x ∈ found, Runs K T q tuples (bound' ++ boundBy q bound p.joinOrder) [s.merge x]
        (ps.flatMap joinOrder) (combine results (s.merge x)) := fun x hx => by
      refine ih hapart.2 (hmerge x hx) (fun c hc i hi v hv hv' => ?_) ?_
      · rcases List.mem_append.1 hv' with hv' | hv'
        · exact hnew.2 c hc i hi v hv hv'
        · rcases mem_boundBy.1 hv' with hv' | ⟨j, hj, hv'⟩
          · exact hv'
          · exact hapart.1 c hc j hj i hi v hv' hv
      · rw [view_merge (hp.extends_row x hx).assigns.nodup (hagree x hx)]
        exact hwithin.union _
    choose! out hy hbag hext using hrest
    refine ⟨found.flatMap out, ?_, ?_, fun r hr => ?_⟩
    · exact (Rows.yields_ofList found).bind hy
    · have hout : ∀ x ∈ found, K.bag (out x) =
          {K.view x} * ({K.view s} * q.joined K tuples (ps.flatMap joinOrder)) := fun x hx => by
        have hx' : K.bag [s.merge x] = {K.view s} * {K.view x} := by
          rw [single_join_of_agree (hagree x hx),
            ← view_merge (hp.extends_row x hx).assigns.nodup (hagree x hx)]
          rfl
        rw [hbag x hx, hx', mul_comm {K.view s}, mul_assoc]
      rw [bag_flatMap hout, hp.bag, mul_mul_mul_comm, mul_comm {K.view row},
        single_join_of_within hwithin, List.flatMap_cons, QueryGraph.joined_append]
      rfl
    · obtain ⟨x, hx, hr⟩ := List.mem_flatMap.1 hr
      refine (hext x hx r hr).congr fun v => ?_
      have hsub : v ∈ bound → v ∈ bound' :=
        hrow.toExtends.subset_of_within hs.toExtends hwithin
      simp only [mem_boundBy, List.mem_append, List.flatMap_cons, or_and_right, exists_or]
      constructor
      · rintro ((h | h | h) | h)
        · exact .inl h
        · exact .inl (hsub h)
        · exact .inr (.inl h)
        · exact .inr (.inr h)
      · rintro (h | h | h)
        · exact .inl (.inl h)
        · exact .inl (.inr (.inr h))
        · exact .inr h

/-- The branches of a node join a single row with their atoms. -/
theorem branches_spec (hrow : Admitted K T q.constants bound row)
    (hruns : ∀ p ∈ ps, Runs K T q tuples bound [row] p.joinOrder (run choose q p (.single row)))
    (hapart : ps.Pairwise fun b c => ∀ i ∈ b.joinOrder, ∀ j ∈ c.joinOrder, ∀ v,
      v ∈ q.atomVariables i → v ∈ q.atomVariables j → v ∈ bound) :
    Runs K T q tuples bound [row] (ps.flatMap joinOrder) (.ofChecked do
      match ← runBranches choose q ps row with
      | none => return .done
      | some results => return combine results row) := by
  obtain ⟨o, ho, hnone, hsome⟩ := runBranches_spec hruns
  rw [ho, Checked.bind_ok]
  cases o with
  | none => exact ⟨[], rfl, (hnone rfl).symm, nofun⟩
  | some results =>
    refine combine_spec (hsome results rfl) hrow hapart hrow ?_ fun _ _ h => h
    exact fun _ _ _ _ _ _ h => h

/-! ## Plans -/

/-- A plan whose nodes are well-formed joins what enters it with its atoms. -/
theorem run_spec (H : q.Answers K T tuples) (p : Plan) {asked : List Nat}
    (hm : ∀ {asked' bound' n}, HasNode q asked bound p asked' bound' n →
      MarksBound q bound' n.steps)
    (ha : ∀ {asked' bound' n}, HasNode q asked bound p asked' bound' n → KeepsApart q bound' n)
    (hi : ∀ i ∈ p.joinOrder, i < q.size)
    (hc : ∀ s ∈ p.allSteps, ∀ v ∈ s.boundVariables, q.Compares v)
    (hs : ∀ s ∈ p.allSteps, ∃ strategy, choose s = .ok strategy)
    (hin : input.Yields rows) (hrows : ∀ r ∈ rows, Admitted K T q.constants bound r) :
    Runs K T q tuples bound rows p.joinOrder (run choose q p input) := by
  induction p using Plan.induction generalizing asked bound rows input with
  | step p ih =>
    rw [allSteps_node] at hc hs
    have hsteps : ∀ s ∈ p.steps, s.atom < q.size := fun s hmem =>
      hi s.atom (joinOrder_node p ▸ List.mem_append_left _ (List.mem_map_of_mem hmem))
    obtain ⟨out, hout, hruns⟩ := runSteps_spec H (hm (.root ..)) hsteps
      (fun s hmem => hc s (List.mem_append_left _ hmem))
      (fun s hmem => hs s (List.mem_append_left _ hmem)) hin hrows
    rw [joinOrder_node]
    obtain ⟨steps, branches, cut, c⟩ := p
    simp only [Plan.steps, Plan.branches] at *
    rw [run, hout, Checked.bind_ok]
    by_cases hb : branches.isEmpty
    · rw [if_pos hb, List.isEmpty_iff.1 hb, List.flatMap_nil, List.append_nil]
      exact hruns
    · rw [if_neg hb]
      refine hruns.trans fun found hy hext => ?_
      have hrow : ∀ r ∈ found, Runs K T q tuples (boundBy q bound (steps.map Step.atom)) [r]
          (branches.flatMap joinOrder) (.ofChecked do
            match ← runBranches choose q branches r with
            | none => return .done
            | some results => return combine results r) := fun r hr => by
        refine branches_spec (hext r hr) (fun b hmem => ?_) (ha (.root ..))
        refine ih b hmem (fun h => hm (.branch hmem h)) (fun h => ha (.branch hmem h))
          (fun i hib => hi i ?_) (fun s hsb => hc s ?_) (fun s hsb => hs s ?_)
          (Rows.yields_single r) ?_
        · exact joinOrder_subset_of_mem hmem hib
        · exact List.mem_append_right _ (List.mem_flatMap.2 ⟨b, hmem, hsb⟩)
        · exact List.mem_append_right _ (List.mem_flatMap.2 ⟨b, hmem, hsb⟩)
        · exact fun r' hr' => List.mem_singleton.1 hr' ▸ hext r hr
      choose! results hy' hbag' hext' using hrow
      refine ⟨found.flatMap results, hy.bind hy', bag_flatMap hbag', fun r hr => ?_⟩
      obtain ⟨r', hr', hmem⟩ := List.mem_flatMap.1 hr
      exact hext' r' hr' r hmem

end Execution

/-- The variables that are bound before a step are compared there. -/
theorem Plan.WellFormed.compares {q : QueryGraph} {p : Plan} (H : p.WellFormed q) :
    ∀ s ∈ p.allSteps, ∀ v ∈ s.boundVariables, q.Compares v := by
  intro s hs v hv
  rcases H.boundVariables_spec hs v hv with hc | ⟨i, hne, hvi, hvs⟩
  · exact .inl hc
  · exact .inr (.inr ⟨i, s.atom, hne, hvi, hvs⟩)

/-- A well-formed plan has the results of the query, if each of its steps has a strategy. -/
theorem Plan.WellFormed.results_of_answers {κ : Type} {K : ValueClass κ}
    {T : Variable → Value → Prop} {q : QueryGraph} {tuples : Relation → List (List Value)}
    {p : Plan} {choose : Execution.Choice} (hp : p.WellFormed q) (H : q.Answers K T tuples)
    (hs : ∀ s ∈ p.allSteps, ∃ strategy, choose s = .ok strategy) :
    ∃ rows, ((p.executeWith choose q).rows ()).collect = .ok rows ∧
      K.bag rows = K.bag (q.results tuples) ∧ ∀ row ∈ rows, K.Assigns q.vars row := by
  obtain ⟨rows, hy, hbag, hext⟩ := Execution.run_spec H p hp.marks hp.apart
    (fun i hi => QueryGraph.mem_indices.1 (hp.resolves.mem_iff.1 hi)) hp.compares hs
    (Rows.yields_single q.constants) fun r hr => by
      cases List.mem_singleton.1 hr
      exact ⟨⟨H.constants, fun _ _ h => h⟩, H.takes⟩
  refine ⟨rows, hy, ?_, fun row hrow => (hext row hrow).assigns.congr fun v => ?_⟩
  · rw [hbag, H.bag_results, QueryGraph.joined_perm hp.resolves]
    rfl
  · rw [mem_boundBy, QueryGraph.mem_boundBy_indices hp.resolves]
    exact ⟨fun h => h.elim (H.wellFormed.constants_mem v) id, .inr⟩

theorem Plan.WellFormed.results {κ : Type} {K : ValueClass κ} {q : QueryGraph}
    {tuples : Relation → List (List Value)} {p : Plan} {choose : Execution.Choice}
    (hp : p.WellFormed q) (H : q.Reads K tuples)
    (hs : ∀ s ∈ p.allSteps, ∃ strategy, choose s = .ok strategy) :
    ∃ rows, ((p.executeWith choose q).rows ()).collect = .ok rows ∧
      K.bag rows = K.bag (q.results tuples) ∧ ∀ row ∈ rows, K.Assigns q.vars row :=
  hp.results_of_answers H.answers hs

/-- Every well-formed plan has the results of the query, whatever the strategies of its steps. Each
row has exactly the variables of the query, and any two well-formed plans agree. -/
theorem Plan.execute_results {κ : Type} {K : ValueClass κ} {q : QueryGraph}
    {tuples : Relation → List (List Value)} {p : Plan} (H : q.Reads K tuples)
    (hp : p.WellFormed q) (strategy : Step → JoinStrategy) :
    ∃ rows, ((p.executeWith (fun s => .ok (strategy s)) q).rows ()).collect = .ok rows ∧
      (rows.map K.view).Perm ((q.results tuples).map K.view) ∧
      (∀ row ∈ rows, row.vars.Nodup ∧ ∀ v, v ∈ row.vars ↔ v ∈ q.vars) ∧
      ∀ (p' : Plan) (strategy' : Step → JoinStrategy), p'.WellFormed q →
        ∃ rows', ((p'.executeWith (fun s => .ok (strategy' s)) q).rows ()).collect = .ok rows' ∧
          (rows.map K.view).Perm (rows'.map K.view) := by
  obtain ⟨rows, hy, hbag, hassigns⟩ := hp.results H
    fun _ _ => ⟨_, rfl⟩
  refine ⟨rows, hy, ValueClass.bag_eq_iff.1 hbag, fun row hrow => ?_, fun p' strategy' hp' => ?_⟩
  · exact ⟨(hassigns row hrow).nodup, (hassigns row hrow).mem_vars⟩
  · obtain ⟨rows', hy', hbag', -⟩ := hp'.results H
      fun _ _ => ⟨_, rfl⟩
    exact ⟨rows', hy', ValueClass.bag_eq_iff.1 (hbag.trans hbag'.symm)⟩

/-! ## A relation joined with itself -/

namespace SelfJoin

/-- A relation with a single attribute. -/
def column (rows : List Value) : Relation :=
  .listed ⟨.text "R", [.text "a"], rows.map fun v => [v], []⟩

/-- A relation that is joined with itself. -/
def query (rows : List Value) : QueryGraph where
  atoms := List.replicate 2 ⟨column rows, [(.named "x", [.text "a"])]⟩
  constants := []

def step (atom : Nat) (bound : List Variable) : Step where
  atom := atom
  label := "R(a=x)"
  kind := .join
  strategy := .iterate
  boundVariables := bound
  candidates := []
  estimate := ⟨.known 1, .scan, some (.named "x"), 1, none, none⟩
  boundSize := .known 1
  extent := .known 1
  fanout := .known 1
  costs := none

def plan : Plan := .node [step 0 [], step 1 [.named "x"]] [] [] (.known 1)

theorem wellFormed (rows : List Value) : (query rows).WellFormed where
  atoms := by
    intro a ha
    cases List.eq_of_mem_replicate ha
    exact ⟨by simp [Atom.vars], by simp, by simp, by simp [column, Relation.attributes]⟩
  constants_nodup := List.nodup_nil
  constants_mem := nofun

theorem plan_wellFormed (rows : List Value) : plan.WellFormed (query rows) where
  resolves := .refl [0, 1]
  marks {asked bound n} h := by
    cases h with
    | root =>
      refine Plan.marksBound_cons.2 ⟨?_, Plan.marksBound_cons.2 ⟨?_, ?_⟩⟩
      · simp [step, query, Assignment.vars]
      · simp [step, query, Plan.boundBy, QueryGraph.atomVariables, Atom.vars]
      · simp [Plan.MarksBound]
    | branch hb => cases hb
  apart {asked bound n} h := by
    cases h with
    | root => exact .nil
    | branch hb => cases hb

theorem answers (rows : List Value) :
    ∀ a ∈ (query rows).atoms, a.relation.Answers (rows.map fun v => [v]) := by
  intro a ha
  cases List.eq_of_mem_replicate ha
  exact ListedRelation.answers (r := ⟨.text "R", [.text "a"], rows.map fun v => [v], []⟩)
    (by simp)

theorem fits (numbers : List Int) : ∀ a ∈ (query (numbers.map .int)).atoms,
    ∀ t ∈ (numbers.map .int).map fun v => [v],
      OrderedClass.ints.Fits a.relation.attributes t := by
  intro a ha t ht
  cases List.eq_of_mem_replicate ha
  simp only [List.map_map, List.mem_map] at ht
  obtain ⟨n, -, rfl⟩ := ht
  exact ⟨rfl, by simpa using ⟨n, rfl⟩⟩

theorem reads (numbers : List Int) :
    (query (numbers.map .int)).Reads OrderedClass.ints.toValueClass
      fun _ => (numbers.map .int).map fun v => [v] where
  wellFormed := wellFormed _
  filters a ha := (answers _ a ha).filters (fits numbers a ha)
  finds a ha := (answers _ a ha).finds fun t ht =>
    Atom.takesTuple_of_keys OrderedClass.keys_ints (fits numbers a ha t ht).2 fun _ _ h _ => h
  carrier := nofun
  takes := nofun

end SelfJoin

/-- The self-join of three numbers, two of which are equal, has five rows. -/
theorem Plan.execute_selfJoin : (SelfJoin.query [.int 1, .int 2, .int 2]).Reads
      OrderedClass.ints.toValueClass (fun _ => [[.int 1], [.int 2], [.int 2]]) ∧
    SelfJoin.plan.WellFormed (SelfJoin.query [.int 1, .int 2, .int 2]) ∧
    ∃ rows, ((SelfJoin.plan.executeWith (fun _ => .ok .filter)
        (SelfJoin.query [.int 1, .int 2, .int 2])).rows ()).collect = .ok rows ∧
      rows.length = 5 := by
  have H : (SelfJoin.query [.int 1, .int 2, .int 2]).Reads OrderedClass.ints.toValueClass
      (fun _ => [[.int 1], [.int 2], [.int 2]]) := SelfJoin.reads [1, 2, 2]
  have Hp := SelfJoin.plan_wellFormed [.int 1, .int 2, .int 2]
  obtain ⟨rows, hrows, hperm, -⟩ := Plan.execute_results H Hp fun _ => .filter
  refine ⟨H, Hp, rows, hrows, ?_⟩
  rw [← List.length_map, hperm.length_eq]
  decide

/-- Some strategy fails on values that may not be keys, and some strategy finds an undefined number
by its key though it does not equal itself. -/
theorem Plan.not_execute_results :
    (¬∀ (q : QueryGraph) (tuples : Relation → List (List Value)) (p : Plan)
      (strategy : Step → JoinStrategy), q.WellFormed →
        (∀ a ∈ q.atoms, a.relation.Answers (tuples a.relation)) → p.WellFormed q →
        (∀ a ∈ q.atoms, ∀ t ∈ tuples a.relation, ∀ v ∈ t, Value.eq v v = true) →
        ∃ rows, ((p.executeWith (fun s => .ok (strategy s)) q).rows ()).collect = .ok rows) ∧
    ¬∀ (q : QueryGraph) (tuples : Relation → List (List Value)) (p : Plan)
      (strategy : Step → JoinStrategy), q.WellFormed →
        (∀ a ∈ q.atoms, a.relation.Answers (tuples a.relation)) → p.WellFormed q →
        (∀ a ∈ q.atoms, ∀ t ∈ tuples a.relation, ∀ v ∈ t, v.isKey = true) →
        ∃ rows, ((p.executeWith (fun s => .ok (strategy s)) q).rows ()).collect = .ok rows ∧
          rows.length = (q.results tuples).length := by
  constructor
  · intro h
    obtain ⟨rows, hrows⟩ := h (SelfJoin.query [.list []]) (fun _ => [[.list []]]) SelfJoin.plan
      (fun _ => .intermediate) (SelfJoin.wellFormed _) (SelfJoin.answers _)
      (SelfJoin.plan_wellFormed _) (fun _ _ => by simp [Value.eq, Value.eqList])
    cases hrows
  · intro h
    obtain ⟨rows, hrows, hlen⟩ := h (SelfJoin.query [.undefined 0]) (fun _ => [[.undefined 0]])
      SelfJoin.plan (fun _ => .intermediate) (SelfJoin.wellFormed _) (SelfJoin.answers _)
      (SelfJoin.plan_wellFormed _) (fun _ _ => by simp [Value.isKey])
    cases hrows
    cases hlen

end JoinOrder
