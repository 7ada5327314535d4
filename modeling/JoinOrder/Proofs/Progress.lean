import JoinOrder.Proofs.CrossProducts
import JoinOrder.Proofs.Evaluation
import JoinOrder.Proofs.Reports

/-!
# Planning ends with a plan

Where relations report known or unbounded sizes, planning ends with a plan whose sizes are not
unknown and whose costs are defined (`QueryGraph.plan_defined`). The only things that it can stumble
over are names that cannot be written. Each step and each split leaves fewer atoms, so the fuel is
not used up.
-/

namespace JoinOrder

/-! ## Defined plans -/

/-- No size of a step is unknown, and its costs are defined. -/
structure Step.Defined (s : Step) : Prop where
  estimate : s.estimate.cardinality ≠ .unknown
  boundSize : s.boundSize ≠ .unknown
  extent : s.extent ≠ .unknown
  fanout : s.fanout ≠ .unknown
  costs : ∀ c, s.costs = some c → ∀ strategy, c.of strategy ≠ .nan

/-- All steps of a plan and of its branches are defined, and no size of them is unknown. -/
inductive Plan.Defined : Plan → Prop
  | node {steps : List Step} {branches : List Plan} {cut : List Variable}
      {cardinality : Cardinality}
      (steps_defined : ∀ s ∈ steps, s.Defined) (branches_defined : ∀ b ∈ branches, Defined b)
      (cardinality_ne : cardinality ≠ .unknown) : Defined (.node steps branches cut cardinality)

theorem Plan.Defined.after {p : Plan} {s : Step} (hs : s.Defined) (H : p.Defined) :
    (p.after s).Defined := by
  cases H with
  | node hsteps hbranches hsize => exact .node (List.forall_mem_cons.2 ⟨hs, hsteps⟩) hbranches hsize

theorem Plan.Defined.cardinality_ne {p : Plan} (H : p.Defined) : p.cardinality ≠ .unknown := by
  cases H with
  | node _ _ hsize => exact hsize

/-- Sizes that are not unknown are ordered as numbers are. -/
theorem Cardinality.ranks {α : Type} (size : α → Cardinality) :
    Sorting.Ranks (total fun x y => (size x).toBinary64.lt (size y).toBinary64)
      (fun x => (size x).toBinary64.rank) fun x => size x ≠ .unknown := fun _ _ hx hy =>
  congrArg _ (Binary64.compare_eq_rank (Cardinality.nonneg_toBinary64 hx).ne_nan
    (Cardinality.nonneg_toBinary64 hy).ne_nan).1

namespace QueryGraph

variable {q : QueryGraph} {m : CostModel} {b : Binding} {remaining : List Nat} {size : Cardinality}
  {fuel : Nat}

/-- The faults of writing an atom or a variable of a query. -/
def Unwritable (q : QueryGraph) (f : Fault) : Prop :=
  ∃ a ∈ q.atoms, a.label.text? = .error f ∨ ∃ v ∈ a.vars, v.name.requireText = .error f

/-- The relations of all atoms report sizes that are known or unbounded. -/
def Reports (q : QueryGraph) : Prop := ∀ a ∈ q.atoms, a.Reports q.constants

theorem ends_text {a : Atom} (ha : a ∈ q.atoms) :
    Checked.Ends q.Unwritable (fun _ => True) a.label.text? := by
  cases h : a.label.text? with
  | ok => trivial
  | error f => exact ⟨a, ha, .inl h⟩

theorem ends_requireText {a : Atom} {v : Variable} (ha : a ∈ q.atoms) (hv : v ∈ a.vars) :
    Checked.Ends q.Unwritable (fun _ => True) v.name.requireText := by
  cases h : v.name.requireText with
  | ok => trivial
  | error f => exact ⟨a, ha, .inr ⟨v, hv, h⟩⟩

theorem ends_requireShown {e : Estimate} (h : ∀ v, e.target = some v → ∃ a ∈ q.atoms, v ∈ a.vars) :
    Checked.Ends q.Unwritable (fun _ => True) e.requireShown := by
  cases htarget : e.target with
  | none =>
    rw [Estimate.requireShown, htarget]
    trivial
  | some v =>
    obtain ⟨a, ha, hv⟩ := h v htarget
    have hname := ends_requireText ha hv
    rw [Estimate.requireShown, htarget]
    dsimp only
    cases hn : v.name.requireText with
    | ok => trivial
    | error f =>
      rw [hn] at hname
      exact hname

theorem exists_best (first : Nat × Estimate) (others : List (Nat × Estimate)) :
    ∃ chosen, best first others = .ok chosen :=
  Sorting.exists_least _ first others

/-- Combining defined plans gives a defined plan. -/
theorem ends_split {allowed : Fault → Prop} {parts : List Plan} (hparts : ∀ p ∈ parts, p.Defined)
    (hs : size ≠ .unknown) : Checked.Ends allowed Plan.Defined (split b size parts) := by
  obtain ⟨branches, hsort, hperm, -⟩ := Sorting.sort_spec (Cardinality.ranks Plan.cardinality)
    fun p hp => (hparts p hp).cardinality_ne
  have hbranches : ∀ p ∈ branches, p.Defined := fun p hp => hparts p (hperm.mem_iff.1 hp)
  rw [split, hsort, Checked.bind_ok]
  exact .node (fun _ h => (List.not_mem_nil h).elim) hbranches
    (Cardinality.foldl_mul_ne_unknown hs fun p hp => (hbranches p hp).cardinality_ne)

variable (H : q.Reports) (hb : b.values = q.constants)

include H hb

/-- Each atom has an estimate that is not unknown. -/
theorem exists_cheapest {i : Nat} (hi : i ∈ q.indices) :
    ∃ e, Estimator.standard.cheapest q b i = .ok e ∧ e.cardinality ≠ .unknown ∧
      ∀ v, e.target = some v → ∃ a ∈ q.atoms, v ∈ a.vars := by
  obtain ⟨a, ha, hmem⟩ := getElem?_of_lt (mem_indices.1 hi)
  obtain ⟨e, he, hne, htarget⟩ := Atom.Reports.exists_cheapestEstimate (hb ▸ H a hmem)
  exact ⟨e, Checked.bind_eq_ok.2 ⟨a, atom_eq_ok.2 ha, he⟩, hne, fun v hv => ⟨a, hmem, htarget v hv⟩⟩

/-- Atoms have estimates that are not unknown. -/
theorem ends_candidates {atoms : List Nat} (hq : ∀ i ∈ atoms, i ∈ q.indices) :
    Checked.Ends q.Unwritable (fun all => all.length = atoms.length ∧
      ∀ c ∈ all, c.1 ∈ atoms ∧ c.2.cardinality ≠ .unknown)
      (q.candidates .standard b atoms) := by
  refine Checked.Ends.bind (P := fun all => all.length = atoms.length ∧
    ∀ c ∈ all, (c.1 ∈ atoms ∧ c.2.cardinality ≠ .unknown) ∧
      ∀ v, c.2.target = some v → ∃ a ∈ q.atoms, v ∈ a.vars)
    (Checked.ends_mapM fun i hi => ?_) fun all hall => ?_
  · obtain ⟨e, he, hne, htarget⟩ := exists_cheapest H hb (hq i hi)
    refine Checked.ends_of_ok ⟨(i, e), ?_, ⟨hi, hne⟩, htarget⟩
    rw [he]
    rfl
  · refine Checked.Ends.bind (Checked.ends_forM fun c hc => ?_) fun _ _ =>
      ⟨hall.1, fun c hc => (hall.2 c hc).1⟩
    obtain ⟨i, e⟩ := c
    exact ends_requireShown (hall.2 (i, e) hc).2

/-- How many tuples an atom contributes is not unknown. -/
theorem exists_output {i : Nat} (hi : i ∈ q.indices) :
    ∃ c, Estimator.standard.output q b i = .ok c ∧ c ≠ .unknown := by
  obtain ⟨a, ha, hmem⟩ := getElem?_of_lt (mem_indices.1 hi)
  obtain ⟨c, hc, hne⟩ := Atom.Reports.exists_outputEstimate (hb ▸ H a hmem)
  exact ⟨c, Checked.bind_eq_ok.2 ⟨a, atom_eq_ok.2 ha, hc⟩, hne⟩

omit hb in
/-- Resolving an atom for sizes that are not unknown gives a defined step. -/
theorem ends_resolve (hm : m.Valid) {all : List (Nat × Estimate)} {chosen : Nat × Estimate}
    {fanout : Cardinality} (hi : chosen.1 ∈ q.indices) (he : chosen.2.cardinality ≠ .unknown)
    (hs : size ≠ .unknown) (hf : fanout ≠ .unknown) :
    Checked.Ends q.Unwritable Step.Defined (q.resolve m b all chosen size fanout) := by
  obtain ⟨a, ha, hmem⟩ := getElem?_of_lt (mem_indices.1 hi)
  obtain ⟨extent, hextent, hne⟩ := (H a hmem).extent
  rw [resolve, atom_eq_ok.2 ha, Checked.bind_ok]
  dsimp only
  generalize (if (a.attributes (a.boundVariables b)).isEmpty then none
    else a.relation.indexMatch (a.attributes (a.boundVariables b))) = found
  rw [hextent, Checked.bind_ok]
  split
  · exact (ends_text hmem).bind fun _ _ =>
      ⟨he, hs, hne, hf, fun c hc => (Option.some_ne_none c hc.symm).elim⟩
  · obtain ⟨probe, hprobe, hprobe_ne⟩ : ∃ probe : Cardinality,
        (if found.isSome then (1 : Binary64) else extent.toBinary64) = probe.toBinary64 ∧
          probe ≠ .unknown := by
      split
      · exact ⟨.known 1, rfl, Cardinality.noConfusion⟩
      · exact ⟨extent, rfl, hne⟩
    obtain ⟨costs, hcosts, hdefined⟩ := hm.costs_spec hs hne hprobe_ne
    rw [hprobe, hcosts, Checked.bind_ok]
    refine (ends_text hmem).bind fun _ _ => ⟨he, hs, hne, hf, ?_⟩
    rintro _ ⟨⟩
    exact hdefined

/-- One of the estimates is the best. Its atom remains, so that it can be resolved. -/
theorem exists_chosen (hm : m.Valid) {states : AtomStates} {first : Nat × Estimate}
    {others : List (Nat × Estimate)} (hq : ∀ i ∈ states.remaining, i ∈ q.indices)
    (hs : size ≠ .unknown) (hall : ∀ c ∈ first :: others,
      c.1 ∈ states.candidates ∧ c.2.cardinality ≠ .unknown) :
    ∃ chosen fanout, best first others = .ok chosen ∧ chosen.1 ∈ states.remaining ∧
      Estimator.standard.output q b chosen.1 = .ok fanout ∧ fanout ≠ .unknown ∧
      Checked.Ends q.Unwritable Step.Defined
        (q.resolve m b (first :: others) chosen size fanout) := by
  obtain ⟨chosen, hbest⟩ := exists_best first others
  obtain ⟨hcandidate, hne⟩ := hall chosen (best_mem hbest)
  have hmem := AtomStates.candidates_subset _ hcandidate
  obtain ⟨fanout, hfanout, hfanout_ne⟩ := exists_output H hb (hq _ hmem)
  exact ⟨chosen, fanout, hbest, hmem, hfanout, hfanout_ne,
    ends_resolve H hm (hq _ hmem) hne hs hfanout_ne⟩

/-- The planner ends with a plan whose sizes are not unknown and whose costs are defined, if there
is more fuel than atoms remain. It chooses among the atoms that remain, so that none is resolved
twice. -/
theorem ends_planComponent {states : AtomStates} (hm : m.Valid) (hn : states.remaining.Nodup)
    (hq : ∀ i ∈ states.remaining, i ∈ q.indices) (hs : size ≠ .unknown)
    (hfuel : states.remaining.length < fuel) :
    Checked.Ends q.Unwritable Plan.Defined
      (q.planComponent .standard m fuel states b size) := by
  induction fuel generalizing states b size with
  | zero => exact (Nat.not_lt_zero _ hfuel).elim
  | succ fuel ih =>
    rw [planComponent]
    split
    · exact .node (fun _ h => (List.not_mem_nil h).elim) (fun _ h => (List.not_mem_nil h).elim) hs
    next hne =>
    have hne : states.remaining ≠ [] := fun h => hne (List.isEmpty_iff.2 h)
    obtain ⟨classes, -, hclasses, -⟩ :=
      components_spec b.boundVariables fun i hi => mem_indices.1 (hq i hi)
    have D := divides_asked hclasses hn hq (.refl _) fun _ => Binding.mem_boundVariables
    rw [hclasses, Checked.bind_ok]
    split
    · next hseveral =>
      refine (Checked.ends_mapM fun part hpart => ?_).bind fun parts hparts =>
        ends_split hparts.2 hs
      have hlen := D.length_lt hseveral hpart
      have hsub := D.subset hpart
      refine ih hb ?_ ?_ Cardinality.noConfusion ?_
      · rw [AtomStates.remaining_start]
        exact D.nodup hn hpart
      · rw [AtomStates.remaining_start]
        exact fun j hj => hq j (hsub j hj)
      · rw [AtomStates.remaining_start]
        omega
    · rw [← @AtomStates.remaining_advance states (q.touched b)] at hn hq hfuel hne
      dsimp only
      generalize states.advance (q.touched b) = states at hn hq hfuel hne
      refine (ends_candidates H hb fun i hi => hq i (AtomStates.candidates_subset i hi)).bind
        fun all hall => ?_
      cases all with
      | nil =>
        exact (AtomStates.candidates_ne_nil hne (List.length_eq_zero_iff.1 hall.1.symm)).elim
      | cons first others =>
        obtain ⟨chosen, fanout, hbest, hmem, hfanout, hfanout_ne, hstep⟩ :=
          exists_chosen H hb hm hq hs hall.2
        obtain ⟨a, ha, -⟩ := getElem?_of_lt (mem_indices.1 (hq _ hmem))
        dsimp only
        rw [hbest, Checked.bind_ok, AtomStates.requireOpen_eq_ok hmem, Checked.bind_ok,
          atom_eq_ok.2 ha, Checked.bind_ok, hfanout, Checked.bind_ok]
        refine hstep.bind fun s hs' => ?_
        have hlen := AtomStates.length_resolve hn hmem
        have hrest : (states.resolve chosen.1).remaining = states.remaining.filter (· ≠ chosen.1) :=
          AtomStates.remaining_resolve
        exact (ih (b := b.bind a.vars) hb (hrest ▸ hn.filter _)
          (fun j hj => hq j (List.mem_of_mem_filter (hrest ▸ hj)))
          (Cardinality.mul_ne_unknown hs hfanout_ne) (by omega)).bind fun p hp => hp.after hs'

omit hb

/-- Where relations report sizes that are known or unbounded, planning ends with a plan whose sizes
are not unknown and whose costs are defined, unless a name of the query cannot be written. -/
theorem plan_defined (hm : m.Valid) : (∃ p, q.plan m = .ok p ∧ p.Defined) ∨
    ∃ f, q.plan m = .error f ∧ q.Unwritable f := by
  have hplan : Checked.Ends q.Unwritable Plan.Defined (q.plan m) :=
    ends_planComponent H rfl hm (by simpa using nodup_indices) (by simp) Cardinality.noConfusion
      (by simp [indices])
  cases h : q.plan m with
  | ok p =>
    rw [h] at hplan
    exact .inl ⟨p, rfl, hplan⟩
  | error f =>
    rw [h] at hplan
    exact .inr ⟨f, rfl, hplan⟩

end QueryGraph

/-! ## Lines of a stream that are in an empty relation -/

namespace Lines

def emptyQuery : QueryGraph where
  atoms := [⟨.stored relation, [(.named "x", [.text "a"]), (.named "y", [.text "p"])]⟩,
    ⟨.listed ⟨.text "N", [.text "a"], [], []⟩, [(.named "x", [.text "a"])]⟩]
  constants := []

theorem relation_keyFrequency (bound : List Name) :
    ∃ c, relation.keyFrequency bound = .ok c ∧ c ≠ some .unknown := by
  have hsource : (relation.selectSource bound).1 = source :=
    List.mem_singleton.1 StoredRelation.selectSource_mem
  rw [StoredRelation.keyFrequency]
  split
  · next s key h =>
    rw [h] at hsource
    cases hsource
    rw [Source.maxFrequency]
    split
    · exact ⟨some (.known 1), rfl, by decide⟩
    · split <;> exact ⟨none, rfl, by decide⟩
  · exact ⟨none, rfl, by decide⟩

theorem emptyQuery_reports : emptyQuery.Reports := by
  intro a ha
  simp only [emptyQuery, List.mem_cons, List.not_mem_nil, or_false] at ha
  rcases ha with rfl | rfl
  · exact ⟨⟨_, rfl, Cardinality.noConfusion⟩, ⟨_, rfl, Cardinality.noConfusion⟩,
      relation_keyFrequency,
      fun _ hc => (List.not_mem_nil hc).elim⟩
  · exact ⟨⟨_, rfl, Cardinality.noConfusion⟩, ⟨_, rfl, Cardinality.noConfusion⟩,
      fun _ => ⟨none, rfl, by decide⟩, fun _ hc => (List.not_mem_nil hc).elim⟩

end Lines

/-- The plan joins none with unboundedly many. -/
theorem QueryGraph.plan_emptyQuery : Lines.emptyQuery.Reports ∧ CostModel.unit.Valid ∧
    ∃ p, Lines.emptyQuery.plan .unit = .ok p ∧ p.Defined ∧
      p.allSteps.map Step.extent = [.known 0, .infinite] := by
  have hp : ∃ p, Lines.emptyQuery.plan .unit = .ok p ∧
    p.allSteps.map Step.extent = [.known 0, .infinite] := ⟨_, rfl, rfl⟩
  obtain ⟨p, hp, hextents⟩ := hp
  refine ⟨Lines.emptyQuery_reports, CostModel.unit_valid, p, hp, ?_, hextents⟩
  rcases QueryGraph.plan_defined Lines.emptyQuery_reports CostModel.unit_valid with
    ⟨p', hp', hdefined⟩ | ⟨f, hf, -⟩
  · cases hp.symm.trans hp'
    exact hdefined
  · cases hp.symm.trans hf

end JoinOrder
