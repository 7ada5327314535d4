import JoinOrder.Plan.Planner
import JoinOrder.Proofs.Binding
import JoinOrder.Proofs.Graph
import JoinOrder.Proofs.Sorting
import JoinOrder.Proofs.States

/-!
# What the planner does

`Planned` says how a plan comes about, one rule for each thing the planner can do. Facts about
plans are proved by induction on it. It needs no states of atoms: the frontier is computed from the
atoms that remain and the variables that are bound (`candidates_advance`).
-/

namespace JoinOrder
namespace QueryGraph

variable {q : QueryGraph} {e : Estimator} {m : CostModel} {fuel : Nat} {states : AtomStates}
  {remaining : List Nat} {b : Binding} {size fanout : Cardinality} {p : Plan}
  {all : List (Nat × Estimate)} {chosen : Nat × Estimate}

/-! ## Choosing an atom -/

/-- Of the remaining atoms, those that have a bound variable, or all of them if none has one. -/
def frontier (q : QueryGraph) (b : Binding) (remaining : List Nat) : List Nat :=
  match remaining.filter (q.touched b) with
  | [] => remaining
  | touched => touched

theorem frontier_subset : ∀ i ∈ q.frontier b remaining, i ∈ remaining := by
  intro i hi
  unfold frontier at hi
  split at hi
  · exact hi
  · exact List.mem_of_mem_filter hi

theorem touched_iff {i : Nat} : q.touched b i = true ↔ ∃ v ∈ q.atomVariables i, b.isBound v = true :=
  List.any_eq_true

/-- Variables stay bound. -/
theorem touched_bind {vars : List Variable} {i : Nat} (h : q.touched b i = true) :
    q.touched (b.bind vars) i = true := by
  obtain ⟨v, hv, hb⟩ := touched_iff.1 h
  exact touched_iff.2 ⟨v, hv, Binding.isBound_bind.2 (.inl hb)⟩

/-- The states of the atoms lead to the atoms that have a bound variable. -/
theorem candidates_advance (H : states.Coherent (q.touched b)) :
    (states.advance (q.touched b)).candidates = q.frontier b states.remaining := by
  rw [AtomStates.candidates, H.frontier_advance, AtomStates.remaining_advance, frontier]
  cases states.remaining.filter (q.touched b) with
  | nil => rfl
  | cons i touched => rfl

theorem mem_candidates {atoms : List Nat} (h : q.candidates e b atoms = .ok all)
    (hc : chosen ∈ all) : chosen.1 ∈ atoms ∧ e.cheapest q b chosen.1 = .ok chosen.2 := by
  obtain ⟨found, hall, h⟩ := Checked.bind_eq_ok.1 h
  obtain ⟨⟨⟩, -, h⟩ := Checked.bind_eq_ok.1 h
  cases h
  obtain ⟨i, hi, h⟩ := Checked.exists_of_mem_mapM hall hc
  obtain ⟨estimate, he, h⟩ := Checked.bind_eq_ok.1 h
  cases h
  exact ⟨hi, he⟩

/-- The best of some estimates is one of them. -/
theorem best_mem {first : Nat × Estimate} {rest : List (Nat × Estimate)}
    (h : best first rest = .ok chosen) : chosen ∈ first :: rest := Sorting.least_mem h

/-- A step says what it resolves and what is bound before it. -/
theorem resolve_spec {atom : Atom} {s : Step} (ha : q.atoms[chosen.1]? = some atom)
    (h : q.resolve m b all chosen size fanout = .ok s) :
    s.atom = chosen.1 ∧ s.boundVariables = Variable.sorted (atom.boundVariables b) ∧
      s.boundSize = size ∧ s.fanout = fanout := by
  rw [resolve, atom_eq_ok.2 ha, Checked.bind_ok] at h
  dsimp only at h
  generalize (if (atom.attributes (atom.boundVariables b)).isEmpty then none
    else atom.relation.indexMatch (atom.attributes (atom.boundVariables b))) = found at h
  obtain ⟨extent, -, h⟩ := Checked.bind_eq_ok.1 h
  split at h
  · obtain ⟨label, -, h⟩ := Checked.bind_eq_ok.1 h
    cases h
    exact ⟨rfl, rfl, rfl, rfl⟩
  · obtain ⟨costs, -, h⟩ := Checked.bind_eq_ok.1 h
    obtain ⟨label, -, h⟩ := Checked.bind_eq_ok.1 h
    cases h
    exact ⟨rfl, rfl, rfl, rfl⟩

/-- A step keeps the estimate that it was chosen for. It is a lookup if the bound attributes have an
exact match. -/
theorem resolve_kind {atom : Atom} {s : Step} (ha : q.atoms[chosen.1]? = some atom)
    (h : q.resolve m b all chosen size fanout = .ok s) :
    s.estimate = chosen.2 ∧ (s.kind = .lookup ↔ atom.attributes (atom.boundVariables b) ≠ [] ∧
      (atom.relation.indexMatch (atom.attributes (atom.boundVariables b))).any IndexMatch.exact =
        true) := by
  rw [resolve, atom_eq_ok.2 ha, Checked.bind_ok] at h
  dsimp only at h
  have hfound : (if (atom.attributes (atom.boundVariables b)).isEmpty then none
      else atom.relation.indexMatch (atom.attributes (atom.boundVariables b))).any
        IndexMatch.exact =
        true ↔ atom.attributes (atom.boundVariables b) ≠ [] ∧ (atom.relation.indexMatch
          (atom.attributes (atom.boundVariables b))).any IndexMatch.exact = true := by
    by_cases he : atom.attributes (atom.boundVariables b) = []
    · simp [he]
    · simp [he]
  rw [← hfound]
  generalize (if (atom.attributes (atom.boundVariables b)).isEmpty then none
    else atom.relation.indexMatch (atom.attributes (atom.boundVariables b))) = found at h
  obtain ⟨extent, -, h⟩ := Checked.bind_eq_ok.1 h
  split at h
  · next hexact =>
    obtain ⟨label, -, h⟩ := Checked.bind_eq_ok.1 h
    cases h
    exact ⟨rfl, fun _ => hexact, fun _ => rfl⟩
  · next hexact =>
    obtain ⟨costs, -, h⟩ := Checked.bind_eq_ok.1 h
    obtain ⟨label, -, h⟩ := Checked.bind_eq_ok.1 h
    cases h
    exact ⟨rfl, fun he => StepKind.noConfusion he, fun he => (hexact he).elim⟩

/-- A split has the parts as its branches, in some order. -/
theorem split_spec {parts : List Plan} (h : split b size parts = .ok p) : ∃ branches : List Plan,
    branches.Perm parts ∧ p = .node [] branches b.boundVariables
      (branches.foldl (fun c p => c * p.cardinality) size) := by
  obtain ⟨branches, hs, h⟩ := Checked.bind_eq_ok.1 h
  cases h
  exact ⟨branches, Sorting.sort_perm hs, rfl⟩

/-! ## Plans -/

/-- The planner plans some atoms under a binding, for an intermediate result of some size. -/
inductive Planned (q : QueryGraph) (e : Estimator) (m : CostModel) :
    List Nat → Binding → Cardinality → Plan → Prop
  | done (b : Binding) (size : Cardinality) : Planned q e m [] b size (.node [] [] [] size)
  | split {remaining : List Nat} {b : Binding} {size : Cardinality} {classes : List (List Nat)}
      {parts : List Plan} {p : Plan}
      (components : q.components remaining b.boundVariables = .ok classes)
      (several : 2 ≤ classes.length) (length_eq : classes.length = parts.length)
      (planned : ∀ c part, (c, part) ∈ classes.zip parts → Planned q e m c b (.known 1) part)
      (combined : split b size parts = .ok p) : Planned q e m remaining b size p
  | step {remaining : List Nat} {b : Binding} {size fanout : Cardinality}
      {classes : List (List Nat)} {all : List (Nat × Estimate)} {chosen : Nat × Estimate}
      {atom : Atom} {s : Step} {p : Plan} (nonempty : remaining ≠ [])
      (components : q.components remaining b.boundVariables = .ok classes)
      (single : classes.length ≤ 1)
      (candidates : q.candidates e b (q.frontier b remaining) = .ok all)
      (best : ∃ first rest, all = first :: rest ∧ best first rest = .ok chosen)
      (found : q.atoms[chosen.1]? = some atom)
      (output : e.output q b chosen.1 = .ok fanout)
      (resolved : q.resolve m b all chosen size fanout = .ok s)
      (planned : Planned q e m (remaining.filter (· ≠ chosen.1)) (b.bind atom.vars)
        (size * fanout) p) : Planned q e m remaining b size (p.after s)

/-- What is planned for some states is planned for the atoms that remain. -/
theorem planned_of_ok (H : states.Coherent (q.touched b))
    (h : q.planComponent e m fuel states b size = .ok p) :
    Planned q e m states.remaining b size p := by
  induction fuel generalizing states b size p with
  | zero => cases h
  | succ fuel ih =>
    rw [planComponent] at h
    split at h
    · next hempty =>
      cases h
      rw [List.isEmpty_iff.1 hempty]
      exact .done b size
    · next hne =>
      obtain ⟨classes, hclasses, h⟩ := Checked.bind_eq_ok.1 h
      split at h
      · next hseveral =>
        obtain ⟨parts, hparts, h⟩ := Checked.bind_eq_ok.1 h
        rw [Checked.mapM_eq_ok] at hparts
        refine .split hclasses hseveral hparts.length_eq (fun c part hm => ?_) h
        simpa using ih AtomStates.coherent_start (List.forall₂_zip hparts hm)
      · next hsingle =>
        dsimp only at h
        rw [candidates_advance H] at h
        obtain ⟨all, hall, h⟩ := Checked.bind_eq_ok.1 h
        cases all with
        | nil => cases h
        | cons first others =>
          obtain ⟨chosen, hbest, h⟩ := Checked.bind_eq_ok.1 h
          obtain ⟨⟨⟩, -, h⟩ := Checked.bind_eq_ok.1 h
          obtain ⟨atom, hatom, h⟩ := Checked.bind_eq_ok.1 h
          obtain ⟨fanout, hout, h⟩ := Checked.bind_eq_ok.1 h
          obtain ⟨s, hs, h⟩ := Checked.bind_eq_ok.1 h
          obtain ⟨after, hafter, h⟩ := Checked.bind_eq_ok.1 h
          cases h
          have hplanned := ih (H.advance.resolve.mono fun _ => touched_bind) hafter
          rw [AtomStates.remaining_resolve, AtomStates.remaining_advance] at hplanned
          exact .step (fun hnil => hne (List.isEmpty_iff.2 hnil)) hclasses (by omega) hall
            ⟨_, _, rfl, hbest⟩ (atom_eq_ok.1 hatom) hout hs hplanned

theorem planned_of_planWith (h : q.planWith e m = .ok p) :
    Planned q e m q.indices (.ofConstants q.constants) (.known 1) p := by
  simpa using planned_of_ok AtomStates.coherent_start h

end QueryGraph
end JoinOrder
