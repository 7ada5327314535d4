import Mathlib.Data.Prod.Lex
import JoinOrder.Proofs.CrossProducts
import JoinOrder.Proofs.IndexKeys
import JoinOrder.Proofs.Progress

/-!
# Greedy choices

Each step of a plan resolves the atom that the estimates prefer among all that are left at its node
and have a bound variable. This can be read off the finished plan (`QueryGraph.planWith_greedy`):
what is bound before a step follows from the steps on the way to it, and what is left are the atoms
of the later steps and of the branches.
-/

namespace JoinOrder

/-! ## The order of estimates -/

namespace Estimate

variable {x y : Nat × Estimate}

/-- An estimate of an atom does not come behind another one: it is smaller; or equally large, and
the atom has less unbound variables, or as many and comes first or is the same. -/
def NotBehind (x y : Nat × Estimate) : Prop :=
  x.2.cardinality.toBinary64.lt y.2.cardinality.toBinary64 = true ∨
    x.2.cardinality.toBinary64.eq y.2.cardinality.toBinary64 = true ∧
      (x.2.unbound < y.2.unbound ∨ x.2.unbound = y.2.unbound ∧ x.1 ≤ y.1)

/-- Where an estimate of a size that is not unknown stands among all. -/
def rank (x : Nat × Estimate) : WithBot (WithTop Rat) ×ₗ (Nat ×ₗ Nat) :=
  toLex (x.2.cardinality.toBinary64.rank, toLex (x.2.unbound, x.1))

theorem compare_rank (hx : x.2.cardinality ≠ .unknown) (hy : y.2.cardinality ≠ .unknown) :
    x.2.cardinality.toBinary64.lt y.2.cardinality.toBinary64 =
        decide (x.2.cardinality.toBinary64.rank < y.2.cardinality.toBinary64.rank) ∧
      x.2.cardinality.toBinary64.eq y.2.cardinality.toBinary64 =
        decide (x.2.cardinality.toBinary64.rank = y.2.cardinality.toBinary64.rank) :=
  Binary64.compare_eq_rank (Cardinality.nonneg_toBinary64 hx).ne_nan
    (Cardinality.nonneg_toBinary64 hy).ne_nan

theorem notBehind_iff (hx : x.2.cardinality ≠ .unknown) (hy : y.2.cardinality ≠ .unknown) :
    NotBehind x y ↔ rank x ≤ rank y := by
  obtain ⟨hlt, heq⟩ := compare_rank hx hy
  rw [NotBehind, rank, rank, Prod.Lex.toLex_le_toLex, Prod.Lex.toLex_le_toLex, hlt, heq,
    decide_eq_true_iff, decide_eq_true_iff]

/-- Estimates of sizes that are not unknown are preferred by their ranks. -/
theorem preferred_ranks :
    Sorting.Ranks (total fun x y : Nat × Estimate => preferred (x.1, x.2) (y.1, y.2)) rank
      fun x => x.2.cardinality ≠ .unknown := by
  intro x y hx hy
  obtain ⟨hlt, heq⟩ := compare_rank hx hy
  refine congrArg Except.ok ?_
  have hsame : x.2.cardinality.same y.2.cardinality =
      decide (x.2.cardinality.toBinary64.rank = y.2.cardinality.toBinary64.rank) := by
    rw [Cardinality.same, heq, beq_false_of_ne hx, Bool.false_and, Bool.false_or]
  rw [rank, rank, Bool.eq_iff_iff, decide_eq_true_iff, Prod.Lex.toLex_lt_toLex,
    Prod.Lex.toLex_lt_toLex]
  simp only [preferred, hsame, hlt]
  by_cases h : x.2.cardinality.toBinary64.rank = y.2.cardinality.toBinary64.rank
  · simp [h]
  · simp [h]

end Estimate

namespace QueryGraph

variable {q : QueryGraph} {e : Estimator} {m : CostModel} {remaining asked rest rest' : List Nat}
  {b : Binding} {size : Cardinality} {bound : List Variable} {p : Plan} {s : Step}

/-! ## Choices -/

/-- No estimate of an atom is unknown, whatever is bound beside the constants. -/
def KnownEstimates (q : QueryGraph) (e : Estimator) : Prop :=
  ∀ vars i est, e.cheapest q (.ofParts q.constants vars) i = .ok est → est.cardinality ≠ .unknown

/-- An atom competes for being resolved if it has a bound variable, or if no other one has. -/
def Competes (q : QueryGraph) (bound : List Variable) (rest : List Nat) (i : Nat) : Prop :=
  i ∈ rest ∧ (q.Touches bound i ∨ ∀ j ∈ rest, ¬q.Touches bound j)

/-- A step is the greedy choice among the atoms that are left, where some variables are bound beside
the constants. It carries the estimates of its atom, and it is a lookup if the bound attributes are
those of an index key. -/
structure Chooses (q : QueryGraph) (e : Estimator) (bound : List Variable) (rest : List Nat)
    (s : Step) : Prop where
  competes : q.Competes bound rest s.atom
  estimate : e.cheapest q (.ofParts q.constants bound) s.atom = .ok s.estimate
  least : ∀ i, q.Competes bound rest i → ∃ est,
    e.cheapest q (.ofParts q.constants bound) i = .ok est ∧
    Estimate.NotBehind (s.atom, s.estimate) (i, est)
  fanout : e.output q (.ofParts q.constants bound) s.atom = .ok s.fanout
  kind : ∃ a, q.atoms[s.atom]? = some a ∧ (s.kind = .lookup ↔
    a.attributes (a.boundVariables (.ofParts q.constants bound)) ≠ [] ∧
      ∃ key ∈ a.relation.indexKeys,
      ∀ name, name ∈ key ↔ name ∈ a.attributes (a.boundVariables (.ofParts q.constants bound)))

/-- Relations that report sizes that are known or unbounded have no unknown estimates. -/
theorem Reports.knownEstimates (H : q.Reports) : q.KnownEstimates .standard := by
  intro vars i est hest
  have hi : i ∈ q.indices := by
    obtain ⟨a, ha, -⟩ := Checked.bind_eq_ok.1 hest
    obtain ⟨hlt, -⟩ := List.getElem?_eq_some_iff.1 (atom_eq_ok.1 ha)
    exact mem_indices.2 hlt
  obtain ⟨est', hest', hne, -⟩ := exists_cheapest (b := .ofParts q.constants vars) H rfl hi
  cases hest.symm.trans hest'
  exact hne

theorem competes_congr (h : ∀ i, i ∈ rest ↔ i ∈ rest') (i : Nat) :
    q.Competes bound rest i ↔ q.Competes bound rest' i := by
  simp only [Competes, h]

/-- Only which atoms are left matters. -/
theorem Chooses.congr (h : ∀ i, i ∈ rest ↔ i ∈ rest') (H : q.Chooses e bound rest s) :
    q.Chooses e bound rest' s where
  competes := (competes_congr h _).1 H.competes
  estimate := H.estimate
  least i hi := H.least i ((competes_congr h i).2 hi)
  fanout := H.fanout
  kind := H.kind

/-! ## Steps -/

/-- Each atom that may be resolved next is estimated. -/
theorem exists_candidate {atoms : List Nat} {all : List (Nat × Estimate)} {i : Nat}
    (h : q.candidates e b atoms = .ok all) (hi : i ∈ atoms) : ∃ est, (i, est) ∈ all := by
  obtain ⟨found, hall, h⟩ := Checked.bind_eq_ok.1 h
  obtain ⟨⟨⟩, -, h⟩ := Checked.bind_eq_ok.1 h
  cases h
  obtain ⟨c, hc, h⟩ := exists_of_forall₂ (Checked.mapM_eq_ok.1 hall).flip hi
  obtain ⟨est, -, h⟩ := Checked.bind_eq_ok.1 h
  cases h
  exact ⟨est, hc⟩

theorem isBound_ofParts (hc : ∀ v ∈ q.constants.vars, v ∈ bound) (v : Variable) :
    v ∈ bound ↔ (Binding.ofParts q.constants bound).isBound v = true := by
  rw [Binding.isBound_ofParts]
  exact ⟨.inr, fun h => h.elim (hc v) id⟩

/-- The planner resolves the best of the atoms that compete. -/
theorem chooses_of_step {all : List (Nat × Estimate)} {chosen : Nat × Estimate} {atom : Atom}
    {fanout : Cardinality} (he : q.KnownEstimates e) (hb : b = .ofParts q.constants bound)
    (hc : ∀ v ∈ q.constants.vars, v ∈ bound)
    (candidates : q.candidates e b (q.frontier b remaining) = .ok all)
    (best : ∃ first others, all = first :: others ∧ best first others = .ok chosen)
    (found : q.atoms[chosen.1]? = some atom) (output : e.output q b chosen.1 = .ok fanout)
    (resolved : q.resolve m b all chosen size fanout = .ok s) : q.Chooses e bound remaining s := by
  subst hb
  have hfrontier : ∀ i, i ∈ q.frontier (.ofParts q.constants bound) remaining ↔
      q.Competes bound remaining i := fun _ => mem_frontier (isBound_ofParts hc)
  obtain ⟨first, others, rfl, hbest⟩ := best
  obtain ⟨hatom, -, -, hfanout⟩ := resolve_spec found resolved
  obtain ⟨hestimate, hkind⟩ := resolve_kind found resolved
  obtain ⟨hmem, hcheapest⟩ := mem_candidates candidates (best_mem hbest)
  have hknown : ∀ c ∈ first :: others, c.2.cardinality ≠ .unknown := fun c hc =>
    he _ _ _ (mem_candidates candidates hc).2
  refine ⟨?_, ?_, fun i hi => ?_, ?_, ⟨atom, hatom ▸ found, ?_⟩⟩
  · rw [hatom]
    exact (hfrontier _).1 hmem
  · rw [hatom, hestimate]
    exact hcheapest
  · obtain ⟨est, hest⟩ := exists_candidate candidates ((hfrontier i).2 hi)
    have hleast := Sorting.least_spec Estimate.preferred_ranks hknown hbest (i, est) hest
    rw [← Estimate.notBehind_iff (hknown _ (best_mem hbest)) (hknown _ hest)] at hleast
    refine ⟨est, (mem_candidates candidates hest).2, ?_⟩
    rw [hatom, hestimate]
    exact hleast
  · rw [hatom, hfanout]
    exact output
  · rw [hkind, Relation.indexMatch_exact]

/-! ## Plans -/

/-- All steps of a plan that is entered with some bound variables are greedy choices. -/
def IsGreedy (q : QueryGraph) (e : Estimator) (asked : List Nat) (bound : List Variable)
    (p : Plan) : Prop :=
  ∀ asked' bound' n, Plan.HasNode q asked bound p asked' bound' n → ∀ k s, n.steps[k]? = some s →
    q.Chooses e (Plan.boundBy q bound' (n.stepAtoms.take k))
      (n.stepAtoms.drop k ++ n.branches.flatMap Plan.joinOrder) s

/-- Where a plan has branches only, the steps are those of the branches. -/
theorem IsGreedy.of_branches (hs : p.steps = []) (H : ∀ part ∈ p.branches, ∀ asked',
    q.IsGreedy e asked' bound part) : q.IsGreedy e asked bound p := by
  have hatoms : p.stepAtoms = [] := by rw [Plan.stepAtoms, hs, List.map_nil]
  intro asked' bound' n hnode k s hk
  cases hnode with
  | root =>
    rw [hs] at hk
    cases hk
  | branch hbranch hnode =>
    rw [hatoms, Plan.boundBy_nil] at hnode
    exact H _ hbranch _ _ _ _ hnode k s hk

/-- A greedy choice in front of a greedy plan for the remaining atoms. -/
theorem IsGreedy.after (hs : q.Chooses e bound (p.after s).joinOrder s)
    (H : ∀ asked', q.IsGreedy e asked' (Plan.boundBy q bound [s.atom]) p) :
    q.IsGreedy e asked bound (p.after s) := by
  intro asked' bound' n hnode k t hk
  cases hnode with
  | root =>
    cases k with
    | zero =>
      rw [Plan.steps_after] at hk
      cases hk
      rwa [List.take_zero, Plan.boundBy_nil, List.drop_zero, ← Plan.joinOrder_node]
    | succ k =>
      rw [Plan.steps_after, List.getElem?_cons_succ] at hk
      rw [Plan.stepAtoms_after, List.take_succ_cons, Plan.boundBy_cons, List.drop_succ_cons,
        Plan.branches_after]
      exact H [] _ _ _ (.root ..) k t hk
  | branch hbranch hnode =>
    rw [Plan.branches_after] at hbranch
    rw [Plan.stepAtoms_after, Plan.boundBy_cons, Plan.unresolved_cons] at hnode
    exact H _ _ _ _ (.branch hbranch hnode) k t hk

/-- Whatever is planned is greedy. -/
theorem Planned.isGreedy (H : q.Planned e m remaining b size p) (he : q.KnownEstimates e)
    (hn : remaining.Nodup) (hq : ∀ i ∈ remaining, i ∈ q.indices)
    (hb : b = .ofParts q.constants bound) (hc : ∀ v ∈ q.constants.vars, v ∈ bound) :
    q.IsGreedy e asked bound p := by
  induction H generalizing asked bound with
  | done b size => exact .of_branches rfl fun part hpart => (List.not_mem_nil hpart).elim
  | @split remaining b size classes parts p components several length_eq planned combined ih =>
    obtain ⟨branches, hperm, rfl⟩ := split_spec combined
    have D := divides_asked components hn hq (.refl _) (hb ▸ isBound_ofParts hc)
    refine .of_branches rfl fun part hpart asked' => ?_
    obtain ⟨comp, hz⟩ := exists_mem_zip length_eq (hperm.mem_iff.1 hpart)
    have hcomp := (List.of_mem_zip hz).1
    exact ih comp part hz (D.nodup hn hcomp) (fun i hi => hq i (D.subset hcomp i hi)) hb hc
  | @step remaining b size fanout classes all chosen atom s p nonempty components single candidates
      best found output resolved planned ih =>
    obtain ⟨hatom, -, -, -⟩ := resolve_spec found resolved
    have H' := Planned.step nonempty components single candidates best found output resolved
      planned
    have hperm := (H'.sound hn hq (.refl _) (hb ▸ isBound_ofParts hc)).structured.partition
    refine .after ?_ fun asked' => ?_
    · exact (chooses_of_step he hb hc candidates best found output resolved).congr fun i =>
        hperm.mem_iff.symm
    · refine ih (hn.filter _) (fun i hi => hq i (List.mem_of_mem_filter hi)) ?_
        fun v hv => Plan.mem_boundBy.2 (.inl (hc v hv))
      rw [hb, Binding.ofParts_bind, hatom, Plan.boundBy, List.flatMap_singleton,
        atomVariables_eq found]

/-- Each step of a plan, at any depth, is the greedy choice among the atoms that are left at its
node, as long as no estimate is unknown. -/
theorem planWith_greedy (he : q.KnownEstimates e) (h : q.planWith e m = .ok p) :
    ∀ asked bound n, Plan.HasNode q q.indices q.constants.vars p asked bound n →
      ∀ k s, n.steps[k]? = some s → q.Chooses e (Plan.boundBy q bound (n.stepAtoms.take k))
        (n.stepAtoms.drop k ++ n.branches.flatMap Plan.joinOrder) s := by
  have hb : Binding.ofConstants q.constants = .ofParts q.constants q.constants.vars :=
    Binding.ofParts_congr fun v hv => ⟨fun h => (List.not_mem_nil h).elim, fun h => (hv h).elim⟩
  have hgreedy : q.IsGreedy e q.indices q.constants.vars p :=
    (planned_of_planWith h).isGreedy he List.nodup_range (fun _ hi => hi) hb (fun _ hv => hv)
  exact hgreedy

/-- The first step of a plan is preferred to the second one, which has a bound variable only
then. -/
theorem plan_emptyQuery_greedy : Lines.emptyQuery.KnownEstimates .standard ∧
    ∃ p, Lines.emptyQuery.planWith .standard .unit = .ok p ∧ ∃ s t, p.steps = [s, t] ∧
      Lines.emptyQuery.Chooses .standard [] [1, 0] s ∧
      Lines.emptyQuery.Chooses .standard [.named "x"] [0] t := by
  have he : Lines.emptyQuery.KnownEstimates .standard := Lines.emptyQuery_reports.knownEstimates
  have hp : ∃ s t cut size, Lines.emptyQuery.planWith .standard .unit =
      .ok (.node [s, t] [] cut size) ∧ s.atom = 1 ∧ t.atom = 0 := ⟨_, _, _, _, rfl, rfl, rfl⟩
  obtain ⟨s, t, cut, size, hp, hs, ht⟩ := hp
  have hall := planWith_greedy he hp _ _ _ (.root _ _ _)
  have hfirst : Lines.emptyQuery.Chooses .standard [] [s.atom, t.atom] s := hall 0 s rfl
  have hsecond : Lines.emptyQuery.Chooses .standard (Plan.boundBy Lines.emptyQuery [] [s.atom])
    [t.atom] t := hall 1 t rfl
  rw [hs, ht] at hfirst
  rw [hs, ht] at hsecond
  exact ⟨he, _, hp, s, t, rfl, hfirst, hsecond⟩

end QueryGraph
end JoinOrder
