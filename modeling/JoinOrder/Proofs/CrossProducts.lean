import JoinOrder.Proofs.Structure

/-!
# Cross products

A step without bound variables combines each intermediate result with each tuple of an atom. The
planner only takes such a step where it has to: at the beginning of a component none of whose atoms
uses a constant. Once a component has begun, each atom that is left is linked to one that uses a
bound variable (`Anchored`), and this remains so through all steps and splits.
-/

namespace JoinOrder

/-- Where the keys of a list are distinct, those of a segment select that segment. -/
theorem filter_key_eq {α : Type} {key : α → Nat} {xs ys zs : List α} {c : List Nat}
    (hn : ((xs ++ (ys ++ zs)).map key).Nodup) (hc : ∀ j, j ∈ c ↔ j ∈ ys.map key) :
    (xs ++ (ys ++ zs)).filter (key · ∈ c) = ys := by
  rw [List.map_append, List.map_append, List.nodup_append', List.nodup_append'] at hn
  obtain ⟨-, ⟨-, -, hyz⟩, hx⟩ := hn
  have hxs : xs.filter (key · ∈ c) = [] := List.filter_eq_nil_iff.2 fun x hm hk =>
    hx (List.mem_map_of_mem hm) (List.mem_append_left _ ((hc _).1 (of_decide_eq_true hk)))
  have hys : ys.filter (key · ∈ c) = ys := List.filter_eq_self.2 fun y hm =>
    decide_eq_true ((hc _).2 (List.mem_map_of_mem hm))
  have hzs : zs.filter (key · ∈ c) = [] := List.filter_eq_nil_iff.2 fun z hm hk =>
    hyz ((hc _).1 (of_decide_eq_true hk)) (List.mem_map_of_mem hm)
  rw [List.filter_append, List.filter_append, hxs, hys, hzs, List.nil_append, List.append_nil]

namespace Plan

variable {q : QueryGraph} {asked asked' : List Nat} {bound bound' : List Variable} {p n : Plan}

/-- The steps that resolve some of the atoms, in their order. -/
def stepsIn (p : Plan) (atoms : List Nat) : List Step := p.allSteps.filter (·.atom ∈ atoms)

/-- Where a plan has branches only, the steps in the atoms of a branch are those of the branch. -/
theorem stepsIn_branch {part : Plan} {atoms : List Nat} (hn : p.joinOrder.Nodup) (hs : p.steps = [])
    (hpart : part ∈ p.branches) (ha : ∀ j, j ∈ atoms ↔ j ∈ part.joinOrder) :
    p.stepsIn atoms = part.allSteps := by
  obtain ⟨before, behind, hb⟩ := List.append_of_mem hpart
  rw [joinOrder, allSteps_node, hs, hb, List.nil_append, List.flatMap_append,
    List.flatMap_cons] at hn
  rw [stepsIn, allSteps_node, hs, hb, List.nil_append, List.flatMap_append, List.flatMap_cons]
  exact filter_key_eq hn ha

end Plan

namespace QueryGraph

/-- An atom uses a bound variable. -/
def Touches (q : QueryGraph) (bound : List Variable) (i : Nat) : Prop :=
  ∃ v ∈ q.atomVariables i, v ∈ bound

/-- Each atom is linked, by a chain of unbound variables, to one that uses a bound variable. -/
def Anchored (q : QueryGraph) (bound : List Variable) (asked : List Nat) : Prop :=
  ∀ i ∈ asked, ∃ j, Components.Reaches (q.linked bound) asked i j ∧ q.Touches bound j

variable {q : QueryGraph} {e : Estimator} {m : CostModel} {remaining asked c : List Nat}
  {b : Binding} {size : Cardinality} {bound : List Variable} {p : Plan} {i j : Nat}

/-! ## Anchored atoms -/

theorem Anchored.component (H : q.Anchored bound asked)
    (hc : Components.IsComponent (q.linked bound) asked c) : q.Anchored bound c := by
  intro i hi
  obtain ⟨j, hj, ht⟩ := H i (hc.subset i hi)
  exact ⟨j, hj.within hc hi, ht⟩

/-- Once an atom is resolved, the others are anchored if each was linked to that atom or to one that
uses a bound variable. -/
theorem anchored_step (hanchor : ∀ i' ∈ asked, ∃ j,
      Components.Reaches (q.linked bound) asked i' j ∧ (j = i ∨ q.Touches bound j)) :
    q.Anchored (Plan.boundBy q bound [i]) (asked.filter (· ≠ i)) := by
  have hbound : ∀ v, v ∈ Plan.boundBy q bound [i] ↔ v ∈ bound ∨ v ∈ q.atomVariables i := by
    simp [Plan.mem_boundBy]
  -- A chain ends early where it comes to the resolved atom or to a variable of it.
  have hchain : ∀ x j, Components.Reaches (q.linked bound) asked x j → (j = i ∨ q.Touches bound j) →
      x = i ∨ ∃ k, Components.Reaches (q.linked (Plan.boundBy q bound [i]))
        (asked.filter (· ≠ i)) x k ∧ q.Touches (Plan.boundBy q bound [i]) k := by
    intro x j hx hj
    induction hx using Relation.ReflTransGen.head_induction_on with
    | refl =>
      refine hj.imp_right ?_
      rintro ⟨v, hv, hb⟩
      exact ⟨_, .refl, v, hv, (hbound v).2 (.inl hb)⟩
    | @head x y hxy _ ih =>
      obtain ⟨hxa, hya, hl⟩ := hxy
      obtain ⟨-, v, hvx, hvy, hv⟩ := linked_iff.1 hl
      by_cases hxi : x = i
      · exact .inl hxi
      right
      by_cases hvi : v ∈ q.atomVariables i
      · exact ⟨x, .refl, v, hvx, (hbound v).2 (.inr hvi)⟩
      rcases ih with rfl | ⟨k, hk, ht⟩
      · exact (hvi hvy).elim
      have hyi : y ≠ i := fun h => hvi (h ▸ hvy)
      have hl' : q.linked (Plan.boundBy q bound [i]) x y = true :=
        linked_iff.2 ⟨(linked_iff.1 hl).1, v, hvx, hvy, fun h => ((hbound v).1 h).elim hv hvi⟩
      have hxa' : x ∈ asked.filter (· ≠ i) := List.mem_filter.2 ⟨hxa, by simpa⟩
      have hya' : y ∈ asked.filter (· ≠ i) := List.mem_filter.2 ⟨hya, by simpa⟩
      exact ⟨k, .head ⟨hxa', hya', hl'⟩ hk, ht⟩
  intro x hx
  obtain ⟨hxa, hxi⟩ := List.mem_filter.1 hx
  obtain ⟨j, hj, hend⟩ := hanchor x hxa
  exact (hchain x j hj hend).resolve_left (by simpa using hxi)

/-! ## Steps of anchored atoms -/

/-- The frontier consists of the atoms that use a bound variable, or of all atoms if none does. -/
theorem mem_frontier (hb : ∀ v, v ∈ bound ↔ b.isBound v = true) : i ∈ q.frontier b remaining ↔
    i ∈ remaining ∧ (q.Touches bound i ∨ ∀ j ∈ remaining, ¬q.Touches bound j) := by
  have htouch : ∀ k, q.touched b k = true ↔ q.Touches bound k := by
    simp [touched_iff, Touches, hb]
  unfold frontier
  split
  · next hnone =>
    rw [List.filter_eq_nil_iff] at hnone
    simp only [htouch] at hnone
    exact ⟨fun hi => ⟨hi, .inr hnone⟩, And.left⟩
  · next hne =>
    simp only [List.mem_filter, htouch]
    refine and_congr_right fun _ => ⟨.inl, fun h => h.resolve_right fun hall => hne ?_⟩
    rw [List.filter_eq_nil_iff]
    simpa only [htouch] using hall

/-- An atom that uses a bound variable is preferred to all that use none. -/
theorem touches_of_mem_frontier (hb : ∀ v, v ∈ bound ↔ b.isBound v = true) (hj : j ∈ remaining)
    (ht : q.Touches bound j) (hi : i ∈ q.frontier b remaining) : q.Touches bound i :=
  ((mem_frontier hb).1 hi).2.resolve_right fun hnone => hnone j hj ht

/-- What the planner resolves next, and whether it is marked with bound variables. -/
theorem resolved_touches {all : List (Nat × Estimate)} {chosen : Nat × Estimate} {atom : Atom}
    {s : Step} {fanout : Cardinality} (hb : ∀ v, v ∈ bound ↔ b.isBound v = true)
    (found : q.atoms[chosen.1]? = some atom)
    (resolved : q.resolve m b all chosen size fanout = .ok s) :
    s.boundVariables ≠ [] ↔ q.Touches bound chosen.1 := by
  obtain ⟨-, hbound, -, -⟩ := resolve_spec found resolved
  rw [ne_eq, List.eq_nil_iff_forall_not_mem, not_forall_not, Touches, atomVariables_eq found]
  refine exists_congr fun v => ?_
  rw [hbound, Variable.mem_sorted, Atom.boundVariables, List.mem_filter, hb]

/-- All steps for anchored atoms have bound variables. -/
theorem Planned.touches (H : q.Planned e m remaining b size p) (hn : remaining.Nodup)
    (hq : ∀ i ∈ remaining, i ∈ q.indices) (hb : ∀ v, v ∈ bound ↔ b.isBound v = true)
    (ha : q.Anchored bound remaining) : ∀ s ∈ p.allSteps, s.boundVariables ≠ [] := by
  induction H generalizing bound with
  | done => exact fun s hs => (List.not_mem_nil hs).elim
  | @split remaining b size classes parts p components several length_eq planned combined ih =>
    obtain ⟨branches, hperm, rfl⟩ := split_spec combined
    have D := divides_asked components hn hq (.refl _) hb
    intro s hs
    rw [Plan.allSteps_node, Plan.steps, List.nil_append, List.mem_flatMap] at hs
    obtain ⟨part, hpart, hs⟩ := hs
    obtain ⟨comp, hz⟩ := exists_mem_zip length_eq (hperm.mem_iff.1 hpart)
    have hcomp := D.isComponent (linked_comm bound) (List.of_mem_zip hz).1
    exact ih comp part hz (D.nodup hn (List.of_mem_zip hz).1)
      (fun i hi => hq i (hcomp.subset i hi)) hb (ha.component hcomp) s hs
  | @step remaining b size fanout classes all chosen atom s p nonempty components single candidates
      best found output resolved planned ih =>
    obtain ⟨first, others, rfl, hbest⟩ := best
    have hfrontier := (mem_candidates candidates (best_mem hbest)).1
    obtain ⟨i, hi⟩ := List.exists_mem_of_ne_nil _ nonempty
    obtain ⟨j, hj, ht⟩ := ha i hi
    rw [Plan.allSteps_after, List.forall_mem_cons]
    constructor
    · exact (resolved_touches hb found resolved).2
        (touches_of_mem_frontier hb (hj.mem hi) ht hfrontier)
    · refine ih (hn.filter _) (fun i hi => hq i (List.mem_of_mem_filter hi)) (bound_step hb found)
        (anchored_step fun i hi => ?_)
      obtain ⟨j, hj, ht⟩ := ha i hi
      exact ⟨j, hj, .inr ht⟩

/-- Of the steps for connected atoms only the first has no bound variables, and only where no atom
uses any. -/
theorem Planned.connected (H : q.Planned e m remaining b size p) (hn : remaining.Nodup)
    (hq : ∀ i ∈ remaining, i ∈ q.indices) (hb : ∀ v, v ∈ bound ↔ b.isBound v = true)
    (hne : remaining ≠ []) (hc : Components.Connected (q.linked bound) remaining) :
    ∃ first rest, p.allSteps = first :: rest ∧ (∀ s ∈ rest, s.boundVariables ≠ []) ∧
      (first.boundVariables = [] ↔ ∀ i ∈ remaining, ¬q.Touches bound i) := by
  cases H with
  | done => exact (hne rfl).elim
  | split components several =>
    have D := divides_asked components hn hq (.refl _) hb
    exact (Nat.not_le_of_lt several (D.length_le_one (linked_comm bound) hn hc)).elim
  | @step _ _ _ fanout classes all chosen atom s p nonempty components single candidates best found
      output resolved planned =>
    obtain ⟨first, others, rfl, hbest⟩ := best
    have hfrontier := (mem_candidates candidates (best_mem hbest)).1
    have hmem := frontier_subset _ hfrontier
    refine ⟨s, p.allSteps, Plan.allSteps_after s, ?_, ?_⟩
    · exact planned.touches (hn.filter _) (fun i hi => hq i (List.mem_of_mem_filter hi))
        (bound_step hb found) (anchored_step fun i hi => ⟨chosen.1, hc i hi _ hmem, .inl rfl⟩)
    · rw [← not_iff_not, ← ne_eq, resolved_touches hb found resolved]
      constructor
      · exact fun ht hall => hall _ hmem ht
      · intro hsome
        simp only [not_forall, not_not] at hsome
        obtain ⟨j, hj, ht⟩ := hsome
        exact touches_of_mem_frontier hb hj ht hfrontier

/-- Of the steps in a component only the first has no bound variables, and only where no atom of the
component uses any. -/
theorem Planned.component (H : q.Planned e m remaining b size p) (hn : remaining.Nodup)
    (hq : ∀ i ∈ remaining, i ∈ q.indices) (hb : ∀ v, v ∈ bound ↔ b.isBound v = true)
    (hc : Components.IsComponent (q.linked bound) remaining c) :
    ∃ first rest, p.stepsIn c = first :: rest ∧ (∀ s ∈ rest, s.boundVariables ≠ []) ∧
      (first.boundVariables = [] ↔ ∀ i ∈ c, ¬q.Touches bound i) := by
  obtain ⟨classes, -, hclasses, -⟩ :=
    components_spec b.boundVariables fun i hi => mem_indices.1 (hq i hi)
  have D := divides_asked hclasses hn hq (.refl _) hb
  obtain ⟨x, hx⟩ := List.exists_mem_of_ne_nil c hc.nonempty
  have hperm := (H.sound hn hq (.refl _) hb).structured.partition
  by_cases hsingle : classes.length ≤ 1
  · -- The component consists of all atoms.
    have hconn := D.connected_of_length hsingle
    have hall : ∀ y, y ∈ c ↔ y ∈ remaining := fun y =>
      ⟨hc.subset y, fun hy => hc.mem_of_reaches hx (hconn x (hc.subset x hx) y hy)⟩
    have hin : p.stepsIn c = p.allSteps := List.filter_eq_self.2 fun s hs =>
      decide_eq_true ((hall _).2 (hperm.mem_iff.1 (List.mem_map_of_mem hs)))
    simp only [hin, hall]
    exact H.connected hn hq hb (List.ne_nil_of_mem (hc.subset x hx)) hconn
  cases H with
  | done => cases hc.subset x hx
  | step nonempty components single =>
    cases hclasses.symm.trans components
    exact (hsingle single).elim
  | @split _ _ _ classes parts _ components several length_eq planned combined =>
    cases hclasses.symm.trans components
    -- The component is that of a branch, whose steps are the only ones in it.
    obtain ⟨branches, hbranches, rfl⟩ := split_spec combined
    have hxp := hperm.mem_iff.2 (hc.subset x hx)
    rw [Plan.joinOrder_node, List.mem_append, List.mem_flatMap] at hxp
    obtain ⟨part, hpart, hxpart⟩ := hxp.resolve_left List.not_mem_nil
    obtain ⟨comp, hz⟩ := exists_mem_zip length_eq (hbranches.mem_iff.1 hpart)
    have hcomp := D.isComponent (linked_comm bound) (List.of_mem_zip hz).1
    have hnc := D.nodup hn (List.of_mem_zip hz).1
    have hqc : ∀ i ∈ comp, i ∈ q.indices := fun i hi => hq i (hcomp.subset i hi)
    have horder := ((planned comp part hz).sound hnc hqc (.refl _) hb).structured.partition
    have hmem := hc.mem_iff hcomp hx (horder.mem_iff.1 hxpart)
    have hin := Plan.stepsIn_branch (hperm.nodup_iff.2 hn) rfl hpart fun j =>
      (hmem j).trans horder.mem_iff.symm
    simp only [hin, hmem]
    exact (planned comp part hz).connected hnc hqc hb hcomp.nonempty hcomp.connected

/-- The planner takes no cross product that it can avoid, whatever the estimates and the costs are.
Of the steps in a component of the query only the first may have no bound variables, and it has none
exactly if no atom of the component uses a constant. Before each later step some atom that is left
at its node uses a bound variable. -/
theorem planWith_touches (h : q.planWith e m = .ok p)
    (hc : Components.IsComponent (q.linked q.constants.vars) q.indices c) :
    ∃ first rest, p.stepsIn c = first :: rest ∧ (∀ s ∈ rest, s.boundVariables ≠ []) ∧
      (first.boundVariables = [] ↔ ∀ i ∈ c, ¬q.Touches q.constants.vars i) ∧
      ∀ asked bound n, Plan.HasNode q q.indices q.constants.vars p asked bound n →
        ∀ k s, n.steps[k]? = some s → s.atom ∈ c → s ≠ first →
          ∃ i ∈ Plan.unresolved asked (n.stepAtoms.take k),
            q.Touches (Plan.boundBy q bound (n.stepAtoms.take k)) i := by
  obtain ⟨first, rest, hsteps, hrest, hfirst⟩ := (planned_of_planWith h).component List.nodup_range
    (fun _ hi => hi) (fun _ => Binding.isBound_ofConstants.symm) hc
  refine ⟨first, rest, hsteps, hrest, hfirst, fun asked bound n hn k s hs hsc hne => ?_⟩
  have H := (planWith_structured h).2 asked bound n hn
  refine ⟨s.atom, H.atom_unresolved (hn.nodup List.nodup_range) hs, ?_⟩
  have hmem : s ∈ p.stepsIn c := List.mem_filter.2
    ⟨hn.steps_subset s (List.mem_of_getElem? hs), decide_eq_true hsc⟩
  rw [hsteps] at hmem
  have hbound := hrest s ((List.mem_cons.1 hmem).resolve_left hne)
  obtain ⟨v, hv⟩ := List.exists_mem_of_ne_nil _ hbound
  rw [H.marks k s hs v, List.map_take] at hv
  exact ⟨v, hv⟩

/-- An edge between two nodes is one component, of which only the first step has no bound
variables. -/
theorem planWith_edgeQuery_touches : ∃ p, edgeQuery.planWith .standard .unit = .ok p ∧
    Components.IsComponent (edgeQuery.linked edgeQuery.constants.vars) edgeQuery.indices [0, 1, 2] ∧
    ∃ first second third, p.stepsIn [0, 1, 2] = [first, second, third] ∧ first.boundVariables = [] ∧
      second.boundVariables ≠ [] ∧ third.boundVariables ≠ [] := by
  have hp : ∃ p, edgeQuery.planWith .standard .unit = .ok p ∧ (p.stepsIn [0, 1, 2]).length = 3 :=
    ⟨_, rfl, rfl⟩
  obtain ⟨p, hp, hlength⟩ := hp
  have hcomponents : edgeQuery.components edgeQuery.indices edgeQuery.constants.vars =
      .ok [[0, 1, 2]] := rfl
  have hc : Components.IsComponent (edgeQuery.linked edgeQuery.constants.vars) edgeQuery.indices
      [0, 1, 2] :=
    (divides_components hcomponents (by decide)).isComponent (linked_comm _) List.mem_cons_self
  obtain ⟨first, rest, hsteps, hrest, hfirst, -⟩ := planWith_touches hp hc
  rw [hsteps, List.length_cons] at hlength
  obtain ⟨second, third, rfl⟩ := List.length_eq_two.1 (Nat.succ.inj hlength)
  refine ⟨p, hp, hc, first, second, third, hsteps, hfirst.2 ?_, ?_⟩
  · rintro i - ⟨v, -, hv⟩
    cases hv
  · exact ⟨hrest _ List.mem_cons_self, hrest _ (List.mem_cons_of_mem _ List.mem_cons_self)⟩

end QueryGraph
end JoinOrder
