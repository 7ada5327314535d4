import JoinOrder.Proofs.Connectivity
import JoinOrder.Proofs.Nodes
import JoinOrder.Proofs.Planning

/-!
# The structure of planned queries

Every node of a plan resolves the atoms that it is asked for, as long as these are connected by
unbound variables. It is then done, or its branches take the components that the rest falls
apart into (`Planned.structured`).
-/

namespace JoinOrder
namespace Plan

variable {q : QueryGraph} {asked asked' order : List Nat} {bound bound' : List Variable}
  {p n : Plan} {i : Nat}

/-- The branches of a node take the connected components of what its steps leave open. -/
structure Splits (q : QueryGraph) (asked : List Nat) (bound : List Variable) (n : Plan) : Prop where
  several : 2 ≤ n.branches.length
  components : ∀ c ∈ n.branches, Components.IsComponent (q.linked (boundBy q bound n.stepAtoms))
    (unresolved asked n.stepAtoms) c.joinOrder
  covers : ∀ i ∈ unresolved asked n.stepAtoms, ∃ c ∈ n.branches, i ∈ c.joinOrder
  begins : ∀ c ∈ n.branches, c.steps ≠ []
  cut : ∀ v, v ∈ n.cut ↔ v ∈ boundBy q bound n.stepAtoms
  apart : n.branches.Pairwise fun b c => ∀ i ∈ b.joinOrder, ∀ j ∈ c.joinOrder, ∀ v,
    v ∈ q.atomVariables i → v ∈ q.atomVariables j → v ∈ n.cut

/-- What holds at a node that is asked for some atoms and entered with some bound variables. -/
structure Structured (q : QueryGraph) (asked : List Nat) (bound : List Variable) (n : Plan) :
    Prop where
  partition : n.joinOrder.Perm asked
  marks : MarksBound q bound n.steps
  connected : ∀ k < n.steps.length, unresolved asked (n.stepAtoms.take k) ≠ [] ∧
    Components.Connected (q.linked (boundBy q bound (n.stepAtoms.take k)))
      (unresolved asked (n.stepAtoms.take k))
  complete : (n.branches = [] ∧ unresolved asked n.stepAtoms = []) ∨ Splits q asked bound n

/-- All nodes of a plan are structured. -/
def Sound (q : QueryGraph) (asked : List Nat) (bound : List Variable) (p : Plan) : Prop :=
  ∀ asked' bound' n, HasNode q asked bound p asked' bound' n → Structured q asked' bound' n

/-- A plan is sound if its root is structured and its branches are sound. -/
theorem sound_iff : Sound q asked bound p ↔ Structured q asked bound p ∧
    ∀ c ∈ p.branches, Sound q ((unresolved asked p.stepAtoms).filter (· ∈ c.joinOrder))
      (boundBy q bound p.stepAtoms) c := by
  constructor
  · exact fun H => ⟨H _ _ _ (.root ..), fun c hc _ _ _ h => H _ _ _ (.branch hc h)⟩
  · rintro ⟨H, Hc⟩ _ _ _ h
    cases h with
    | root => exact H
    | branch hc h => exact Hc _ hc _ _ _ h

theorem Sound.structured (H : Sound q asked bound p) : Structured q asked bound p :=
  (sound_iff.1 H).1

/-! ## Steps -/

@[simp] theorem steps_after (s : Step) : (p.after s).steps = s :: p.steps := by
  cases p
  rfl

@[simp] theorem branches_after (s : Step) : (p.after s).branches = p.branches := by
  cases p
  rfl

@[simp] theorem cut_after (s : Step) : (p.after s).cut = p.cut := by
  cases p
  rfl

@[simp] theorem stepAtoms_after (s : Step) : (p.after s).stepAtoms = s.atom :: p.stepAtoms := by
  rw [stepAtoms, steps_after, List.map_cons, stepAtoms]

@[simp] theorem joinOrder_after (s : Step) : (p.after s).joinOrder = s.atom :: p.joinOrder := by
  rw [joinOrder_node, joinOrder_node p, stepAtoms_after, branches_after, List.cons_append]

@[simp] theorem allSteps_after (s : Step) : (p.after s).allSteps = s :: p.allSteps := by
  rw [allSteps_node, allSteps_node p, steps_after, branches_after, List.cons_append]

@[simp] theorem unresolved_nil : unresolved asked [] = asked := by
  simp [unresolved]

@[simp] theorem boundBy_nil : boundBy q bound [] = bound := by
  simp [boundBy]

theorem cons_filter_perm (hn : asked.Nodup) (hi : i ∈ asked) :
    (i :: asked.filter (· ≠ i)).Perm asked := by
  refine (List.perm_ext_iff_of_nodup (List.nodup_cons.2 ⟨by simp, hn.filter _⟩) hn).2 fun j => ?_
  rw [List.mem_cons, List.mem_filter, decide_eq_true_iff]
  by_cases h : j = i
  · simp [h, hi]
  · simp [h]

theorem unresolved_cons :
    unresolved asked (i :: order) = unresolved (asked.filter (· ≠ i)) order := by
  simp only [unresolved, List.filter_filter, List.mem_cons, not_or, Bool.decide_and]
  exact List.filter_congr fun _ _ => by simp [Bool.and_comm]

theorem sound_done {size : Cardinality} : Sound q [] bound (.node [] [] [] size) := by
  refine sound_iff.2 ⟨⟨?_, ?_, fun k hk => (Nat.not_lt_zero k hk).elim, .inl ⟨rfl, rfl⟩⟩,
    fun c hc => (List.not_mem_nil hc).elim⟩
  · rw [joinOrder_node]
    exact .refl _
  · intro k s hk
    simp [steps] at hk

/-- A sound plan after a step that is marked with what is bound is sound again, if the atoms were
connected before the step. -/
theorem Sound.after {s : Step} (hn : asked.Nodup) (hi : s.atom ∈ asked)
    (hm : ∀ v, v ∈ s.boundVariables ↔ v ∈ q.atomVariables s.atom ∧ v ∈ bound)
    (hc : Components.Connected (q.linked bound) asked)
    (H : Sound q (asked.filter (· ≠ s.atom)) (boundBy q bound [s.atom]) p) :
    Sound q asked bound (p.after s) := by
  obtain ⟨H, Hb⟩ := sound_iff.1 H
  refine sound_iff.2 ⟨⟨?_, ?_, fun k hk => ?_, ?_⟩, fun c hc' => ?_⟩
  · rw [joinOrder_after]
    exact (H.partition.cons _).trans (cons_filter_perm hn hi)
  · rw [steps_after, marksBound_cons]
    exact ⟨hm, H.marks⟩
  · cases k with
    | zero =>
      rw [List.take_zero, unresolved_nil, boundBy_nil]
      exact ⟨List.ne_nil_of_mem hi, hc⟩
    | succ k =>
      rw [stepAtoms_after, List.take_succ_cons, unresolved_cons, boundBy_cons]
      exact H.connected k (by simpa using hk)
  · refine H.complete.imp ?_ fun Hs => ?_
    · rw [branches_after, stepAtoms_after, unresolved_cons]
      exact id
    · have hb : boundBy q bound (p.after s).stepAtoms =
          boundBy q (boundBy q bound [s.atom]) p.stepAtoms := by
        rw [stepAtoms_after, boundBy_cons]
      have hu : unresolved asked (p.after s).stepAtoms =
          unresolved (asked.filter (· ≠ s.atom)) p.stepAtoms := by
        rw [stepAtoms_after, unresolved_cons]
      constructor <;> simp only [branches_after, cut_after, hb, hu]
      · exact Hs.several
      · exact Hs.components
      · exact Hs.covers
      · exact Hs.begins
      · exact Hs.cut
      · exact Hs.apart
  · rw [branches_after] at hc'
    rw [stepAtoms_after, unresolved_cons, boundBy_cons]
    exact Hb c hc'

/-! ## Splits -/

/-- Two branches do not share atoms. -/
theorem Structured.branches_disjoint (H : Structured q asked bound n) (hn : asked.Nodup) :
    n.branches.Pairwise fun b c => b.joinOrder.Disjoint c.joinOrder := by
  have hn' := H.partition.nodup_iff.2 hn
  rw [joinOrder_node, List.nodup_append] at hn'
  exact (List.nodup_flatMap.1 hn'.2.1).2

/-- What a step resolves has been left open by the steps before it. -/
theorem Structured.atom_unresolved {k : Nat} {s : Step} (H : Structured q asked bound n)
    (hn : asked.Nodup) (hs : n.steps[k]? = some s) :
    s.atom ∈ unresolved asked (n.stepAtoms.take k) := by
  have hnodup := H.partition.nodup_iff.2 hn
  have hatom : n.stepAtoms[k]? = some s.atom := by rw [stepAtoms, List.getElem?_map, hs]; rfl
  obtain ⟨hk, hget⟩ := List.getElem?_eq_some_iff.1 hatom
  rw [joinOrder_node, List.nodup_append', ← List.take_append_drop k n.stepAtoms,
    List.drop_eq_getElem_cons hk, hget, List.nodup_append'] at hnodup
  refine mem_unresolved.2 ⟨H.partition.mem_iff.1 ?_, fun hmem => ?_⟩
  · rw [joinOrder_node]
    exact List.mem_append_left _ (List.mem_of_getElem? hatom)
  · exact hnodup.1.2.2 hmem List.mem_cons_self

/-- A plan for connected atoms begins with a step. -/
theorem Structured.steps_ne_nil (H : Structured q asked bound n) (hn : asked.Nodup)
    (hne : asked ≠ []) (hc : Components.Connected (q.linked bound) asked) : n.steps ≠ [] := by
  intro hs
  have hso : n.stepAtoms = [] := by rw [stepAtoms, hs, List.map_nil]
  rcases H.complete with ⟨-, hu⟩ | Hs
  · rw [hso, unresolved_nil] at hu
    exact hne hu
  · have hcomp := Hs.components
    simp only [hso, unresolved_nil, boundBy_nil] at hcomp
    have hdis := H.branches_disjoint hn
    have htwo := Hs.several
    rcases hb : n.branches with _ | ⟨c, _ | ⟨d, rest⟩⟩
    · simp [hb] at htwo
    · simp [hb] at htwo
    · rw [hb] at hcomp hdis
      obtain ⟨x, hx⟩ := List.exists_mem_of_ne_nil _ (hcomp c (by simp)).nonempty
      obtain ⟨y, hy⟩ := List.exists_mem_of_ne_nil _ (hcomp d (by simp)).nonempty
      -- A chain of links from one branch to the other would stay in the first.
      have hyc := (hcomp c (by simp)).mem_of_reaches hx
        (hc x ((hcomp c (by simp)).subset x hx) y ((hcomp d (by simp)).subset y hy))
      exact (List.pairwise_cons.1 hdis).1 d (by simp) hyc hy

/-- Where the atoms fall apart, a plan without steps whose branches are sound plans of the
components is sound. -/
theorem Sound.of_branches (hn : asked.Nodup) (hs : p.steps = []) (htwo : 2 ≤ p.branches.length)
    (hcut : ∀ v, v ∈ p.cut ↔ v ∈ bound)
    (D : Components.Divides (q.linked bound) asked (p.branches.map joinOrder))
    (H : ∀ c ∈ p.branches, ∀ asked', asked'.Perm c.joinOrder → Sound q asked' bound c) :
    Sound q asked bound p := by
  have hatoms : p.stepAtoms = [] := by rw [stepAtoms, hs, List.map_nil]
  have hflat := List.nodup_flatten.1 (D.perm.nodup_iff.2 hn)
  have hmem : ∀ c ∈ p.branches, c.joinOrder ∈ p.branches.map joinOrder := fun c hc =>
    List.mem_map_of_mem hc
  have hsplit : Splits q asked bound p := by
    refine ⟨htwo, ?_, ?_, ?_, ?_, ?_⟩
    · rw [hatoms, unresolved_nil, boundBy_nil]
      exact fun c hc => D.isComponent (QueryGraph.linked_comm bound) (hmem c hc)
    · rw [hatoms, unresolved_nil]
      intro i hi
      obtain ⟨order, ho, hi⟩ := List.mem_flatten.1 (D.perm.mem_iff.2 hi)
      obtain ⟨c, hc, rfl⟩ := List.mem_map.1 ho
      exact ⟨c, hc, hi⟩
    · intro c hc
      exact (H c hc _ (.refl _)).structured.steps_ne_nil (hflat.1 _ (hmem c hc))
        (D.nonempty _ (hmem c hc)) (D.connected _ (hmem c hc))
    · rw [hatoms, boundBy_nil]
      exact hcut
    · refine (List.pairwise_map.1 (D.apart.and hflat.2)).imp fun hcd i hi j hj v hvi hvj => ?_
      have hij : i ≠ j := fun h => hcd.2 hi (h ▸ hj)
      by_contra hv
      have hl := QueryGraph.linked_iff.2 ⟨hij, v, hvi, hvj, mt (hcut v).2 hv⟩
      rw [hcd.1 i hi j hj] at hl
      cases hl
  refine sound_iff.2 ⟨⟨?_, ?_, ?_, .inr hsplit⟩, fun c hc => ?_⟩
  · rw [joinOrder_node, hatoms, List.nil_append, List.flatMap_def]
    exact D.perm
  · intro k s hk
    simp [hs] at hk
  · intro k hk
    simp [hs] at hk
  · rw [hatoms, unresolved_nil, boundBy_nil]
    refine H c hc _ ((List.perm_ext_iff_of_nodup (hn.filter _) (hflat.1 _ (hmem c hc))).2
      fun i => ?_)
    rw [List.mem_filter, decide_eq_true_iff]
    exact ⟨And.right, fun hi => ⟨D.subset (hmem c hc) i hi, hi⟩⟩

end Plan

namespace QueryGraph

variable {q : QueryGraph} {e : Estimator} {m : CostModel} {remaining asked : List Nat}
  {b : Binding} {size : Cardinality} {bound : List Variable} {p : Plan} {i : Nat}

/-- The atoms that an atom set is asked for divide into its components. -/
theorem divides_asked {classes : List (List Nat)}
    (hc : q.components remaining b.boundVariables = .ok classes) (hn : asked.Nodup)
    (hq : ∀ i ∈ asked, i ∈ q.indices) (hp : asked.Perm remaining)
    (hb : ∀ v, v ∈ bound ↔ b.isBound v = true) :
    Components.Divides (q.linked bound) asked classes := by
  have D := divides_components hc fun i hi => mem_indices.1 (hq i (hp.mem_iff.2 hi))
  rw [linked_congr fun v => Binding.mem_boundVariables.trans (hb v).symm] at D
  refine { D with perm := D.perm.trans ?_ }
  refine (List.perm_ext_iff_of_nodup (List.nodup_range.filter _) hn).2 fun i => ?_
  rw [List.mem_filter, decide_eq_true_iff, hp.mem_iff]
  exact ⟨And.right, fun hi => ⟨hq i (hp.mem_iff.2 hi), hi⟩⟩

/-- Resolving an atom binds its variables. -/
theorem bound_step {atom : Atom} (hb : ∀ v, v ∈ bound ↔ b.isBound v = true)
    (found : q.atoms[i]? = some atom) (v : Variable) :
    v ∈ Plan.boundBy q bound [i] ↔ (b.bind atom.vars).isBound v = true := by
  rw [Binding.isBound_bind, ← hb, Plan.mem_boundBy]
  simp [atomVariables_eq found]

/-- Whatever the estimates are, a plan is sound. -/
theorem Planned.sound (H : q.Planned e m remaining b size p) (hn : asked.Nodup)
    (hq : ∀ i ∈ asked, i ∈ q.indices) (hp : asked.Perm remaining)
    (hb : ∀ v, v ∈ bound ↔ b.isBound v = true) : Plan.Sound q asked bound p := by
  induction H generalizing asked bound with
  | done b size =>
    cases hp.eq_nil
    exact Plan.sound_done
  | @split remaining b size classes parts p components several length_eq planned combined ih =>
    obtain ⟨branches, hperm, rfl⟩ := split_spec combined
    have D := divides_asked components hn hq hp hb
    have hsound : ∀ comp part, (comp, part) ∈ classes.zip parts →
        ∀ asked', asked'.Perm comp → Plan.Sound q asked' bound part := by
      intro comp part hz asked' hp'
      have hcomp := (List.of_mem_zip hz).1
      exact ih comp part hz (hp'.nodup_iff.2 (D.nodup hn hcomp))
        (fun i hi => hq i (D.subset hcomp i (hp'.mem_iff.1 hi))) hp' hb
    have horder : ∀ comp part, (comp, part) ∈ classes.zip parts →
        part.joinOrder.Perm comp := fun comp part hz =>
      (hsound comp part hz _ (.refl _)).structured.partition
    refine .of_branches hn rfl (hperm.length_eq ▸ length_eq ▸ several)
      (fun v => Binding.mem_boundVariables.trans (hb v).symm) ?_ fun c hc asked' hp' => ?_
    · -- The branches resolve the components, so that their atoms divide the atoms just the same.
      refine .of_perm (linked_comm bound) (hperm.symm.map _) (D.congr ?_)
      rw [List.forall₂_map_right_iff, List.forall₂_iff_zip]
      exact ⟨length_eq, fun hz => (horder _ _ hz).symm⟩
    · obtain ⟨comp, hz⟩ := exists_mem_zip length_eq (hperm.mem_iff.1 hc)
      exact hsound comp c hz asked' (hp'.trans (horder comp c hz))
  | @step remaining b size fanout classes all chosen atom s p nonempty components single candidates
      best found output resolved planned ih =>
    obtain ⟨first, others, rfl, hbest⟩ := best
    obtain ⟨hatom, hbound, -, -⟩ := resolve_spec found resolved
    have hmem : chosen.1 ∈ remaining :=
      frontier_subset _ (mem_candidates candidates (best_mem hbest)).1
    refine .after hn (hatom ▸ hp.mem_iff.2 hmem) (fun v => ?_)
      ((divides_asked components hn hq hp hb).connected_of_length single) ?_
    · rw [hbound, Variable.mem_sorted, Atom.boundVariables, List.mem_filter, hatom,
        atomVariables_eq found, hb]
    · rw [hatom]
      exact ih (hn.filter _) (fun i hi => hq i (List.mem_of_mem_filter hi)) (hp.filter _)
        (bound_step hb found)

theorem sound_of_planWith (h : q.planWith e m = .ok p) :
    Plan.Sound q q.indices q.constants.vars p :=
  (planned_of_planWith h).sound List.nodup_range (fun _ hi => hi) (.refl _) fun _ =>
    Binding.isBound_ofConstants.symm

/-- The plan of a query resolves each atom once, and each of its nodes is structured, whatever the
estimates and the costs are. -/
theorem planWith_structured (h : q.planWith e m = .ok p) : p.joinOrder.Perm q.indices ∧
    ∀ asked bound n, Plan.HasNode q q.indices q.constants.vars p asked bound n →
      Plan.Structured q asked bound n :=
  ⟨(sound_of_planWith h).structured.partition, sound_of_planWith h⟩

/-- An edge between two nodes. -/
def edgeQuery : QueryGraph where
  atoms :=
    let edges : Relation := .listed ⟨.text "E", [.text "a", .text "b"], [[.int 1, .int 2]], []⟩
    let nodes : Relation := .listed ⟨.text "N", [.text "a"], [[.int 1], [.int 2]], []⟩
    [⟨nodes, [(.named "x", [.text "a"])]⟩, ⟨nodes, [(.named "y", [.text "a"])]⟩,
      ⟨edges, [(.named "x", [.text "a"]), (.named "y", [.text "b"])]⟩]
  constants := []

/-- Once the edge is resolved, the nodes fall apart. -/
theorem planWith_edgeQuery : ∃ p, edgeQuery.planWith .standard .unit = .ok p ∧
    p.branches.length = 2 ∧ p.joinOrder.Perm [0, 1, 2] ∧
    Plan.Structured edgeQuery [0, 1, 2] [] p := by
  have hp : ∃ p, edgeQuery.planWith .standard .unit = .ok p ∧ p.branches.length = 2 :=
    ⟨_, rfl, rfl⟩
  obtain ⟨p, hp, hbranches⟩ := hp
  obtain ⟨hperm, hnodes⟩ := planWith_structured hp
  exact ⟨p, hp, hbranches, hperm, hnodes _ _ _ (.root ..)⟩

theorem wellFormed_of_planWith (h : q.planWith e m = .ok p) : p.WellFormed q where
  resolves := (sound_of_planWith h).structured.partition
  marks hn := (sound_of_planWith h _ _ _ hn).marks
  apart {_ _ n} hn := by
    rcases (sound_of_planWith h _ _ _ hn).complete with ⟨hb, -⟩ | Hs
    · rw [Plan.KeepsApart, hb]
      exact .nil
    · exact Hs.apart.imp fun hcd i hi j hj v hvi hvj => (Hs.cut v).1 (hcd i hi j hj v hvi hvj)

end QueryGraph
end JoinOrder
