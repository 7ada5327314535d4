import Mathlib.Data.List.Nodup
import Mathlib.Data.List.Perm.Basic
import JoinOrder.Plan.Basic

/-!
# The nodes of a plan

A node of a plan is entered with some bound variables and is asked to resolve some atoms. Each of
its steps binds the variables of an atom. What its steps leave open is divided among its branches.
-/

namespace JoinOrder
namespace Plan

variable {q : QueryGraph} {asked asked' order : List Nat} {bound bound' : List Variable}
  {p n : Plan} {i : Nat} {v : Variable}

/-- The variables that are bound once some atoms are resolved as well. -/
def boundBy (q : QueryGraph) (bound : List Variable) (order : List Nat) : List Variable :=
  bound ++ order.flatMap q.atomVariables

/-- The atoms that are resolved by the steps of a node. -/
def stepAtoms (n : Plan) : List Nat := n.steps.map Step.atom

/-- What is left of some atoms once others are resolved. -/
def unresolved (asked order : List Nat) : List Nat := asked.filter (· ∉ order)

/-- The nodes of a plan, each with the atoms that it is asked to resolve and the variables that
are bound when it is entered. A branch is asked for those of the unresolved atoms that occur in
it. -/
inductive HasNode (q : QueryGraph) :
    List Nat → List Variable → Plan → List Nat → List Variable → Plan → Prop
  | root (asked : List Nat) (bound : List Variable) (p : Plan) :
    HasNode q asked bound p asked bound p
  | branch {asked asked' : List Nat} {bound bound' : List Variable} {p n b : Plan}
      (hb : b ∈ p.branches) :
    HasNode q ((unresolved asked p.stepAtoms).filter (· ∈ b.joinOrder))
      (boundBy q bound p.stepAtoms) b asked' bound' n → HasNode q asked bound p asked' bound' n

/-- Each step is marked with the variables of its atom that are bound before it. -/
def MarksBound (q : QueryGraph) (bound : List Variable) (steps : List Step) : Prop :=
  ∀ k s, steps[k]? = some s → ∀ v, v ∈ s.boundVariables ↔
    v ∈ q.atomVariables s.atom ∧ v ∈ boundBy q bound ((steps.take k).map Step.atom)

/-- Different branches of a node only share variables that are bound there. -/
def KeepsApart (q : QueryGraph) (bound : List Variable) (n : Plan) : Prop :=
  n.branches.Pairwise fun b c => ∀ i ∈ b.joinOrder, ∀ j ∈ c.joinOrder, ∀ v,
    v ∈ q.atomVariables i → v ∈ q.atomVariables j → v ∈ boundBy q bound n.stepAtoms

/-! ## Elementary facts -/

/-- What holds of a plan whenever it holds of its branches holds of all plans. -/
theorem induction {P : Plan → Prop} (step : ∀ n, (∀ b ∈ n.branches, P b) → P n) (p : Plan) :
    P p :=
  step p fun b _ => induction step b
termination_by p
decreasing_by
  next hb =>
    cases p
    have := List.sizeOf_lt_of_mem hb
    simp only [branches, Plan.node.sizeOf_spec] at this ⊢
    omega

theorem mem_boundBy : v ∈ boundBy q bound order ↔
    v ∈ bound ∨ ∃ i ∈ order, v ∈ q.atomVariables i := by
  simp [boundBy]

theorem boundBy_cons : boundBy q bound (i :: order) = boundBy q (boundBy q bound [i]) order := by
  simp [boundBy]

theorem boundBy_append (order more : List Nat) :
    boundBy q bound (order ++ more) = boundBy q (boundBy q bound order) more := by
  simp [boundBy]

theorem mem_unresolved : i ∈ unresolved asked order ↔ i ∈ asked ∧ i ∉ order := by
  simp [unresolved]

theorem marksBound_cons {s : Step} {steps : List Step} :
    MarksBound q bound (s :: steps) ↔
      (∀ v, v ∈ s.boundVariables ↔ v ∈ q.atomVariables s.atom ∧ v ∈ bound) ∧
        MarksBound q (boundBy q bound [s.atom]) steps := by
  constructor
  · intro H
    refine ⟨fun v => ?_, fun k t ht v => ?_⟩
    · simpa [boundBy] using H 0 s rfl v
    · rw [H (k + 1) t ht v, List.take_succ_cons, List.map_cons, boundBy_cons]
  · rintro ⟨h, H⟩ k t ht v
    cases k with
    | zero =>
      cases ht
      simpa [boundBy] using h v
    | succ k => rw [H k t ht v, List.take_succ_cons, List.map_cons, ← boundBy_cons]

theorem branchSteps_eq (branches : List Plan) :
    branchSteps branches = branches.flatMap allSteps := by
  induction branches with
  | nil => rfl
  | cons b rest ih => rw [branchSteps, ih, List.flatMap_cons]

/-- The atoms of a plan are those of its steps and those of its branches. -/
theorem joinOrder_node (n : Plan) :
    n.joinOrder = n.stepAtoms ++ n.branches.flatMap joinOrder := by
  cases n with
  | node steps branches cut cardinality =>
    rw [joinOrder, allSteps, branchSteps_eq, List.map_append, List.map_flatMap]
    rfl

theorem allSteps_node (n : Plan) : n.allSteps = n.steps ++ n.branches.flatMap allSteps := by
  cases n
  rw [allSteps, branchSteps_eq]
  rfl

theorem joinOrder_subset_of_mem {b : Plan} (hb : b ∈ p.branches) (hi : i ∈ b.joinOrder) :
    i ∈ p.joinOrder := by
  rw [joinOrder_node]
  exact List.mem_append_right _ (List.mem_flatMap.2 ⟨b, hb, hi⟩)

theorem HasNode.nodup (H : HasNode q asked bound p asked' bound' n) (hn : asked.Nodup) :
    asked'.Nodup := by
  induction H with
  | root => exact hn
  | branch _ _ ih => exact ih ((hn.filter _).filter _)

theorem HasNode.steps_subset (H : HasNode q asked bound p asked' bound' n) :
    ∀ s ∈ n.steps, s ∈ p.allSteps := by
  induction H with
  | root =>
    intro s hs
    rw [allSteps_node]
    exact List.mem_append_left _ hs
  | branch hb _ ih =>
    intro s hs
    rw [allSteps_node]
    exact List.mem_append_right _ (List.mem_flatMap.2 ⟨_, hb, ih s hs⟩)

/-- A plan is well-formed for a query if it resolves each atom once, if each step is marked with
what is bound before it, and if the branches of each node are independent. -/
structure WellFormed (q : QueryGraph) (p : Plan) : Prop where
  resolves : p.joinOrder.Perm q.indices
  marks : ∀ {asked bound n}, HasNode q q.indices q.constants.vars p asked bound n →
    MarksBound q bound n.steps
  apart : ∀ {asked bound n}, HasNode q q.indices q.constants.vars p asked bound n →
    KeepsApart q bound n

/-- If what is bound before a plan are constants and variables of other atoms, then so is what its
steps are marked with. -/
theorem boundVariables_spec {s : Step} (hm : ∀ {asked' bound' n},
      HasNode q asked bound p asked' bound' n → MarksBound q bound' n.steps)
    (hd : p.joinOrder.Nodup)
    (hb : ∀ v ∈ bound, v ∈ q.constants.vars ∨ ∃ i ∉ p.joinOrder, v ∈ q.atomVariables i)
    (hs : s ∈ p.allSteps) : ∀ v ∈ s.boundVariables, v ∈ q.constants.vars ∨
      ∃ i, i ≠ s.atom ∧ v ∈ q.atomVariables i ∧ v ∈ q.atomVariables s.atom := by
  induction p using Plan.induction generalizing asked bound with
  | step p ih =>
    rw [joinOrder_node, List.nodup_append] at hd
    rw [allSteps_node, List.mem_append, List.mem_flatMap] at hs
    rcases hs with hs | ⟨b, hbranch, hs⟩
    · obtain ⟨before, behind, hsplit⟩ := List.append_of_mem hs
      have hk : p.steps[before.length]? = some s := by simp [hsplit]
      intro v hv
      obtain ⟨hatom, hbound⟩ := (hm (.root ..) _ s hk v).1 hv
      rw [hsplit, List.take_left, mem_boundBy] at hbound
      rcases hbound with hbound | ⟨i, hi, hvi⟩
      · refine (hb v hbound).imp_right fun ⟨i, hi, hvi⟩ => ⟨i, ?_, hvi, hatom⟩
        rintro rfl
        exact hi (joinOrder_node p ▸ List.mem_append_left _ (List.mem_map_of_mem hs))
      · have hsteps := hd.1
        rw [stepAtoms, hsplit, List.map_append, List.nodup_append] at hsteps
        exact .inr ⟨i, hsteps.2.2 i hi s.atom List.mem_cons_self, hvi, hatom⟩
    · refine ih b hbranch (fun h => hm (.branch hbranch h)) ?_ (fun v hv => ?_) hs
      · exact (List.nodup_flatMap.1 hd.2.1).1 b hbranch
      · rcases mem_boundBy.1 hv with hv | ⟨i, hi, hvi⟩
        · exact (hb v hv).imp_right fun ⟨i, hi, hvi⟩ =>
            ⟨i, mt (joinOrder_subset_of_mem hbranch) hi, hvi⟩
        · refine .inr ⟨i, fun h => ?_, hvi⟩
          exact hd.2.2 i hi i (List.mem_flatMap.2 ⟨b, hbranch, h⟩) rfl

/-- In a well-formed plan, each step is marked with constants and with variables of other atoms. -/
theorem WellFormed.boundVariables_spec {s : Step} (H : p.WellFormed q) (hs : s ∈ p.allSteps) :
    ∀ v ∈ s.boundVariables, v ∈ q.constants.vars ∨
      ∃ i, i ≠ s.atom ∧ v ∈ q.atomVariables i ∧ v ∈ q.atomVariables s.atom :=
  Plan.boundVariables_spec H.marks (H.resolves.nodup_iff.2 List.nodup_range) (fun _ => .inl) hs

end Plan
end JoinOrder
