import Mathlib.Algebra.Order.BigOperators.Group.Multiset
import JoinOrder.Proofs.Estimates
import JoinOrder.Proofs.Execution
import JoinOrder.Proofs.Structure

/-!
# Sizes in plans

The sizes that a plan announces bound the rows of its execution, as long as the products of sizes
are exact. Along the steps of a node sizes are multiplied by what each atom contributes at most,
and the results of branches are combined in all ways.
-/

namespace JoinOrder

/-! ## Sizes of joins -/

section

variable {κ : Type} {s t : Multiset (View κ)} {n : Nat}

theorem card_join_le_of_single (h : ∀ f ∈ s, Multiset.card ({f} * t) ≤ n) :
    Multiset.card (s * t) ≤ Multiset.card s * n := by
  have hsum := Multiset.sum_le_card_nsmul (s.map (Multiset.card ∘ fun f => {f} * t)) n
    fun c hc => by
    obtain ⟨f, hf, rfl⟩ := Multiset.mem_map.1 hc
    exact h f hf
  rwa [Multiset.card_map, Nat.nsmul_eq_mul, ← Multiset.card_bind, ← join_eq_bind] at hsum

theorem card_join_le : Multiset.card (s * t) ≤ Multiset.card s * Multiset.card t := by
  classical
  refine card_join_le_of_single fun f _ => ?_
  rw [single_join, Multiset.card_map]
  exact Multiset.card_le_card (Multiset.filter_le _ _)

end

/-- A size is a bound, `size` times over, for how many rows a row of the bound variables is joined
to, whose values these may have. -/
def Bounds {κ : Type} (K : ValueClass κ) (T : Variable → Value → Prop) (constants : Assignment)
    (bound : List Variable) (size : Nat) (t : Multiset (View κ)) (c : Cardinality) : Prop :=
  ∃ n m, c = .known n ∧ size * m ≤ n ∧ ∀ row, Admitted K T constants bound row →
    Multiset.card ({K.view row} * t) ≤ m

namespace Bounds

open Plan

variable {κ : Type} {K : ValueClass κ} {T : Variable → Value → Prop} {constants : Assignment}
  {bound : List Variable} {size n : Nat} {s t : Multiset (View κ)} {c d : Cardinality}

theorem single : Bounds K T constants bound size 1 (.known size) :=
  ⟨size, 1, rfl, Nat.le_of_eq (Nat.mul_one _), fun row _ => by
    rw [mul_one, Multiset.card_singleton]⟩

/-- Parts that do not depend on each other are combined in all ways. -/
theorem mul (H : Bounds K T constants bound size s c) (H' : Bounds K T constants bound 1 t d)
    (h : ∀ x y, c = .known x → d = .known y → x * y ≤ 2 ^ 53) :
    Bounds K T constants bound size (s * t) (c * d) := by
  obtain ⟨n, m, rfl, hm, hs⟩ := H
  obtain ⟨n', m', rfl, hm', ht⟩ := H'
  refine ⟨n * n', m * m', Cardinality.known_mul_known (h n n' rfl rfl), ?_, fun row hrow => ?_⟩
  · rw [Nat.one_mul] at hm'
    rw [← Nat.mul_assoc]
    exact Nat.mul_le_mul hm hm'
  · have hrow' : {K.view row} * (s * t) = ({K.view row} * s) * ({K.view row} * t) := by
      rw [mul_mul_mul_comm, single_join_of_within fun _ _ h => h]
    rw [hrow']
    exact Nat.le_trans card_join_le (Nat.mul_le_mul (hs row hrow) (ht row hrow))

variable {q : QueryGraph} {tuples : Relation → List (List Value)} {i f : Nat}

/-- The rows that a row is joined to by an atom, as assignments. -/
theorem exists_admitted {i : Nat} {row : Assignment} (H : q.Answers K T tuples) (hi : i < q.size)
    (hrow : Admitted K T q.constants bound row) : ∃ found : List Assignment,
      K.bag found = {K.view row} * q.atomBag K tuples i ∧
        ∀ r ∈ found, Admitted K T q.constants (boundBy q bound [i]) r := by
  obtain ⟨a, ha, -⟩ := QueryGraph.getElem?_of_lt hi
  have hsingle : ∀ r ∈ [row], Admitted K T q.constants bound r :=
    List.forall_mem_singleton.2 hrow
  obtain ⟨found, -, hbag, hext⟩ := Execution.iterate_spec (H.answers a (List.mem_of_getElem? ha))
    (List.forall_mem_singleton.2 hrow.takes) (Rows.yields_single row) hsingle
  refine ⟨found, ?_, fun r hr => ?_⟩
  · rw [hbag, QueryGraph.atomBag, ha]
    rfl
  · simpa [boundBy, QueryGraph.atomVariables_eq ha] using hext r hr

/-- What follows an atom is multiplied by what the atom contributes. -/
theorem step (HR : q.Answers K T tuples) (hi : i < q.size)
    (hf : Bounds K T q.constants bound 1 (q.atomBag K tuples i) (.known f))
    (H : Bounds K T q.constants (boundBy q bound [i]) (size * f) t c) :
    Bounds K T q.constants bound size (q.atomBag K tuples i * t) c := by
  obtain ⟨_, m', ⟨⟩, hm', hcard'⟩ := hf
  obtain ⟨n, m, rfl, hm, hcard⟩ := H
  rw [Nat.one_mul] at hm'
  refine ⟨n, f * m, rfl, by rwa [← Nat.mul_assoc], fun row hrow => ?_⟩
  obtain ⟨found, hbag, hext⟩ := exists_admitted HR hi hrow
  rw [← mul_assoc]
  refine Nat.le_trans (card_join_le_of_single (n := m) fun g hg => ?_) ?_
  · rw [← hbag] at hg
    obtain ⟨r, hr, rfl⟩ := List.mem_map.1 hg
    exact hcard r (hext r hr)
  · exact Nat.mul_le_mul_right m (Nat.le_trans (hcard' row hrow) hm')

/-- The sizes of branches are multiplied. -/
theorem branches {ps : List Plan} (H : Bounds K T q.constants bound size t c)
    (hps : ∀ p ∈ ps, Bounds K T q.constants bound 1 (q.joined K tuples p.joinOrder) p.cardinality)
    (h : ∀ x y, Cardinality.Multiplies c (ps.map cardinality) (.known x) (.known y) →
      x * y ≤ 2 ^ 53) :
    Bounds K T q.constants bound size (t * q.joined K tuples (ps.flatMap joinOrder))
      (ps.foldl (fun c p => c * p.cardinality) c) := by
  induction ps generalizing t c with
  | nil =>
    rw [List.flatMap_nil, QueryGraph.joined, List.map_nil, List.prod_nil, mul_one]
    exact H
  | cons p ps ih =>
    rw [List.forall_mem_cons] at hps
    rw [List.map_cons] at h
    rw [List.flatMap_cons, QueryGraph.joined_append, ← mul_assoc, List.foldl_cons]
    refine ih (H.mul hps.1 fun x y hx hy => ?_) hps.2 fun x y hxy => h x y hxy.cons
    exact h x y ⟨[], _, by rw [hy]; rfl, hx.symm⟩

end Bounds

namespace Plan

variable {κ : Type} {K : ValueClass κ} {T : Variable → Value → Prop} {q : QueryGraph}
  {tuples : Relation → List (List Value)} {bound bound' : List Variable} {size : Nat}
  {p n : Plan} {asked asked' : List Nat}

/-- The products of sizes that are formed while a plan comes about, for a binding and a size of the
intermediate result. -/
inductive Multiplies (q : QueryGraph) :
    Plan → Binding → Cardinality → Cardinality → Cardinality → Prop
  | output {s : Step} {steps : List Step} {branches : List Plan} {cut : List Variable}
      {c size x y : Cardinality} {b : Binding} {a : Atom} (found : q.atoms[s.atom]? = some a)
      (formed : a.Multiplies b x y) : Multiplies q (.node (s :: steps) branches cut c) b size x y
  | extend {s : Step} {steps : List Step} {branches : List Plan} {cut : List Variable}
      {c size : Cardinality} {b : Binding} :
      Multiplies q (.node (s :: steps) branches cut c) b size size s.fanout
  | later {s : Step} {steps : List Step} {branches : List Plan} {cut : List Variable}
      {c size x y : Cardinality} {b : Binding} {a : Atom} (found : q.atoms[s.atom]? = some a)
      (formed : Multiplies q (.node steps branches cut c) (b.bind a.vars) (size * s.fanout) x y) :
      Multiplies q (.node (s :: steps) branches cut c) b size x y
  | combine {branches : List Plan} {cut : List Variable} {c size x y : Cardinality} {b : Binding}
      (formed : Cardinality.Multiplies size (branches.map cardinality) x y) :
      Multiplies q (.node [] branches cut c) b size x y
  | branch {branches : List Plan} {p : Plan} {cut : List Variable} {c size x y : Cardinality}
      {b : Binding} (mem : p ∈ branches) (formed : Multiplies q p b (.known 1) x y) :
      Multiplies q (.node [] branches cut c) b size x y

/-- At a node, the sizes of the steps and of the plan are bounds, where `size` rows enter. -/
structure Bounded (K : ValueClass κ) (T : Variable → Value → Prop) (q : QueryGraph)
    (tuples : Relation → List (List Value)) (bound : List Variable) (size : Nat) (n : Plan) :
    Prop where
  reaching : ∀ k s, n.steps[k]? = some s →
    Bounds K T q.constants bound size (q.joined K tuples (n.stepAtoms.take k)) s.boundSize
  fanout : ∀ k s, n.steps[k]? = some s →
    Bounds K T q.constants (boundBy q bound (n.stepAtoms.take k)) 1 (q.atomBag K tuples s.atom)
      s.fanout
  results : Bounds K T q.constants bound size (q.joined K tuples n.joinOrder) n.cardinality

/-- The sizes at all nodes are bounds. A branch is entered by one row at a time. -/
structure Sized (K : ValueClass κ) (T : Variable → Value → Prop) (q : QueryGraph)
    (tuples : Relation → List (List Value)) (bound : List Variable) (size : Nat) (p : Plan) :
    Prop where
  root : Bounded K T q tuples bound size p
  branches : ∀ c ∈ p.branches, ∀ asked asked' bound' n,
    HasNode q asked (boundBy q bound p.stepAtoms) c asked' bound' n →
      Bounded K T q tuples bound' 1 n

theorem Sized.bounded (H : Sized K T q tuples bound 1 p)
    (h : HasNode q asked bound p asked' bound' n) : Bounded K T q tuples bound' 1 n := by
  cases h with
  | root => exact H.root
  | branch hb h => exact H.branches _ hb _ _ _ _ h

/-! ## Steps -/

@[simp] theorem cardinality_after (s : Step) : (p.after s).cardinality = p.cardinality := by
  cases p
  rfl

/-- The sizes of a plan are bounds after a step whose fanout is one. -/
theorem Sized.after {s : Step} {f : Nat} (HR : q.Answers K T tuples) (hi : s.atom < q.size)
    (hs : s.boundSize = .known size) (hsf : s.fanout = .known f)
    (hf : Bounds K T q.constants bound 1 (q.atomBag K tuples s.atom) (.known f))
    (H : Sized K T q tuples (boundBy q bound [s.atom]) (size * f) p) :
    Sized K T q tuples bound size (p.after s) where
  root := by
    refine ⟨fun k t ht => ?_, fun k t ht => ?_, ?_⟩
    · cases k with
      | zero =>
        rw [steps_after] at ht
        cases ht
        rw [List.take_zero, hs]
        exact .single
      | succ k =>
        rw [stepAtoms_after, List.take_succ_cons, QueryGraph.joined_cons]
        exact .step HR hi hf (H.root.reaching k t (by simpa using ht))
    · cases k with
      | zero =>
        rw [steps_after] at ht
        cases ht
        rw [List.take_zero, boundBy_nil, hsf]
        exact hf
      | succ k =>
        rw [stepAtoms_after, List.take_succ_cons, boundBy_cons]
        exact H.root.fanout k t (by simpa using ht)
    · rw [joinOrder_after, cardinality_after, QueryGraph.joined_cons]
      exact .step HR hi hf H.root.results
  branches c hc asked asked' bound' n hn := by
    rw [branches_after] at hc
    rw [stepAtoms_after, boundBy_cons] at hn
    exact H.branches c hc asked asked' bound' n hn

end Plan

namespace QueryGraph

variable {κ : Type} [DecidableEq κ] {K : ValueClass κ} {T : Variable → Value → Prop}
  {q : QueryGraph} {tuples : Relation → List (List Value)} {m : CostModel} {remaining : List Nat}
  {b : Binding} {size : Cardinality} {bound : List Variable} {p : Plan} {z : Nat}

/-- What the standard estimator expects of an atom is a bound. -/
theorem output_spec {i : Nat} {a : Atom} {c : Cardinality} (HR : q.Answers K T tuples)
    (HC : ∀ a ∈ q.atoms, a.Counted K T (tuples a.relation)) (ha : q.atoms[i]? = some a)
    (hv : b.values = q.constants) (hb : ∀ v, v ∈ bound ↔ b.isBound v = true)
    (hp : ∀ x y, a.Multiplies b (.known x) (.known y) → x * y ≤ 2 ^ 53)
    (h : Estimator.standard.output q b i = .ok c) :
    Bounds K T q.constants bound 1 (q.atomBag K tuples i) c := by
  have hmem := List.mem_of_getElem? ha
  obtain ⟨a', ha', h⟩ := Checked.bind_eq_ok.1 h
  cases (atom_eq_ok.1 ha').symm.trans ha
  obtain ⟨n, hn, hle⟩ := (HC a hmem).outputEstimate_spec (hv ▸ HR.constants) (hv ▸ HR.takes) hp h
  refine ⟨n, n, hn, Nat.le_of_eq (Nat.one_mul n), fun row hrow => ?_⟩
  have hrow' : Admitted K T b.values b.boundVariables row :=
    hv ▸ hrow.congr fun v => (hb v).trans Binding.mem_boundVariables.symm
  rw [atomBag, ha, (HC a hmem).card_join]
  exact hle row hrow'

/-- The sizes of a planned query are bounds. -/
theorem Planned.sized (HR : q.Answers K T tuples)
    (HC : ∀ a ∈ q.atoms, a.Counted K T (tuples a.relation))
    (H : q.Planned .standard m remaining b size p) (hz : size = .known z)
    (hv : b.values = q.constants) (hb : ∀ v, v ∈ bound ↔ b.isBound v = true)
    (hp : ∀ x y, p.Multiplies q b size (.known x) (.known y) → x * y ≤ 2 ^ 53) :
    p.Sized K T q tuples bound z := by
  induction H generalizing bound z with
  | done b size =>
    refine ⟨⟨fun k s hs => ?_, fun k s hs => ?_, ?_⟩, fun c hc => ?_⟩
    · simp [Plan.steps] at hs
    · simp [Plan.steps] at hs
    · rw [Plan.joinOrder_node, hz]
      exact .single
    · cases hc
  | @split remaining b size classes parts p components several length_eq planned combined ih =>
    obtain ⟨branches, hperm, rfl⟩ := split_spec combined
    have hbranch : ∀ c ∈ branches, c.Sized K T q tuples bound 1 := by
      intro c hc
      obtain ⟨comp, hmem⟩ := exists_mem_zip length_eq (hperm.mem_iff.1 hc)
      exact ih comp c hmem rfl hv hb fun x y h => hp x y (.branch hc h)
    refine ⟨⟨fun k s hs => ?_, fun k s hs => ?_, ?_⟩, fun c hc asked asked' bound' n hn => ?_⟩
    · simp [Plan.steps] at hs
    · simp [Plan.steps] at hs
    · have hone : Bounds K T q.constants bound z 1 size := hz ▸ .single
      have hall := hone.branches (fun c hc => (hbranch c hc).root.results)
        fun x y h => hp x y (.combine h)
      rw [one_mul] at hall
      rw [Plan.joinOrder_node]
      exact hall
    · exact (hbranch c hc).bounded (Plan.boundBy_nil (q := q) ▸ hn)
  | @step remaining b size fanout classes all chosen atom s p nonempty components single candidates
      best found output resolved planned ih =>
    obtain ⟨hatom, -, hsize, hfanout⟩ := resolve_spec found resolved
    rw [← hatom] at found output
    have hi : s.atom < q.size := (List.getElem?_eq_some_iff.1 found).1
    obtain ⟨steps, branches, cut, c⟩ := p
    have hbound := output_spec HR HC found hv hb (fun x y h => hp x y (.output found h)) output
    obtain ⟨f, -, hf, -⟩ := id hbound
    subst hz
    rw [hf] at hbound
    have hmul : Cardinality.known z * fanout = .known (z * f) := by
      rw [hf]
      exact Cardinality.known_mul_known (hp z f (hf ▸ hfanout ▸ .extend))
    exact .after HR hi hsize (hfanout.trans hf) hbound
      (ih hmul hv (bound_step hb found) fun x y h => hp x y (.later found (hfanout ▸ h)))

end QueryGraph
end JoinOrder
