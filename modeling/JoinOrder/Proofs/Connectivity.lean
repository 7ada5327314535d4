import JoinOrder.Proofs.Graph
import JoinOrder.Proofs.LabelledGraph

/-!
# Connectivity of atoms

The graph of a query has an edge wherever two atoms share a variable, labelled with what they share.
The search through this graph finds the classes of atoms that are joined by variables that are not
bound.
-/

namespace JoinOrder
namespace QueryGraph

open Components (Reaches Divides Ordered)
open LabelledGraph (Draws ordinal arcs)

variable {q : QueryGraph} {bound bound' : List Variable} {among : List Nat}
  {classes classes' : List (List Nat)} {i j : Nat} {shared : List Variable}

/-! ## The graph of a query -/

theorem mem_edges : (i, j, shared) ∈ q.edges ↔
    i < q.size ∧ j < q.size ∧ i < j ∧ q.linked [] i j = true ∧ shared = q.shared i j := by
  simp only [edges, List.mem_flatMap, List.mem_map, List.mem_filter, mem_indices,
    Bool.and_eq_true, decide_eq_true_iff, Prod.mk.injEq]
  constructor
  · rintro ⟨_, hi, _, ⟨hj, hlt, hl⟩, rfl, rfl, rfl⟩
    exact ⟨hi, hj, hlt, hl, rfl⟩
  · rintro ⟨hi, hj, hlt, hl, rfl⟩
    exact ⟨i, hi, j, ⟨hj, hlt, hl⟩, rfl, rfl, rfl⟩

theorem linked_mono (h : ∀ v ∈ bound, v ∈ bound') (hl : q.linked bound' i j = true) :
    q.linked bound i j = true := by
  obtain ⟨hne, v, hi, hj, hv⟩ := linked_iff.1 hl
  exact linked_iff.2 ⟨hne, v, hi, hj, fun hb => hv (h v hb)⟩

theorem labelled_spec (q : QueryGraph) :
    ∃ near, q.labelled = .ok (ordinal q.indices near) ∧ Draws (arcs q.edges) near := by
  refine LabelledGraph.build_spec List.nodup_range fun e he => ?_
  obtain ⟨hi, hj, -⟩ := mem_edges.1 he
  exact ⟨mem_indices.2 hi, mem_indices.2 hj⟩

/-- The label of an edge tells whether it still links its atoms once some variables are bound. -/
theorem any_of_mem_arcs (h : (i, j, shared) ∈ arcs q.edges) :
    shared.any (· ∉ bound) = q.linked bound i j := by
  rcases LabelledGraph.mem_arcs.1 h with he | he
  · obtain ⟨-, -, -, -, rfl⟩ := mem_edges.1 he
    rfl
  · obtain ⟨-, -, -, -, rfl⟩ := mem_edges.1 he
    exact linked_comm bound j i

theorem exists_arc (hi : i ∈ q.indices) (hj : j ∈ q.indices) (h : q.linked bound i j = true) :
    ∃ shared, (i, j, shared) ∈ arcs q.edges := by
  have hl : q.linked [] i j = true := linked_mono (fun _ hv => absurd hv List.not_mem_nil) h
  rw [mem_indices] at hi hj
  rcases Nat.lt_or_gt_of_ne (linked_iff.1 h).1 with hlt | hgt
  · exact ⟨_, LabelledGraph.mem_arcs.2 (.inl (mem_edges.2 ⟨hi, hj, hlt, hl, rfl⟩))⟩
  · rw [linked_comm] at hl
    exact ⟨_, LabelledGraph.mem_arcs.2 (.inr (mem_edges.2 ⟨hj, hi, hgt, hl, rfl⟩))⟩

theorem nodup_indices : q.indices.Nodup := List.nodup_range

/-- The search finds the components, in order. -/
theorem components_spec (bound : List Variable) (h : ∀ i ∈ among, i < q.size) :
    ∃ classes, q.componentsAmong (among.map .ofNat) bound = .ok (classes.map (·.map .ofNat)) ∧
      q.components among bound = .ok classes ∧
      Divides (q.linked bound) (q.indices.filter (· ∈ among)) classes ∧ Ordered classes := by
  obtain ⟨near, hlabelled, D⟩ := labelled_spec q
  obtain ⟨classes, hclasses, hdivides, hordered⟩ := LabelledGraph.connectedSubsets_spec D
    nodup_indices (fun i hi => mem_indices.2 (h i hi)) (linked_comm bound)
    (fun _ _ _ harc => congrArg Except.ok (any_of_mem_arcs harc)) fun _ hi _ hj => exists_arc hi hj
  have hfound : q.componentsAmong (among.map .ofNat) bound = .ok (classes.map (·.map .ofNat)) := by
    rw [componentsAmong, hlabelled, Checked.bind_ok, hclasses]
  have hread : ∀ c : List Nat, (c.map Value.ofNat).filterMap (fun v => v.int?.map Int.toNat) = c :=
    fun c => by rw [List.filterMap_map]; exact List.filterMap_some
  refine ⟨classes, hfound, ?_, hdivides, hordered⟩
  rw [components, hfound, Checked.bind_ok, List.map_map]
  exact congrArg Except.ok (List.map_id'' hread classes)

/-- Of some atoms, each occurs in one component. -/
theorem divides_components (hcomponents : q.components among bound = .ok classes)
    (h : ∀ i ∈ among, i < q.size) :
    Divides (q.linked bound) (q.indices.filter (· ∈ among)) classes := by
  obtain ⟨_, -, hfound, D, -⟩ := components_spec bound h
  cases hcomponents.symm.trans hfound
  exact D

/-! ## Classes of joined atoms -/

/-- A path through some atoms, of which consecutive ones share a variable that is not bound. -/
def Path (q : QueryGraph) (bound : List Variable) (among : List Nat) : Nat → Nat → Prop :=
  Relation.ReflTransGen fun i j => i ∈ among ∧ j ∈ among ∧
    ∃ v, v ∈ q.atomVariables i ∧ v ∈ q.atomVariables j ∧ v ∉ bound

/-- Disjoint classes of some atoms, in order, each of the atoms that are joined by paths. -/
structure Separates (q : QueryGraph) (bound : List Variable) (among : List Nat)
    (classes : List (List Nat)) : Prop where
  nonempty : ∀ c ∈ classes, c ≠ []
  disjoint : classes.Pairwise List.Disjoint
  covers : ∀ i, i ∈ among ↔ ∃ c ∈ classes, i ∈ c
  ordered : Ordered classes
  joined : ∀ i ∈ among, ∀ j ∈ among,
    (∃ c ∈ classes, i ∈ c ∧ j ∈ c) ↔ q.Path bound among i j

/-- Paths are chains of links, since an atom need not be linked to itself. -/
theorem path_iff_reaches (h : ∀ i ∈ among, i < q.size) :
    q.Path bound among i j ↔ Reaches (q.linked bound) (q.indices.filter (· ∈ among)) i j := by
  have hmem : ∀ k, k ∈ q.indices.filter (· ∈ among) ↔ k ∈ among := by
    intro k
    rw [List.mem_filter, mem_indices, decide_eq_true_iff]
    exact ⟨And.right, fun hk => ⟨h k hk, hk⟩⟩
  constructor
  · intro hp
    induction hp with
    | refl => exact .refl
    | tail _ hl ih =>
      obtain ⟨hi, hj, hv⟩ := hl
      rename_i k l _
      by_cases hkl : k = l
      · exact hkl ▸ ih
      · exact ih.tail ⟨(hmem k).2 hi, (hmem l).2 hj, linked_iff.2 ⟨hkl, hv⟩⟩
  · intro hr
    induction hr with
    | refl => exact .refl
    | tail _ hl ih =>
      obtain ⟨hi, hj, hl⟩ := hl
      exact ih.tail ⟨(hmem _).1 hi, (hmem _).1 hj, (linked_iff.1 hl).2⟩

/-- Ordered classes that the links divide the atoms into are those of the atoms joined by paths. -/
theorem separates_of_divides (h : ∀ i ∈ among, i < q.size)
    (D : Divides (q.linked bound) (q.indices.filter (· ∈ among)) classes) (ho : Ordered classes) :
    q.Separates bound among classes := by
  have hn : (q.indices.filter (· ∈ among)).Nodup := nodup_indices.filter _
  have hmem : ∀ i, i ∈ among ↔ i ∈ q.indices.filter (· ∈ among) := by
    intro i
    rw [List.mem_filter, mem_indices, decide_eq_true_iff]
    exact ⟨fun hi => ⟨h i hi, hi⟩, And.right⟩
  have hcovers : ∀ i, i ∈ among ↔ ∃ c ∈ classes, i ∈ c := by
    intro i
    rw [hmem, ← D.perm.mem_iff, List.mem_flatten]
  refine ⟨D.nonempty, (List.nodup_flatten.1 (D.perm.nodup_iff.2 hn)).2, hcovers, ho,
    fun i hi j _ => ?_⟩
  rw [path_iff_reaches h]
  constructor
  · rintro ⟨c, hc, hic, hjc⟩
    exact (D.connected c hc i hic j hjc).mono (D.subset hc)
  · intro hr
    obtain ⟨c, hc, hic⟩ := (hcovers i).1 hi
    exact ⟨c, hc, hic, (D.isComponent (linked_comm bound) hc).mem_of_reaches hic hr⟩

theorem Path.mono (h : ∀ v ∈ bound, v ∈ bound') (H : q.Path bound' among i j) :
    q.Path bound among i j :=
  H.lift id fun _ _ ⟨hi, hj, v, hvi, hvj, hv⟩ => ⟨hi, hj, v, hvi, hvj, fun hb => hv (h v hb)⟩

/-- An atom is in one class only. -/
theorem Separates.eq_of_mem {c d : List Nat} (H : q.Separates bound among classes)
    (hc : c ∈ classes) (hd : d ∈ classes) (hic : i ∈ c) (hid : i ∈ d) : c = d := by
  have : Std.Symm (List.Disjoint (α := Nat)) := ⟨fun _ _ => List.Disjoint.symm⟩
  by_contra hne
  exact H.disjoint.forall hc hd hne hic hid

/-- What is joined to an atom is in its class. -/
theorem Separates.mem_of_path {c : List Nat} (H : q.Separates bound among classes)
    (hc : c ∈ classes) (hi : i ∈ c) (hj : j ∈ among) (hp : q.Path bound among i j) : j ∈ c := by
  obtain ⟨d, hd, hid, hjd⟩ := (H.joined i ((H.covers i).2 ⟨c, hc, hi⟩) j hj).2 hp
  exact H.eq_of_mem hd hc hid hi ▸ hjd

/-- A variable that is not bound occurs in one class only. -/
theorem Separates.apart (H : q.Separates bound among classes) :
    classes.Pairwise fun c d => ∀ i ∈ c, ∀ j ∈ d, ∀ v,
      v ∈ q.atomVariables i → v ∈ q.atomVariables j → v ∈ bound := by
  refine H.disjoint.imp_of_mem fun {c d} hc hd hdis i hi j hj v hvi hvj => ?_
  by_contra hv
  have hia : i ∈ among := (H.covers i).2 ⟨c, hc, hi⟩
  have hja : j ∈ among := (H.covers j).2 ⟨d, hd, hj⟩
  exact hdis (H.mem_of_path hc hi hja (.single ⟨hia, hja, v, hvi, hvj, hv⟩)) hj

/-- The more variables are bound, the finer are the classes. -/
theorem Separates.refines (H : q.Separates bound among classes)
    (H' : q.Separates bound' among classes') (h : ∀ v ∈ bound, v ∈ bound') :
    ∀ c' ∈ classes', ∃ c ∈ classes, ∀ i ∈ c', i ∈ c := by
  intro c' hc'
  obtain ⟨i, hi⟩ := List.exists_mem_of_ne_nil c' (H'.nonempty c' hc')
  have hia : i ∈ among := (H'.covers i).2 ⟨c', hc', hi⟩
  obtain ⟨c, hc, hic⟩ := (H.covers i).1 hia
  refine ⟨c, hc, fun j hj => ?_⟩
  have hja : j ∈ among := (H'.covers j).2 ⟨c', hc', hj⟩
  have hp : q.Path bound' among i j := (H'.joined i hia j hja).1 ⟨c', hc', hi, hj⟩
  exact H.mem_of_path hc hic hja (hp.mono h)

/-- The components of some atoms are the classes of those that are joined by paths; no unbound
variable occurs in two of them, and they become finer as more variables are bound. -/
theorem componentsAmong_separates (q : QueryGraph) (among : List Nat) (bound : List Variable)
    (h : ∀ i ∈ among, i < q.size) :
    ∃ classes, q.componentsAmong (among.map .ofNat) bound = .ok (classes.map (·.map .ofNat)) ∧
      q.components among bound = .ok classes ∧ q.Separates bound among classes ∧
      (classes.Pairwise fun c d => ∀ i ∈ c, ∀ j ∈ d, ∀ v,
        v ∈ q.atomVariables i → v ∈ q.atomVariables j → v ∈ bound) ∧
      ∀ bound', (∀ v ∈ bound, v ∈ bound') → ∃ classes', q.components among bound' = .ok classes' ∧
        ∀ c' ∈ classes', ∃ c ∈ classes, ∀ i ∈ c', i ∈ c := by
  obtain ⟨classes, hvalues, hclasses, D, ho⟩ := components_spec bound h
  have H : q.Separates bound among classes := separates_of_divides h D ho
  refine ⟨classes, hvalues, hclasses, H, H.apart, fun bound' hb => ?_⟩
  obtain ⟨classes', -, hclasses', D', ho'⟩ := components_spec bound' h
  exact ⟨classes', hclasses', H.refines (separates_of_divides h D' ho') hb⟩

/-- Four atoms in a ring, each of which shares a variable with the next one. -/
def ring : QueryGraph where
  atoms :=
    let edges : Relation := .listed ⟨.text "E", [.text "a", .text "b"], [[.int 1, .int 2]], []⟩
    let edge (v w : String) : Atom :=
      ⟨edges, [(.named v, [.text "a"]), (.named w, [.text "b"])]⟩
    [edge "x" "y", edge "y" "z", edge "z" "w", edge "w" "x"]
  constants := []

/-- Without the second atom and with `x` bound, the ring falls into two parts. -/
theorem componentsAmong_ring : (∀ i ∈ [2, 0, 3, 0], i < ring.size) ∧
    ring.componentsAmong [.int 2, .int 0, .int 3, .int 0] [.named "x"] =
      .ok [[.int 0], [.int 2, .int 3]] ∧
    ring.Separates [.named "x"] [2, 0, 3, 0] [[0], [2, 3]] := by
  have hsize : ∀ i ∈ [2, 0, 3, 0], i < ring.size := by decide
  have hcomponents : ring.components [2, 0, 3, 0] [.named "x"] = .ok [[0], [2, 3]] := rfl
  obtain ⟨classes, hvalues, hclasses, H, -⟩ :=
    componentsAmong_separates ring [2, 0, 3, 0] [.named "x"] hsize
  cases hcomponents.symm.trans hclasses
  exact ⟨hsize, hvalues, H⟩

end QueryGraph
end JoinOrder
