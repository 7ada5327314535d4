import JoinOrder.Proofs.Checked
import JoinOrder.Query.Graph

/-!
# Query graphs

Atoms and variables of a query, and the links between atoms.
-/

namespace JoinOrder
namespace QueryGraph

variable {q : QueryGraph} {a : Atom} {i j : Nat} {bound bound' : List Variable}

/-! ## Atoms by their index -/

theorem atom_eq_ok : q.atom i = .ok a ↔ q.atoms[i]? = some a := by
  rw [atom, atOffset_natCast, atPosition_eq_ok]

theorem atomVariables_eq (h : q.atoms[i]? = some a) : q.atomVariables i = a.vars := by
  rw [atomVariables, h]

theorem getElem?_of_lt (h : i < q.size) : ∃ a, q.atoms[i]? = some a ∧ a ∈ q.atoms :=
  ⟨q.atoms[i], List.getElem?_eq_getElem h, List.getElem_mem h⟩

theorem mem_indices : i ∈ q.indices ↔ i < q.size := List.mem_range

theorem mem_vars {v : Variable} : v ∈ q.vars ↔ ∃ a ∈ q.atoms, v ∈ a.vars := by
  have hf : ∀ (xs all : List Variable), v ∈ xs.foldl (fun all v => if v ∈ all then all
      else all ++ [v]) all ↔ v ∈ all ∨ v ∈ xs := by
    intro xs
    induction xs with
    | nil => simp
    | cons x xs ih =>
      intro all
      rw [List.foldl_cons, ih]
      split
      · next hx =>
        rw [List.mem_cons]
        exact ⟨fun h => h.imp_right .inr, fun h => h.elim .inl fun h => h.elim
          (fun e => .inl (e ▸ hx)) .inr⟩
      · simp [or_assoc]
  rw [vars, hf]
  simp

/-- The variables of all atoms are those of the query. -/
theorem mem_boundBy_indices {v : Variable} {order : List Nat} (h : order.Perm q.indices) :
    (∃ i ∈ order, v ∈ q.atomVariables i) ↔ v ∈ q.vars := by
  rw [mem_vars]
  constructor
  · rintro ⟨i, hi, hv⟩
    obtain ⟨a, ha, hmem⟩ := getElem?_of_lt (mem_indices.1 (h.mem_iff.1 hi))
    exact ⟨a, hmem, atomVariables_eq ha ▸ hv⟩
  · rintro ⟨a, hmem, hv⟩
    obtain ⟨i, hi, rfl⟩ := List.getElem_of_mem hmem
    have ha := List.getElem?_eq_getElem hi
    exact ⟨i, h.mem_iff.2 (mem_indices.2 hi), atomVariables_eq ha ▸ hv⟩

/-! ## Links between atoms -/

theorem linked_iff : q.linked bound i j = true ↔
    i ≠ j ∧ ∃ v, v ∈ q.atomVariables i ∧ v ∈ q.atomVariables j ∧ v ∉ bound := by
  unfold linked shared
  by_cases h : i = j
  · simp [h]
  · simp [h]

theorem linked_comm (bound : List Variable) (i j : Nat) :
    q.linked bound i j = q.linked bound j i := by
  rw [Bool.eq_iff_iff, linked_iff, linked_iff]
  exact and_congr ne_comm (exists_congr fun v => and_left_comm)

/-- Only which variables are bound matters. -/
theorem linked_congr (h : ∀ v, v ∈ bound ↔ v ∈ bound') : q.linked bound = q.linked bound' := by
  funext i j
  rw [Bool.eq_iff_iff, linked_iff, linked_iff]
  simp only [h]

end QueryGraph
end JoinOrder
