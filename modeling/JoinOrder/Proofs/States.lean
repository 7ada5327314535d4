import JoinOrder.Plan.States
import JoinOrder.Proofs.Checked

/-!
# States of atoms

Bindings only grow, so an atom that has joined the frontier keeps its bound variable (`Coherent`).
After an advance the frontier therefore consists of exactly those remaining atoms that have a bound
variable now.
-/

namespace JoinOrder
namespace AtomStates

variable {s : AtomStates} {touched touched' : Nat → Bool} {atoms : List Nat} {i : Nat}

/-! ## Atoms that remain -/

theorem mem_remaining : i ∈ s.remaining ↔ i ∈ s.atoms ∧ s.state i ≠ .resolved := by
  rw [remaining, List.mem_filter, decide_eq_true_iff]

@[simp] theorem remaining_start : (start atoms).remaining = atoms :=
  List.filter_eq_self.2 fun _ _ => decide_eq_true AtomState.noConfusion

/-- Advancing resolves no atom. -/
theorem state_advance_eq_resolved : (s.advance touched).state i = .resolved ↔
    s.state i = .resolved := by
  unfold advance
  dsimp only
  split
  · next h =>
    rw [h.1]
    exact ⟨AtomState.noConfusion, AtomState.noConfusion⟩
  · exact Iff.rfl

@[simp] theorem remaining_advance : (s.advance touched).remaining = s.remaining :=
  List.filter_congr fun _ _ => decide_eq_decide.2 state_advance_eq_resolved.not

theorem state_resolve_ne (j : Nat) : (s.resolve i).state j ≠ .resolved ↔
    j ≠ i ∧ s.state j ≠ .resolved := by
  unfold resolve
  dsimp only
  split
  · next h => exact ⟨fun hr => (hr rfl).elim, fun hr => (hr.1 h).elim⟩
  · next h => exact ⟨fun hr => ⟨h, hr⟩, And.right⟩

@[simp] theorem remaining_resolve : (s.resolve i).remaining = s.remaining.filter (· ≠ i) := by
  rw [remaining, remaining, List.filter_filter]
  refine List.filter_congr fun j _ => ?_
  rw [← Bool.decide_and]
  exact decide_eq_decide.2 (state_resolve_ne j)

theorem length_resolve (hn : s.remaining.Nodup) (hi : i ∈ s.remaining) :
    (s.resolve i).remaining.length + 1 = s.remaining.length := by
  have herase : s.remaining.filter (· ≠ i) = s.remaining.erase i := by
    rw [hn.erase_eq_filter]
    exact List.filter_congr fun j _ => decide_not
  rw [remaining_resolve, herase]
  exact List.length_erase_add_one hi

/-- An atom that remains has not been resolved before. -/
theorem requireOpen_eq_ok (h : i ∈ s.remaining) : s.requireOpen i = .ok () :=
  if_neg (mem_remaining.1 h).2

theorem candidates_subset : ∀ i ∈ s.candidates, i ∈ s.remaining := by
  intro i hi
  unfold candidates at hi
  split at hi
  · exact hi
  · exact List.mem_of_mem_filter hi

theorem candidates_ne_nil (h : s.remaining ≠ []) : s.candidates ≠ [] := by
  unfold candidates
  split
  · exact h
  · next hne => exact fun he => hne (List.isEmpty_iff.2 he)

/-! ## The frontier -/

/-- Atoms are on the frontier only if they are touched. -/
def Coherent (s : AtomStates) (touched : Nat → Bool) : Prop :=
  ∀ i, s.state i = .frontier → touched i = true

theorem coherent_start : (start atoms).Coherent touched := fun _ h => AtomState.noConfusion h

theorem Coherent.mono (H : s.Coherent touched) (h : ∀ i, touched i = true → touched' i = true) :
    s.Coherent touched' := fun i hi => h i (H i hi)

theorem Coherent.advance (H : s.Coherent touched) : (s.advance touched).Coherent touched := by
  intro i hi
  unfold AtomStates.advance at hi
  dsimp only at hi
  split at hi
  · next h => exact h.2
  · exact H i hi

theorem Coherent.resolve (H : s.Coherent touched) : (s.resolve i).Coherent touched := by
  intro j hj
  unfold AtomStates.resolve at hj
  dsimp only at hj
  split at hj
  · cases hj
  · exact H j hj

/-- After an advance, an atom that remains is on the frontier exactly if it is touched. -/
theorem Coherent.state_advance (H : s.Coherent touched) (hi : i ∈ s.remaining) :
    (s.advance touched).state i = .frontier ↔ touched i = true := by
  refine ⟨H.advance i, fun ht => ?_⟩
  unfold AtomStates.advance
  dsimp only
  cases hs : s.state i with
  | unresolved => exact if_pos ⟨rfl, ht⟩
  | frontier => exact if_neg fun h => AtomState.noConfusion h.1
  | resolved => exact ((mem_remaining.1 hi).2 hs).elim

theorem Coherent.frontier_advance (H : s.Coherent touched) :
    (s.advance touched).frontier = s.remaining.filter touched := by
  rw [frontier, remaining_advance]
  refine List.filter_congr fun i hi => ?_
  rw [Bool.eq_iff_iff, decide_eq_true_iff]
  exact H.state_advance hi

end AtomStates
end JoinOrder
