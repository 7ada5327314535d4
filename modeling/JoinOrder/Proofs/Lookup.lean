import Mathlib.Data.List.Perm.Basic
import JoinOrder.Proofs.Atom
import JoinOrder.Proofs.NamedValues
import JoinOrder.Proofs.Rows

/-!
# Lookups

What queries rely on is that a lookup filters the tuples of its relation. `Relation.Answers` says
so of the tuples themselves; `Relation.Filters` only asks for equal values, and only where all
values belong to a class. A listed relation answers with its rows.
-/

namespace JoinOrder

/-- Checks on positions that a row has are decided. -/
theorem Source.agrees_eq {row : List Value} {checks : List (Nat × Value)}
    (h : ∀ c ∈ checks, c.1 < row.length) :
    Source.agrees row checks = .ok (checks.all fun c => (row[c.1]?).any (Value.eq · c.2)) := by
  induction checks with
  | nil => rfl
  | cons c rest ih =>
    obtain ⟨i, v⟩ := c
    rw [List.forall_mem_cons] at h
    have hx := List.getElem?_eq_getElem h.1
    rw [agrees, atPosition_eq_ok.2 hx, Checked.bind_ok, List.all_cons, hx, Option.any_some]
    split
    · next he => rw [ih h.2, he, Bool.true_and]
    · next he => rw [Bool.eq_false_iff.2 he, Bool.false_and]; rfl

theorem requireAttributes_ok {attributes : List Name} {label : Label} {binding : NamedValues}
    (h : ∀ name ∈ binding.names, name ∈ attributes) :
    requireAttributes attributes label binding = .ok () := by
  have hf : binding.names.filter (· ∉ attributes) = [] := by simpa using h
  simp only [requireAttributes, hf, if_true]

namespace Relation

variable {r : Relation} {binding : NamedValues} {t : List Value} {tuples : List (List Value)}

/-- A lookup without values returns these tuples, and one with values those of them that have the
values, in any order. -/
structure Answers (r : Relation) (tuples : List (List Value)) : Prop where
  all : ∃ found, r.lookup [] = .ok found ∧ (found.rows ()).Yields tuples
  lookup : ∀ binding, binding.names.Nodup → (∀ name ∈ binding.names, name ∈ r.attributes) →
    ∃ found rows, r.lookup binding = .ok found ∧ (found.rows ()).Yields rows ∧
      rows.Perm (tuples.filter (binding.holds r.attributes))

/-- The same up to equality, for tuples and values of a class. -/
structure Filters {κ : Type} (K : ValueClass κ) (r : Relation) (tuples : List (List Value)) :
    Prop where
  fits : ∀ t ∈ tuples, K.Fits r.attributes t
  all : ∃ found, r.lookup [] = .ok found ∧ (found.rows ()).Yields tuples
  lookup : ∀ binding, binding.names.Nodup → (∀ name ∈ binding.names, name ∈ r.attributes) →
    (∀ e ∈ binding, K.carrier e.2) →
    ∃ found rows, r.lookup binding = .ok found ∧ (found.rows ()).Yields rows ∧
      (∀ t ∈ rows, K.Fits r.attributes t) ∧
      (rows.map K.codes).Perm ((tuples.filter (binding.holds r.attributes)).map K.codes)

/-- All tuples that are found for values of a class have a property. -/
def Finds {κ : Type} (K : ValueClass κ) (r : Relation) (P : List Value → Prop) : Prop :=
  ∀ binding found rows, binding.names.Nodup → (∀ name ∈ binding.names, name ∈ r.attributes) →
    (∀ e ∈ binding, K.carrier e.2) → r.lookup binding = .ok found → (found.rows ()).Yields rows →
    ∀ t ∈ rows, P t

theorem Finds.imp {κ : Type} {K : ValueClass κ} {P Q : List Value → Prop} (H : r.Finds K P)
    (h : ∀ t, P t → Q t) : r.Finds K Q := fun binding found rows hn hm hc hl hy t ht =>
  h t (H binding found rows hn hm hc hl hy t ht)

theorem Answers.filters {κ : Type} {K : ValueClass κ} (H : r.Answers tuples)
    (h : ∀ t ∈ tuples, K.Fits r.attributes t) : r.Filters K tuples where
  fits := h
  all := H.all
  lookup binding hn hm _ := by
    obtain ⟨found, rows, hl, hy, hp⟩ := H.lookup binding hn hm
    exact ⟨found, rows, hl, hy, fun t ht => h t (List.mem_of_mem_filter (hp.mem_iff.1 ht)),
      hp.map K.codes⟩

theorem Answers.finds {κ : Type} {K : ValueClass κ} {P : List Value → Prop} (H : r.Answers tuples)
    (h : ∀ t ∈ tuples, P t) : r.Finds K P := by
  intro binding found rows hn hm _ hl hy t ht
  obtain ⟨found', rows', hl', hy', hp⟩ := H.lookup binding hn hm
  cases hl.symm.trans hl'
  cases hy.unique hy'
  exact h t (List.mem_of_mem_filter (hp.mem_iff.1 ht))

/-- The tuples themselves are found without values. -/
theorem Filters.holds {κ : Type} {K : ValueClass κ} {P : List Value → Prop} (H : r.Filters K tuples)
    (h : r.Finds K P) : ∀ t ∈ tuples, P t := by
  obtain ⟨found, hl, hy⟩ := H.all
  exact h [] found tuples List.nodup_nil nofun nofun hl hy

end Relation

/-- A listed relation answers with its rows, if all of them are long enough. -/
theorem ListedRelation.answers {r : ListedRelation}
    (h : ∀ t ∈ r.rows, r.attributes.length ≤ t.length) : (Relation.listed r).Answers r.rows := by
  have hlookup : ∀ binding : NamedValues, (∀ name ∈ binding.names, name ∈ r.attributes) →
      ∃ found, r.lookup binding = .ok found ∧
        (found.rows ()).Yields (r.rows.filter (binding.holds r.attributes)) := by
    intro binding hm
    rw [lookup, requireAttributes_ok hm]
    refine ⟨_, rfl, ?_⟩
    rw [← List.filterMap_eq_filter]
    refine (Rows.yields_ofList r.rows).filterMap fun t ht => ?_
    rw [Source.agrees_eq, Checked.bind_ok]
    · simp only [List.all_map, Checked.pure_def]
      rfl
    · intro c hc
      obtain ⟨e, he, rfl⟩ := List.mem_map.1 hc
      exact Nat.lt_of_lt_of_le (List.idxOf_lt_length_iff.2 (hm e.1 (List.mem_map_of_mem he)))
        (h t ht)
  refine ⟨?_, fun binding _ hm => ?_⟩
  · obtain ⟨found, hl, hy⟩ := hlookup [] nofun
    exact ⟨found, hl, NamedValues.filter_holds_nil r.rows ▸ hy⟩
  · obtain ⟨found, hl, hy⟩ := hlookup binding hm
    exact ⟨found, _, hl, hy, .refl _⟩

end JoinOrder
