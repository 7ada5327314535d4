import Mathlib.Data.List.Nodup
import Mathlib.Data.String.Basic
import JoinOrder.Estimation.Binding

/-!
# Bound variables

Sorting variables neither adds nor drops any, and sorted variables only depend on which ones they
are. A variable is bound under a binding exactly if it has a known value or has been bound
symbolically.
-/

namespace JoinOrder

variable {v : Variable} {vars : List Variable}

theorem NameSet.mem_insert {name first : Name} {names : NameSet} :
    name ∈ insert first names ↔ name = first ∨ name ∈ names := by
  induction names with
  | nil => simp [insert]
  | cons other rest ih =>
    rw [insert]
    split
    · rw [List.mem_cons]
    split
    · next h =>
      rw [List.mem_cons, ← h]
      simp
    · rw [List.mem_cons, List.mem_cons, ih]
      exact or_left_comm

theorem NameSet.mem_ofList {name : Name} {names : List Name} :
    name ∈ ofList names ↔ name ∈ names := by
  induction names with
  | nil => simp [ofList]
  | cons first rest ih =>
    rw [List.mem_cons, ← ih]
    exact mem_insert

/-! ## The order of names -/

namespace Name

variable {a b c : Name}

theorem trichotomy (a b : Name) : a < b ∨ a = b ∨ b < a := by
  cases a with
  | text a =>
    cases b with
    | text b =>
      rcases lt_trichotomy a b with h | rfl | h
      · exact .inl (decide_eq_true h)
      · exact .inr (.inl rfl)
      · exact .inr (.inr (decide_eq_true h))
    | key b => exact .inl rfl
  | key a =>
    cases b with
    | text b => exact .inr (.inr rfl)
    | key b =>
      rcases lt_trichotomy a b with h | rfl | h
      · exact .inl (decide_eq_true h)
      · exact .inr (.inl rfl)
      · exact .inr (.inr (decide_eq_true h))

theorem lt_asymm (h : a < b) : ¬b < a := by
  intro h'
  cases a with
  | text a =>
    cases b with
    | text b => exact String.lt_asymm (of_decide_eq_true h) (of_decide_eq_true h')
    | key b => cases h'
  | key a =>
    cases b with
    | text b => cases h
    | key b => exact String.lt_asymm (of_decide_eq_true h) (of_decide_eq_true h')

theorem lt_trans (h : a < b) (h' : b < c) : a < c := by
  cases a with
  | text a =>
    cases c with
    | key c => rfl
    | text c =>
      cases b with
      | text b =>
        exact decide_eq_true (String.lt_trans (of_decide_eq_true h) (of_decide_eq_true h'))
      | key b => cases h'
  | key a =>
    cases b with
    | text b => cases h
    | key b =>
      cases c with
      | text c => cases h'
      | key c => exact decide_eq_true (String.lt_trans (of_decide_eq_true h) (of_decide_eq_true h'))

end Name

namespace NameSet

variable {name : Name} {names others : List Name}

theorem pairwise_insert (h : names.Pairwise (· < ·)) : (insert name names).Pairwise (· < ·) := by
  induction names with
  | nil => exact List.pairwise_singleton _ _
  | cons first rest ih =>
    rw [List.pairwise_cons] at h
    rw [insert]
    split
    · next hlt =>
      refine List.pairwise_cons.2 ⟨?_, List.pairwise_cons.2 h⟩
      rw [List.forall_mem_cons]
      exact ⟨hlt, fun other ho => Name.lt_trans hlt (h.1 other ho)⟩
    next hlt =>
    split
    · exact List.pairwise_cons.2 h
    next hne =>
    refine List.pairwise_cons.2 ⟨fun other ho => ?_, ih h.2⟩
    rcases mem_insert.1 ho with rfl | ho
    · exact ((Name.trichotomy other first).resolve_left hlt).resolve_left hne
    · exact h.1 other ho

/-- A set of names is in increasing order. -/
theorem pairwise_ofList : (ofList names).Pairwise (· < ·) := by
  induction names with
  | nil => exact .nil
  | cons name rest ih => exact pairwise_insert ih

theorem ofList_eq_self (h : names.Pairwise (· < ·)) : ofList names = names := by
  induction names with
  | nil => rfl
  | cons name rest ih =>
    rw [List.pairwise_cons] at h
    rw [ofList, List.foldr_cons, ← ofList, ih h.2]
    cases rest with
    | nil => rfl
    | cons first rest => exact if_pos (h.1 first List.mem_cons_self)

end NameSet

/-- Variables in increasing order of their names. -/
def Variable.Increasing (vars : List Variable) : Prop := vars.Pairwise fun v w => v.name < w.name

theorem Variable.increasing_sorted : Increasing (sorted vars) :=
  List.pairwise_map.2 NameSet.pairwise_ofList

/-- Variables in increasing order only depend on which ones they are. -/
theorem Variable.Increasing.eq {others : List Variable} (hv : Increasing vars)
    (ho : Increasing others)
    (h : ∀ v, v ∈ vars ↔ v ∈ others) : vars = others := by
  have hnodup : ∀ {vars}, Increasing vars → vars.Nodup := by
    intro vars hv
    refine hv.imp fun {v w} hlt heq => ?_
    subst heq
    exact Name.lt_asymm hlt hlt
  exact List.Perm.eq_of_pairwise (fun _ _ _ _ hab hba => (Name.lt_asymm hab hba).elim) hv ho
    ((List.perm_ext_iff_of_nodup (hnodup hv) (hnodup ho)).2 h)

theorem Variable.mem_sorted : v ∈ sorted vars ↔ v ∈ vars := by
  obtain ⟨name⟩ := v
  simp only [sorted, names, List.mem_map, NameSet.mem_ofList]
  constructor
  · rintro ⟨_, ⟨w, hw, rfl⟩, h⟩
    cases h
    exact hw
  · exact fun h => ⟨name, ⟨⟨name⟩, h, rfl⟩, rfl⟩

namespace Binding

variable {b : Binding} {values constants : Assignment} {symbolic : List Variable}

theorem isBound_iff : b.isBound v = true ↔ v ∈ b.values.vars ∨ v ∈ b.symbolic := by
  simp [isBound, isKnown]

theorem mem_boundVariables : v ∈ b.boundVariables ↔ b.isBound v = true := by
  rw [boundVariables, Variable.mem_sorted, List.mem_append, isBound_iff]

theorem isBound_ofParts :
    (ofParts values symbolic).isBound v = true ↔ v ∈ values.vars ∨ v ∈ symbolic := by
  rw [isBound_iff, ofParts, List.mem_filter, Variable.mem_sorted, decide_eq_true_iff]
  by_cases h : v ∈ values.vars
  · simp [h]
  · simp [h]

/-- A binding only depends on which variables without a known value are bound. -/
theorem ofParts_congr {others : List Variable}
    (h : ∀ v, v ∉ values.vars → (v ∈ symbolic ↔ v ∈ others)) :
    ofParts values symbolic = ofParts values others := by
  refine congrArg (Binding.mk values) ?_
  refine Variable.Increasing.eq (Variable.increasing_sorted.filter _)
    (Variable.increasing_sorted.filter _) fun v => ?_
  simp only [List.mem_filter, Variable.mem_sorted, decide_eq_true_eq]
  exact and_congr_left (h v)

/-- Variables are bound one after the other as they are all at once. -/
theorem ofParts_bind : (ofParts values symbolic).bind vars = ofParts values (symbolic ++ vars) := by
  refine ofParts_congr fun v hv => ?_
  rw [List.mem_append, List.mem_append, ofParts, List.mem_filter, Variable.mem_sorted,
    decide_eq_true_iff]
  exact or_congr_left (and_iff_left hv)

@[simp] theorem values_ofConstants : (ofConstants constants).values = constants := rfl

@[simp] theorem values_bind : (b.bind vars).values = b.values := rfl

theorem isBound_ofConstants : (ofConstants constants).isBound v = true ↔ v ∈ constants.vars := by
  simp [ofConstants, isBound_ofParts]

/-- Binding variables binds these and no others. -/
theorem isBound_bind : (b.bind vars).isBound v = true ↔ b.isBound v = true ∨ v ∈ vars := by
  rw [bind, isBound_ofParts, List.mem_append, isBound_iff, or_assoc]

end Binding
end JoinOrder
