import Mathlib.Data.List.Nodup
import JoinOrder.Proofs.Checked
import JoinOrder.Source.Scan

/-!
# Values under names

Named values are looked up like a finite map. `NamedValues.holds` says that a tuple, whose values
have names, has some values.
-/

namespace JoinOrder
namespace NamedValues

variable {b c : NamedValues} {name n : Name} {columns key : List Name} {v x : Value}
  {t : List Value}

@[simp] theorem names_nil : names [] = [] := rfl

@[simp] theorem names_cons (e : Name × Value) : names (e :: b) = e.1 :: b.names := rfl

theorem lookup_cons (e : Name × Value) :
    List.lookup name (e :: b) = if name = e.1 then some e.2 else b.lookup name := by
  obtain ⟨n, v⟩ := e
  rw [List.lookup_cons]
  by_cases h : name = n
  · simp [h]
  · simp [beq_false_of_ne h, h]

theorem lookup_isSome_iff : (b.lookup name).isSome ↔ name ∈ b.names := by
  rw [List.lookup_isSome_iff, names, List.mem_map]
  exact exists_congr fun e => and_congr_right fun _ => beq_iff_eq.trans eq_comm

theorem exists_lookup (h : name ∈ b.names) : ∃ v, b.lookup name = some v :=
  Option.isSome_iff_exists.1 (lookup_isSome_iff.2 h)

theorem mem_of_lookup (h : b.lookup name = some v) : (name, v) ∈ b := by
  obtain ⟨before, behind, rfl, -⟩ := List.lookup_eq_some_iff.1 h
  simp

theorem lookup_of_mem (hd : b.names.Nodup) (h : (name, v) ∈ b) : b.lookup name = some v := by
  induction b with
  | nil => cases h
  | cons e b ih =>
    rw [names_cons, List.nodup_cons] at hd
    rw [lookup_cons]
    rcases List.mem_cons.1 h with rfl | h
    · exact if_pos rfl
    · rw [if_neg, ih hd.2 h]
      rintro rfl
      exact hd.1 (List.mem_map.2 ⟨_, h, rfl⟩)

theorem get_eq_ok : b.get name = .ok v ↔ b.lookup name = some v := by
  rw [get]
  cases b.lookup name <;> simp

/-- The values under names that are all bound. -/
theorem mapM_get (h : ∀ name ∈ key, name ∈ b.names) : ∃ vs, key.mapM b.get = .ok vs ∧
    List.Forall₂ (fun name v => b.lookup name = some v) key vs := by
  simp only [Checked.mapM_eq_ok, get_eq_ok, and_self]
  induction key with
  | nil => exact ⟨[], .nil⟩
  | cons name key ih =>
    rw [List.forall_mem_cons] at h
    obtain ⟨v, hv⟩ := exists_lookup h.1
    obtain ⟨vs, hvs⟩ := ih h.2
    exact ⟨v :: vs, .cons hv hvs⟩

theorem mem_restrict {e : Name × Value} : e ∈ b.restrict columns ↔ e ∈ b ∧ e.1 ∈ columns := by
  rw [restrict, List.mem_filter, decide_eq_true_iff]

theorem names_restrict : ∀ name ∈ (b.restrict columns).names, name ∈ columns := fun name hn => by
  obtain ⟨e, he, rfl⟩ := List.mem_map.1 hn
  exact (mem_restrict.1 he).2

theorem names_restrict_eq : (b.restrict columns).names = b.names.filter (· ∈ columns) := by
  rw [names, names, List.filter_map]
  rfl

theorem nodup_restrict (h : b.names.Nodup) : (b.restrict columns).names.Nodup :=
  h.sublist (List.filter_sublist.map Prod.fst)

/-- The values of a tuple under its names. -/
theorem lookup_zip (h : name ∈ columns) :
    List.lookup name (columns.zip t) = t[columns.idxOf name]? := by
  induction columns generalizing t with
  | nil => cases h
  | cons n columns ih =>
    cases t with
    | nil => simp
    | cons x t =>
      rw [List.zip_cons_cons, lookup_cons]
      by_cases hn : name = n
      · simp [hn]
      · rw [if_neg hn, ih ((List.mem_cons.1 h).resolve_left hn), List.idxOf_cons_ne _ (Ne.symm hn),
          List.getElem?_cons_succ]

theorem lookup_zip_eq_none (h : name ∉ columns) : List.lookup name (columns.zip t) = none := by
  rw [← Option.not_isSome_iff_eq_none, lookup_isSome_iff]
  intro hmem
  obtain ⟨e, he, rfl⟩ := List.mem_map.1 hmem
  exact h (List.of_mem_zip he).1

theorem names_zip (h : columns.length ≤ t.length) : names (columns.zip t) = columns :=
  List.map_fst_zip h

theorem lookup_set : (b.set n x).lookup name = if name = n then some x else b.lookup name := by
  induction b with
  | nil => rw [set, lookup_cons]
  | cons e b ih =>
    obtain ⟨m, y⟩ := e
    rw [set]
    by_cases h : m = n
    · subst h
      rw [if_pos rfl, lookup_cons, lookup_cons]
      split <;> rfl
    · rw [if_neg h, lookup_cons, lookup_cons, ih]
      by_cases hm : name = m
      · subst hm
        simp [h]
      · simp [hm]

/-- Values that are bound one after the other hide those that were there before. -/
theorem lookup_foldl_set (h : c.names.Nodup) :
    (c.foldl (fun all (n, v) => set all n v) b).lookup name =
      (c.lookup name).or (b.lookup name) := by
  induction c generalizing b with
  | nil => rfl
  | cons e c ih =>
    rw [names_cons, List.nodup_cons] at h
    rw [List.foldl_cons, ih h.2, lookup_set, lookup_cons]
    by_cases hn : name = e.1
    · have hc : c.lookup name = none := by
        rw [← Option.not_isSome_iff_eq_none, lookup_isSome_iff, hn]
        exact h.1
      rw [if_pos hn, if_pos hn, hc]
      rfl
    · rw [if_neg hn, if_neg hn]

/-- Whether a tuple with these names has some values. -/
def holds (columns : List Name) (b : NamedValues) (t : List Value) : Bool :=
  b.all fun e => (t[columns.idxOf e.1]?).any (Value.eq · e.2)

theorem holds_iff : b.holds columns t = true ↔
    ∀ e ∈ b, ∃ x, t[columns.idxOf e.1]? = some x ∧ Value.eq x e.2 = true := by
  simp only [holds, List.all_eq_true, Option.any_eq_true]

/-- The values that a tuple has under the bound names. -/
def valuesIn (b : NamedValues) (columns : List Name) (t : List Value) : NamedValues :=
  b.map fun e => (e.1, (t[columns.idxOf e.1]?).getD .null)

@[simp] theorem names_valuesIn : (b.valuesIn columns t).names = b.names := by
  simp [valuesIn, names]

/-- Without values all tuples are found. -/
theorem filter_holds_nil (ts : List (List Value)) : ts.filter (holds columns []) = ts :=
  List.filter_eq_self.2 fun _ _ => rfl

end NamedValues
end JoinOrder
