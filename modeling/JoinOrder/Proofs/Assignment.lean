import JoinOrder.Proofs.Bag
import JoinOrder.Proofs.ValueClass
import JoinOrder.Query.Atom

/-!
# Assignments as rows

`ValueClass.view` forgets the order and the form of the values of an assignment. Merging two
assignments that agree is the union of their views.
-/

namespace JoinOrder
namespace Assignment

variable {a b : Assignment} {v w : Variable} {x : Value}

@[simp] theorem vars_nil : vars [] = [] := rfl

@[simp] theorem vars_cons (e : Variable × Value) : vars (e :: a) = e.1 :: a.vars := rfl

@[simp] theorem get?_nil : get? [] v = none := rfl

theorem get?_cons (e : Variable × Value) :
    get? (e :: a) v = if v = e.1 then some e.2 else a.get? v := by
  obtain ⟨w, y⟩ := e
  unfold get?
  rw [List.lookup_cons]
  by_cases h : v = w
  · simp [h]
  · simp [beq_false_of_ne h, h]

theorem get?_eq_none_iff : a.get? v = none ↔ v ∉ a.vars := by
  induction a with
  | nil => simp
  | cons e a ih =>
    rw [get?_cons, vars_cons, List.mem_cons]
    by_cases h : v = e.1
    · simp [h]
    · rw [if_neg h, ih]
      simp [h]

theorem get?_isSome_iff : (a.get? v).isSome ↔ v ∈ a.vars := by
  rw [← Option.ne_none_iff_isSome, ne_eq, get?_eq_none_iff, not_not]

theorem mem_of_get? (h : a.get? v = some x) : (v, x) ∈ a := by
  induction a with
  | nil => cases h
  | cons e a ih =>
    rw [get?_cons] at h
    split at h
    · cases h
      subst v
      exact List.mem_cons_self
    · exact List.mem_cons_of_mem _ (ih h)

theorem get?_of_mem (hd : a.vars.Nodup) (h : (v, x) ∈ a) : a.get? v = some x := by
  induction a with
  | nil => cases h
  | cons e a ih =>
    have hd := List.nodup_cons.1 hd
    rw [get?_cons]
    rcases List.mem_cons.1 h with rfl | h
    · rw [if_pos rfl]
    · rw [if_neg, ih hd.2 h]
      rintro rfl
      exact hd.1 (List.mem_map.2 ⟨_, h, rfl⟩)

theorem get_eq_ok : a.get v = .ok x ↔ a.get? v = some x := by
  unfold get
  split <;> simp_all

theorem get?_set : (a.set v x).get? w = if w = v then some x else a.get? w := by
  induction a with
  | nil => rw [set, get?_cons]
  | cons e a ih =>
    obtain ⟨u, y⟩ := e
    rw [set]
    by_cases h : u = v
    · subst h
      rw [if_pos rfl, get?_cons, get?_cons]
      split <;> rfl
    · rw [if_neg h, get?_cons, get?_cons, ih]
      by_cases hw : w = u
      · subst hw
        simp [h]
      · simp [hw]

theorem vars_set : (a.set v x).vars = if v ∈ a.vars then a.vars else a.vars ++ [v] := by
  induction a with
  | nil => rfl
  | cons e a ih =>
    obtain ⟨u, y⟩ := e
    rw [set]
    by_cases h : u = v
    · subst h
      simp
    · rw [if_neg h, vars_cons, vars_cons, ih]
      by_cases hv : v ∈ vars a <;> simp [hv, Ne.symm h]

theorem nodup_set (h : a.vars.Nodup) : (a.set v x).vars.Nodup := by
  rw [vars_set]
  split
  · exact h
  · next hv => exact List.nodup_append_comm.1 (List.nodup_cons.2 ⟨hv, h⟩)

theorem mem_vars_set : w ∈ (a.set v x).vars ↔ w ∈ a.vars ∨ w = v := by
  rw [vars_set]
  split
  · next hv => exact ⟨.inl, fun h => h.elim id fun e => e ▸ hv⟩
  · simp

theorem merge_cons (e : Variable × Value) : a.merge (e :: b) = (a.set e.1 e.2).merge b := rfl

theorem mem_vars_merge : w ∈ (a.merge b).vars ↔ w ∈ a.vars ∨ w ∈ b.vars := by
  induction b generalizing a with
  | nil => simp [merge]
  | cons e b ih => rw [merge_cons, ih, mem_vars_set, or_assoc, vars_cons, List.mem_cons]

theorem nodup_merge (h : a.vars.Nodup) : (a.merge b).vars.Nodup := by
  induction b generalizing a with
  | nil => exact h
  | cons e b ih => exact ih (nodup_set h)

theorem get?_merge (h : b.vars.Nodup) : (a.merge b).get? v = (b.get? v).or (a.get? v) := by
  induction b generalizing a with
  | nil => rfl
  | cons e b ih =>
    have h := List.nodup_cons.1 h
    rw [merge_cons, ih h.2, get?_set, get?_cons]
    by_cases hv : v = e.1
    · subst hv
      rw [if_pos rfl, if_pos rfl, get?_eq_none_iff.2 h.1]
      rfl
    · rw [if_neg hv, if_neg hv]

/-- Each variable has a value that it may have. -/
def Takes (T : Variable → Value → Prop) (a : Assignment) : Prop := ∀ v x, a.get? v = some x → T v x

theorem Takes.merge {T : Variable → Value → Prop} (H : a.Takes T) (H' : b.Takes T)
    (h : b.vars.Nodup) : (a.merge b).Takes T := by
  intro v x hx
  rw [get?_merge h] at hx
  rcases Option.or_eq_some_iff.1 hx with hx | ⟨-, hx⟩
  · exact H' v x hx
  · exact H v x hx

end Assignment

namespace ValueClass

variable {κ : Type} (K : ValueClass κ) {a b : Assignment} {vars ws : List Variable} {v : Variable}

/-- An assignment up to equality of its values. -/
def view (a : Assignment) : View κ := fun v => (a.get? v).map K.code

/-- An assignment gives a value of the class to each of some variables, and to no others. -/
structure Assigns (vars : List Variable) (a : Assignment) : Prop where
  nodup : a.vars.Nodup
  mem_vars : ∀ v, v ∈ a.vars ↔ v ∈ vars
  carrier : ∀ v x, a.get? v = some x → K.carrier x

variable {K}

theorem view_eq_none_iff : K.view a v = none ↔ v ∉ a.vars := by
  rw [view, Option.map_eq_none_iff, Assignment.get?_eq_none_iff]

theorem Assigns.congr (H : K.Assigns vars a) (h : ∀ v, v ∈ vars ↔ v ∈ ws) : K.Assigns ws a :=
  ⟨H.nodup, fun v => (H.mem_vars v).trans (h v), H.carrier⟩

theorem Assigns.get? (H : K.Assigns vars a) (h : v ∈ vars) :
    ∃ x, a.get? v = some x ∧ K.carrier x := by
  have hs := Assignment.get?_isSome_iff.2 ((H.mem_vars v).2 h)
  obtain ⟨x, hx⟩ := Option.isSome_iff_exists.1 hs
  exact ⟨x, hx, H.carrier v x hx⟩

theorem Assigns.merge (H : K.Assigns vars a) (H' : K.Assigns ws b) :
    K.Assigns (vars ++ ws) (a.merge b) where
  nodup := Assignment.nodup_merge H.nodup
  mem_vars v := by
    rw [Assignment.mem_vars_merge, H.mem_vars, H'.mem_vars, List.mem_append]
  carrier := Assignment.Takes.merge H.carrier H'.carrier H'.nodup

theorem view_merge (h : b.vars.Nodup) (H : (K.view a).Agree (K.view b)) :
    K.view (a.merge b) = (K.view a).union (K.view b) := by
  rw [H.union_comm]
  funext v
  rw [view, Assignment.get?_merge h, View.union, Option.map_or]
  rfl

/-- Two assignments agree if they do on the variables that they have in common. -/
theorem agree_iff (H : K.Assigns vars a) :
    (K.view a).Agree (K.view b) ↔ ∀ v ∈ vars, v ∈ b.vars → K.view a v = K.view b v := by
  constructor
  · intro h v hv hb
    obtain ⟨x, hx⟩ := Option.ne_none_iff_exists'.1
      (mt view_eq_none_iff.1 (not_not.2 ((H.mem_vars v).2 hv)) : K.view a v ≠ none)
    obtain ⟨y, hy⟩ := Option.ne_none_iff_exists'.1
      (mt view_eq_none_iff.1 (not_not.2 hb) : K.view b v ≠ none)
    rw [hx, hy, h v x y hx hy]
  · intro h v x y hx hy
    have ha : v ∈ vars := by
      by_contra hn
      rw [view_eq_none_iff.2 (mt (H.mem_vars v).1 hn)] at hx
      cases hx
    have hb : v ∈ b.vars := by
      by_contra hn
      rw [view_eq_none_iff.2 hn] at hy
      cases hy
    exact Option.some.inj (hx ▸ hy ▸ h v ha hb)

/-- The views of a list of assignments, as a multiset. -/
def bag (K : ValueClass κ) (rows : List Assignment) : Multiset (View κ) := rows.map K.view

@[simp] theorem bag_nil : K.bag [] = 0 := rfl

@[simp] theorem bag_cons (rows : List Assignment) :
    K.bag (a :: rows) = K.view a ::ₘ K.bag rows := rfl

theorem bag_append (rows more : List Assignment) :
    K.bag (rows ++ more) = K.bag rows + K.bag more := by
  simp [bag]

theorem bag_eq_iff {rows more : List Assignment} :
    K.bag rows = K.bag more ↔ (rows.map K.view).Perm (more.map K.view) := Multiset.coe_eq_coe

end ValueClass
end JoinOrder
