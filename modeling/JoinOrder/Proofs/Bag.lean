import Mathlib.Algebra.BigOperators.Group.List.Basic
import Mathlib.Data.Multiset.Bind
import JoinOrder.Variable

/-!
# Natural joins

Rows of a query are partial maps from variables to values. The natural join of two multisets of
rows consists of the unions of those that agree wherever both have a value. It is commutative and
associative, so a query has one result, whatever the order of the joins.
-/

namespace JoinOrder

/-- A row as a partial map. -/
abbrev View (κ : Type) := Variable → Option κ

namespace View

variable {κ : Type} {f g h : View κ}

def empty : View κ := fun _ => none

/-- No variable has two different values. -/
def Agree (f g : View κ) : Prop := ∀ v x y, f v = some x → g v = some y → x = y

/-- The values of both, where the first one prevails. -/
def union (f g : View κ) : View κ := fun v => (f v).or (g v)

theorem Agree.symm (H : Agree f g) : Agree g f := fun v x y hx hy => (H v y x hy hx).symm

theorem agree_comm : Agree f g ↔ Agree g f := ⟨.symm, .symm⟩

theorem empty_agree (f : View κ) : Agree empty f := nofun

@[simp] theorem empty_union (f : View κ) : union empty f = f := rfl

theorem union_assoc (f g h : View κ) : union (union f g) h = union f (union g h) := by
  funext v
  simp only [union, Option.or_assoc]

theorem Agree.union_comm (H : Agree f g) : union f g = union g f := by
  funext v
  cases hf : f v with
  | none => simp [union, hf]
  | some x =>
    cases hg : g v with
    | none => simp [union, hf, hg]
    | some y => simp [union, hf, hg, H v x y hf hg]

theorem union_eq_some_left {v : Variable} {x : κ} (hf : f v = some x) : union f g v = some x := by
  simp [union, hf]

/-- Every value of the first row is one of the second. -/
def Within (f g : View κ) : Prop := ∀ v x, f v = some x → g v = some x

theorem Within.union (H : Within f g) (h : View κ) : Within f (g.union h) :=
  fun v x hx => union_eq_some_left (H v x hx)

theorem Within.agree (H : Within f g) : Agree g f :=
  fun v _ y hx hy => Option.some.inj (hx ▸ H v y hy)

/-- What agrees with a row agrees with what the row contains. -/
theorem Agree.of_within (H : Agree g h) (hw : Within f g) : Agree f h :=
  fun v x y hx hy => H v x y (hw v x hx) hy

theorem Within.union_eq (H : Within f g) : g.union f = g := by
  funext v
  cases hg : g v with
  | some x => exact union_eq_some_left hg
  | none =>
    cases hf : f v with
    | none => simp [View.union, hf, hg]
    | some y =>
      rw [H v y hf] at hg
      cases hg

theorem union_agree (H : Agree f g) : Agree (union f g) h ↔ Agree f h ∧ Agree g h := by
  constructor
  · intro hu
    refine ⟨fun v x y hx hy => hu v x y (union_eq_some_left hx) hy, fun v x y hx hy => ?_⟩
    exact hu v x y (H.union_comm ▸ union_eq_some_left hx) hy
  · rintro ⟨hf, hg⟩ v x y hx hy
    rcases Option.or_eq_some_iff.1 hx with hx | ⟨-, hx⟩
    · exact hf v x y hx hy
    · exact hg v x y hx hy

theorem agree_union (H : Agree g h) : Agree f (union g h) ↔ Agree f g ∧ Agree f h := by
  rw [agree_comm, union_agree H, agree_comm, agree_comm (f := h)]

end View

/-! ## Multisets of rows -/

open Classical in
/-- The natural join. -/
noncomputable def naturalJoin {κ : Type} (s t : Multiset (View κ)) : Multiset (View κ) :=
  s.bind fun f => t.bind fun g => if f.Agree g then {f.union g} else 0

section

variable {κ : Type} (s t u : Multiset (View κ)) (f : View κ)

theorem naturalJoin_comm : naturalJoin s t = naturalJoin t s := by
  unfold naturalJoin
  rw [Multiset.bind_bind]
  refine Multiset.bind_congr fun g _ => Multiset.bind_congr fun f _ => ?_
  by_cases H : f.Agree g
  · rw [if_pos H, if_pos H.symm, H.union_comm]
  · rw [if_neg H, if_neg (mt View.Agree.symm H)]

open Classical in
/-- Both ways to join three multisets take the rows that agree in pairs. -/
theorem naturalJoin_left : naturalJoin (naturalJoin s t) u = s.bind fun f => t.bind fun g =>
    u.bind fun h => if f.Agree g ∧ f.Agree h ∧ g.Agree h then {f.union (g.union h)} else 0 := by
  unfold naturalJoin
  simp only [Multiset.bind_assoc]
  refine Multiset.bind_congr fun f _ => Multiset.bind_congr fun g _ => ?_
  by_cases H : f.Agree g
  · rw [if_pos H, Multiset.singleton_bind]
    refine Multiset.bind_congr fun h _ => ?_
    simp only [View.union_agree H, H, true_and, View.union_assoc]
  · simp [H]

open Classical in
theorem naturalJoin_right : naturalJoin s (naturalJoin t u) = s.bind fun f => t.bind fun g =>
    u.bind fun h => if f.Agree g ∧ f.Agree h ∧ g.Agree h then {f.union (g.union h)} else 0 := by
  unfold naturalJoin
  simp only [Multiset.bind_assoc]
  refine Multiset.bind_congr fun f _ => Multiset.bind_congr fun g _ => ?_
  refine Multiset.bind_congr fun h _ => ?_
  by_cases H : g.Agree h
  · rw [if_pos H, Multiset.singleton_bind]
    simp only [View.agree_union H, H, and_true]
  · simp [H]

theorem empty_join : naturalJoin {View.empty} s = s := by
  unfold naturalJoin
  simp only [Multiset.singleton_bind, View.empty_agree, if_true, View.empty_union]
  exact (Multiset.bind_singleton s id).trans (Multiset.map_id s)

/-- The multisets of rows under the natural join. A single empty row leaves all others as they
are. -/
noncomputable instance : CommMonoid (Multiset (View κ)) where
  mul := naturalJoin
  one := {View.empty}
  mul_assoc s t u := (naturalJoin_left s t u).trans (naturalJoin_right s t u).symm
  mul_comm := naturalJoin_comm
  one_mul := empty_join
  mul_one s := (naturalJoin_comm s _).trans (empty_join s)

@[simp] theorem zero_join : 0 * t = (0 : Multiset (View κ)) := rfl

theorem add_join : (s + t) * u = s * u + t * u := Multiset.add_bind s t _

theorem join_add : u * (s + t) = u * s + u * t := by
  rw [mul_comm, add_join, mul_comm s, mul_comm t]

theorem join_eq_bind : s * t = s.bind fun f => {f} * t := by
  induction s using Multiset.induction with
  | empty => rfl
  | cons f s ih => rw [← Multiset.singleton_add, add_join, Multiset.add_bind, ih,
      Multiset.singleton_bind]

open Classical in
theorem single_join : {f} * t = (t.filter f.Agree).map f.union := by
  change naturalJoin _ _ = _
  unfold naturalJoin
  rw [Multiset.singleton_bind]
  induction t using Multiset.induction with
  | empty => rfl
  | cons g t ih =>
    rw [Multiset.cons_bind, ih]
    by_cases H : f.Agree g <;> simp [H]

theorem mem_single_join {f g : View κ} {t : Multiset (View κ)} :
    g ∈ {f} * t ↔ ∃ h ∈ t, f.Agree h ∧ f.union h = g := by
  classical
  rw [single_join, Multiset.mem_map]
  simp only [Multiset.mem_filter, and_assoc]

theorem single_join_of_agree {f g : View κ} (H : f.Agree g) :
    {f} * {g} = ({f.union g} : Multiset (View κ)) := by
  classical
  rw [single_join, Multiset.filter_singleton, if_pos H, Multiset.map_singleton]

theorem single_join_of_not_agree {f g : View κ} (H : ¬f.Agree g) :
    {f} * {g} = (0 : Multiset (View κ)) := by
  classical
  rw [single_join, Multiset.filter_singleton, if_neg H]
  rfl

/-- Joining a row with a part of it leaves it as it is. -/
theorem single_join_of_within {f g : View κ} (H : f.Within g) :
    {g} * {f} = ({g} : Multiset (View κ)) := by
  rw [single_join_of_agree H.agree, H.union_eq]

end

end JoinOrder
