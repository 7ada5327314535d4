import Mathlib.Data.List.Forall2
import JoinOrder.Offset

/-!
# Results without a fault

When a chain of checked computations ends with a result, each of its parts has one.
-/

namespace JoinOrder

/-- In lists of one length each item on the right has one beside it. -/
theorem exists_mem_zip {α β : Type} {xs : List α} {ys : List β} {y : β}
    (h : xs.length = ys.length) (hy : y ∈ ys) : ∃ x, (x, y) ∈ xs.zip ys := by
  obtain ⟨i, hi, rfl⟩ := List.getElem_of_mem hy
  have hz : i < (xs.zip ys).length := by
    rw [List.length_zip]
    omega
  exact ⟨xs[i], List.getElem_zip (h := hz) ▸ List.getElem_mem hz⟩

theorem exists_of_forall₂ {α β : Type} {R : α → β → Prop} {xs : List α} {ys : List β} {y : β}
    (h : List.Forall₂ R xs ys) (hy : y ∈ ys) : ∃ x ∈ xs, R x y := by
  obtain ⟨x, hx⟩ := exists_mem_zip h.length_eq hy
  exact ⟨x, (List.of_mem_zip hx).1, List.forall₂_zip h hx⟩

namespace Checked

variable {α β : Type}

@[simp] theorem bind_ok (a : α) (f : α → Checked β) : ((.ok a : Checked α) >>= f) = f a := rfl

@[simp] theorem bind_error (e : Fault) (f : α → Checked β) :
    ((.error e : Checked α) >>= f) = .error e := rfl

@[simp] theorem pure_def (a : α) : (pure a : Checked α) = .ok a := rfl

@[simp] theorem throw_def (e : Fault) : (throw e : Checked α) = .error e := rfl

@[simp] theorem map_ok (f : α → β) (a : α) : (.ok a : Checked α).map f = .ok (f a) := rfl

theorem error_ne_ok {e : Fault} {a : α} : (.error e : Checked α) ≠ .ok a := nofun

theorem bind_eq_ok {x : Checked α} {f : α → Checked β} {b : β} :
    (x >>= f) = .ok b ↔ ∃ a, x = .ok a ∧ f a = .ok b := by
  cases x with
  | ok a => exact ⟨fun h => ⟨a, rfl, h⟩, fun ⟨_, rfl, h⟩ => h⟩
  | error e => exact ⟨nofun, fun ⟨_, h, _⟩ => nomatch h⟩

/-- A check in front of a computation. -/
theorem guard_eq_ok {c : Prop} [Decidable c] {e : Fault} {f : β → Checked α} {x : Checked α}
    {a : α} : (if c then throw e >>= f else x) = .ok a ↔ ¬c ∧ x = .ok a := by
  by_cases h : c
  · simp [h]
  · simp [h]

theorem map_eq_ok {x : Checked α} {f : α → β} {b : β} :
    x.map f = .ok b ↔ ∃ a, x = .ok a ∧ f a = b := by
  cases x with
  | ok a => simp
  | error e => exact ⟨nofun, fun ⟨_, h, _⟩ => nomatch h⟩

theorem mapM_eq_ok {f : α → Checked β} {xs : List α} {ys : List β} :
    xs.mapM f = .ok ys ↔ List.Forall₂ (fun x y => f x = .ok y) xs ys := by
  induction xs generalizing ys with
  | nil =>
    rw [List.mapM_nil, pure_def, List.forall₂_nil_left_iff]
    exact ⟨fun h => by cases h; rfl, fun h => h ▸ rfl⟩
  | cons x xs ih =>
    simp only [List.mapM_cons, bind_eq_ok, pure_def, List.forall₂_cons_left_iff]
    constructor
    · rintro ⟨y, hy, zs, hzs, h⟩
      cases h
      exact ⟨y, zs, hy, ih.1 hzs, rfl⟩
    · rintro ⟨y, zs, hy, hzs, rfl⟩
      exact ⟨y, hy, zs, ih.2 hzs, rfl⟩

theorem exists_of_mem_mapM {f : α → Checked β} {xs : List α} {ys : List β} {y : β}
    (h : xs.mapM f = .ok ys) (hy : y ∈ ys) : ∃ x ∈ xs, f x = .ok y :=
  exists_of_forall₂ (R := fun x y => f x = .ok y) (mapM_eq_ok.1 h) hy

/-- A computation that succeeds on each item succeeds on the list. -/
theorem mapM_of_forall {f : α → Checked β} {g : α → β} {xs : List α}
    (h : ∀ x ∈ xs, f x = .ok (g x)) : xs.mapM f = .ok (xs.map g) :=
  mapM_eq_ok.2 (List.forall₂_map_right_iff.2 (List.forall₂_same.2 h))

theorem exists_of_mem_filterMapM {f : α → Checked (Option β)} {xs : List α} {ys : List β} {y : β}
    (h : xs.filterMapM f = .ok ys) (hy : y ∈ ys) :
    ∃ x ∈ xs, f x = .ok (some y) := by
  induction xs generalizing ys with
  | nil =>
    cases h
    cases hy
  | cons x xs ih =>
    rw [List.filterMapM_cons] at h
    obtain ⟨o, ho, h⟩ := bind_eq_ok.1 h
    cases o with
    | none =>
      obtain ⟨x', hx', h'⟩ := ih h hy
      exact ⟨x', List.mem_cons_of_mem _ hx', h'⟩
    | some z =>
      obtain ⟨zs, hzs, h⟩ := bind_eq_ok.1 h
      cases h
      rcases List.mem_cons.1 hy with rfl | hy
      · exact ⟨x, List.mem_cons_self, ho⟩
      · obtain ⟨x', hx', h'⟩ := ih hzs hy
        exact ⟨x', List.mem_cons_of_mem _ hx', h'⟩

theorem forM_eq_ok {f : α → Checked Unit} {xs : List α} :
    xs.forM f = .ok () ↔ ∀ x ∈ xs, f x = .ok () := by
  induction xs with
  | nil => simp
  | cons x xs ih =>
    change (f x >>= fun _ => xs.forM f) = .ok () ↔ _
    rw [bind_eq_ok]
    simp only [ih, List.mem_cons, forall_eq_or_imp]
    constructor
    · rintro ⟨⟨⟩, hx, hs⟩
      exact ⟨hx, hs⟩
    · rintro ⟨hx, hs⟩
      exact ⟨(), hx, hs⟩

theorem exists_mapM {f : α → Checked β} {xs : List α} {P : β → Prop}
    (h : ∀ x ∈ xs, ∃ y, f x = .ok y ∧ P y) : ∃ ys, xs.mapM f = .ok ys ∧ ∀ y ∈ ys, P y := by
  induction xs with
  | nil => exact ⟨[], rfl, fun _ hy => (List.not_mem_nil hy).elim⟩
  | cons x xs ih =>
    rw [List.forall_mem_cons] at h
    obtain ⟨⟨y, hy, hp⟩, hxs⟩ := h
    obtain ⟨ys, hys, hps⟩ := ih hxs
    refine ⟨y :: ys, ?_, List.forall_mem_cons.2 ⟨hp, hps⟩⟩
    rw [List.mapM_cons, hy, bind_ok, hys, bind_ok, pure_def]

theorem exists_filterMapM {f : α → Checked (Option β)} {xs : List α}
    (h : ∀ x ∈ xs, ∃ o, f x = .ok o) : ∃ ys, xs.filterMapM f = .ok ys := by
  induction xs with
  | nil => exact ⟨[], rfl⟩
  | cons x xs ih =>
    rw [List.forall_mem_cons] at h
    obtain ⟨⟨o, ho⟩, hxs⟩ := h
    obtain ⟨ys, hys⟩ := ih hxs
    rw [List.filterMapM_cons, ho, bind_ok]
    cases o with
    | none => exact ⟨ys, hys⟩
    | some y => exact ⟨y :: ys, by rw [hys]; rfl⟩

/-- A test that succeeds on each item selects some of them. -/
theorem filterM_map {f : β → Checked Bool} {g : α → β} {p : α → Bool} {xs : List α}
    (h : ∀ x ∈ xs, f (g x) = .ok (p x)) : (xs.map g).filterM f = .ok ((xs.filter p).map g) := by
  have haux : ∀ found : List β,
      List.filterAuxM f (xs.map g) found = .ok (((xs.filter p).map g).reverse ++ found) := by
    induction xs with
    | nil => exact fun _ => rfl
    | cons x xs ih =>
      rw [List.forall_mem_cons] at h
      intro found
      rw [List.map_cons, List.filterAuxM, h.1, bind_ok, ih h.2, List.filter_cons]
      cases p x with
      | true => simp
      | false => simp
  rw [List.filterM, haux, bind_ok, List.append_nil, List.reverse_reverse, pure_def]

/-! ## Computations with some faults -/

variable {allowed : Fault → Prop} {P : α → Prop} {Q : β → Prop}

/-- A computation ends with a result of some kind, or with one of the allowed faults. -/
def Ends (allowed : Fault → Prop) (P : α → Prop) : Checked α → Prop
  | .ok a => P a
  | .error f => allowed f

theorem Ends.bind {x : Checked α} {f : α → Checked β} (hx : Ends allowed P x)
    (hf : ∀ a, P a → Ends allowed Q (f a)) : Ends allowed Q (x >>= f) := by
  cases x with
  | ok a => exact hf a hx
  | error e => exact hx

theorem Ends.imp {allowed' : Fault → Prop} {P' : α → Prop} {x : Checked α} (hx : Ends allowed P x)
    (hf : ∀ f, allowed f → allowed' f) (h : ∀ a, P a → P' a) : Ends allowed' P' x := by
  cases x with
  | ok a => exact h a hx
  | error e => exact hf e hx

theorem ends_of_ok {x : Checked α} (h : ∃ a, x = .ok a ∧ P a) : Ends allowed P x := by
  obtain ⟨a, rfl, ha⟩ := h
  exact ha

theorem ends_mapM {f : α → Checked β} {xs : List α} (h : ∀ x ∈ xs, Ends allowed Q (f x)) :
    Ends allowed (fun ys => ys.length = xs.length ∧ ∀ y ∈ ys, Q y) (xs.mapM f) := by
  induction xs with
  | nil => exact ⟨rfl, fun _ hy => (List.not_mem_nil hy).elim⟩
  | cons x xs ih =>
    rw [List.forall_mem_cons] at h
    rw [List.mapM_cons]
    refine h.1.bind fun y hy => (ih h.2).bind fun ys hys => ?_
    exact ⟨congrArg Nat.succ hys.1, List.forall_mem_cons.2 ⟨hy, hys.2⟩⟩

/-- Where each item ends with a result or an allowed fault, so does the list, with all results that
there are. -/
theorem ends_filterMapM {f : α → Checked (Option β)} {xs : List α}
    (h : ∀ x ∈ xs, Ends allowed (fun _ => True) (f x)) :
    Ends allowed (fun ys => ∀ x ∈ xs, ∀ y, f x = .ok (some y) → y ∈ ys) (xs.filterMapM f) := by
  induction xs with
  | nil => exact fun _ hx => (List.not_mem_nil hx).elim
  | cons x xs ih =>
    rw [List.forall_mem_cons] at h
    rw [List.filterMapM_cons]
    cases hx : f x with
    | error e =>
      rw [hx] at h
      exact h.1
    | ok o =>
      rw [bind_ok]
      cases o with
      | none =>
        have hxs := ih h.2
        cases hys : xs.filterMapM f with
        | error e => rwa [hys] at hxs
        | ok ys =>
          rw [hys] at hxs
          exact List.forall_mem_cons.2 ⟨fun y hy => (nomatch hx.symm.trans hy), hxs⟩
      | some z =>
        refine (ih h.2).bind fun ys hys => List.forall_mem_cons.2 ⟨fun y hy => ?_, fun x' hx' y hy =>
          List.mem_cons_of_mem _ (hys x' hx' y hy)⟩
        cases hx.symm.trans hy
        exact List.mem_cons_self

theorem ends_forM {f : α → Checked Unit} {xs : List α}
    (h : ∀ x ∈ xs, Ends allowed (fun _ => True) (f x)) :
    Ends allowed (fun _ => True) (xs.forM f) := by
  induction xs with
  | nil => trivial
  | cons x xs ih =>
    rw [List.forall_mem_cons] at h
    exact h.1.bind fun _ _ => ih h.2

end Checked

/-! ## Items of a list -/

section

variable {α : Type} {xs : List α} {i : Nat} {x : α}

theorem atPosition_eq_ok : atPosition xs i = .ok x ↔ xs[i]? = some x := by
  unfold atPosition
  split <;> simp_all

/-- An offset that is not negative is a position. -/
theorem atOffset_natCast : atOffset xs (i : Int) = atPosition xs i := by
  have hr : resolveOffset xs.length i = if i < xs.length then some i else none := by
    have hn : ¬(i : Int) < 0 := by omega
    simp only [resolveOffset, hn, if_false]
    by_cases h : i < xs.length
    · rw [if_pos ⟨by omega, by omega⟩, if_pos h, Int.toNat_natCast]
    · rw [if_neg (by omega), if_neg h]
  unfold atOffset atPosition
  rw [hr]
  by_cases h : i < xs.length
  · rw [if_pos h, Option.bind_some]
  · rw [if_neg h, Option.bind_none, List.getElem?_eq_none (Nat.le_of_not_lt h)]

end

end JoinOrder
