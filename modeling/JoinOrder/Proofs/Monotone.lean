import JoinOrder.Proofs.Sorting

/-!
# Comparisons that may fail

Searches, merges and sorts ask a comparison and make something of its answers. If such a
computation ends with a result, it ends with the same one for any comparison that gives these
answers too (`Sorting.sort_below`). Hence what is sorted by a comparison that orders some pairs only
is sorted by any order that these pairs agree with (`Sorting.sort_ordered`).
-/

namespace JoinOrder

namespace Checked

variable {α β : Type} {x x' y y' : Checked α}

/-- Wherever the one computation has a result, the other has the same. -/
def Below (x y : Checked α) : Prop := ∀ v, x = .ok v → y = .ok v

theorem Below.refl (x : Checked α) : x.Below x := fun _ h => h

theorem Below.bind {f g : α → Checked β} (h : x.Below y) (hf : ∀ a, (f a).Below (g a)) :
    (x >>= f).Below (y >>= g) := by
  intro b hb
  obtain ⟨a, ha, hb⟩ := bind_eq_ok.1 hb
  exact bind_eq_ok.2 ⟨a, h a ha, hf a b hb⟩

theorem Below.map (h : x.Below y) (f : α → β) : Below (x.map f) (y.map f) := by
  intro b hb
  obtain ⟨a, ha, hb⟩ := map_eq_ok.1 hb
  exact map_eq_ok.2 ⟨a, h a ha, hb⟩

theorem Below.ite {c : Prop} [Decidable c] (h : x.Below y) (h' : x'.Below y') :
    (if c then x else x').Below (if c then y else y') := by
  split
  · exact h
  · exact h'

theorem Below.foldlM {f g : β → α → Checked β} (h : ∀ b a, (f b a).Below (g b a)) (xs : List α) :
    ∀ b, (xs.foldlM f b).Below (xs.foldlM g b) := by
  induction xs with
  | nil => exact fun b => .refl _
  | cons x xs ih => exact fun b => (h b x).bind ih

end Checked

open Checked (Below)

/-! ## Searches -/

section

variable {before before' : Nat → Checked Bool} (h : ∀ i, (before i).Below (before' i))

include h

theorem bisectWithin_below (fuel : Nat) :
    ∀ lo hi, (bisectWithin before fuel lo hi).Below (bisectWithin before' fuel lo hi) := by
  induction fuel with
  | zero => exact fun lo hi => .refl _
  | succ fuel ih =>
    intro lo hi
    rw [bisectWithin, bisectWithin]
    exact .ite ((h _).bind fun b => .ite (ih _ _) (ih _ _)) (.refl _)

theorem bisect_below (lo hi : Nat) : (bisect before lo hi).Below (bisect before' lo hi) :=
  bisectWithin_below h _ lo hi

theorem widen_below (most fuel : Nat) :
    ∀ last next, (widen before most fuel last next).Below (widen before' most fuel last next) := by
  induction fuel with
  | zero => exact fun last next => .refl _
  | succ fuel ih =>
    intro last next
    rw [widen, widen]
    exact .ite ((h _).bind fun b => .ite (ih _ _) (.refl _)) (.refl _)

theorem gallop_below (length hint : Nat) :
    (gallop before length hint).Below (gallop before' length hint) := by
  refine (h hint).bind fun b => .ite ?_ ?_
  · exact (widen_below (fun d => h _) _ _ _ _).bind fun _ => bisect_below h _ _
  · exact (widen_below (fun d => (h _).map _) _ _ _ _).bind fun _ => bisect_below h _ _

end

namespace Sorting

variable {α : Type} {lt lt' : α → α → Checked Bool} (h : ∀ a b, (lt a b).Below (lt' a b))

include h

/-! ## Merges -/

namespace Merge

theorem prefersRight_below (m : Merge α) (x y : α) :
    (m.prefersRight lt x y).Below (m.prefersRight lt' x y) := .ite ((h _ _).map _) (h _ _)

omit h in
theorem span_below {low low' : α → Checked Bool} (hl : ∀ a, (low a).Below (low' a)) (m : Merge α)
    (xs : List α) : (m.span low xs).Below (m.span low' xs) := by
  refine .ite ((gallop_below (fun i => ?_) _ _).bind fun _ => .refl _)
    (gallop_below (fun i => ?_) _ _)
  · dsimp only
    split
    · exact hl _
    · exact .refl _
  · split
    · exact hl _
    · exact .refl _

theorem leftSpan_below (m : Merge α) (y : α) : (m.leftSpan lt y).Below (m.leftSpan lt' y) :=
  span_below (fun _ => (h _ _).map _) m m.left

theorem rightSpan_below (m : Merge α) (x : α) : (m.rightSpan lt x).Below (m.rightSpan lt' x) :=
  span_below (fun y => h y x) m m.right

theorem alternate_below (fuel : Nat) : (∀ patience leftWins rightWins m,
      (alternate lt fuel patience leftWins rightWins m).Below
        (alternate lt' fuel patience leftWins rightWins m)) ∧
    ∀ patience m, (search lt fuel patience m).Below (search lt' fuel patience m) := by
  induction fuel with
  | zero =>
    refine ⟨fun patience leftWins rightWins m => ?_, fun patience m => ?_⟩
    · rw [alternate, alternate]
      exact .refl _
    · simp only [search]
      exact .refl _
  | succ fuel ih =>
    refine ⟨fun patience leftWins rightWins m => ?_, fun patience m => ?_⟩
    · rw [alternate, alternate]
      refine .ite (.refl _) (.ite (ih.2 _ _) ?_)
      split
      · exact (prefersRight_below h _ _ _).bind fun b => .ite (ih.1 _ _ _ _) (ih.1 _ _ _ _)
      · exact .refl _
    · obtain ⟨backward, taken, left, right⟩ := m
      cases right with
      | nil =>
        simp only [search]
        exact .refl _
      | cons y rest =>
        simp only [search]
        refine (leftSpan_below h _ _).bind fun n => .ite (.refl _) ?_
        split
        · exact .refl _
        refine .ite (.refl _) ((rightSpan_below h _ _).bind fun k => ?_)
        exact .ite (.refl _) (.ite (.refl _) (.ite (ih.2 _ _) (ih.1 _ _ _ _)))

theorem run_below (m : Merge α) (patience : Nat) :
    (run lt patience m).Below (run lt' patience m) :=
  ((alternate_below h _).1 _ _ _ _).bind fun _ => .refl _

end Merge

theorem mergeRuns_below (patience : Nat) (left right : List α) :
    (mergeRuns lt patience left right).Below (mergeRuns lt' patience left right) := by
  cases right with
  | nil => exact .refl _
  | cons y rest =>
    refine (Merge.leftSpan_below h _ _).bind fun n => ?_
    dsimp only
    split
    · exact .refl _
    next x _ =>
    refine (gallop_below (fun i => ?_) _ _).bind fun mixed => .ite (.refl _) ?_
    · split
      · exact h _ x
      · exact .refl _
    · exact (Merge.run_below h _ _).bind fun _ => .refl _

/-! ## Runs -/

theorem ascending_below (last : α) (xs : List α) :
    (ascending lt last xs).Below (ascending lt' last xs) := by
  induction xs generalizing last with
  | nil => exact .refl _
  | cons x xs ih => exact (h _ _).bind fun b => .ite (.refl _) ((ih x).bind fun _ => .refl _)

theorem descending_below (last : α) (xs : List α) :
    (descending lt last xs).Below (descending lt' last xs) := by
  induction xs generalizing last with
  | nil => exact .refl _
  | cons x xs ih => exact (h _ _).bind fun b => .ite ((ih x).bind fun _ => .refl _) (.refl _)

theorem leadingRun_below (xs : List α) : (leadingRun lt xs).Below (leadingRun lt' xs) := by
  match xs with
  | [] => exact .refl _
  | [x] => exact .refl _
  | x :: y :: rest =>
    refine (h _ _).bind fun b => .ite ?_ ?_
    · exact (descending_below h y rest).bind fun _ => .refl _
    · exact (ascending_below h y rest).bind fun _ => .refl _

theorem insert_below (sorted : List α) (x : α) :
    (insert lt sorted x).Below (insert lt' sorted x) := by
  refine (bisect_below (fun i => ?_) _ _).bind fun _ => .refl _
  cases sorted[i]? with
  | none => exact .refl _
  | some y => exact (h x y).map _

theorem filledRun_below (least : Nat) (xs : List α) :
    (filledRun lt least xs).Below (filledRun lt' least xs) :=
  (leadingRun_below h xs).bind fun _ =>
    (Below.foldlM (insert_below h) _ _).bind fun _ => .refl _

/-! ## The order of the merges -/

theorem settle_below (power : Nat) (pending : List (Pending α)) : ∀ patience last,
    (settle lt power patience last pending).Below (settle lt' power patience last pending) := by
  induction pending with
  | nil => exact fun patience last => .refl _
  | cons p rest ih =>
    intro patience last
    rw [settle, settle]
    exact .ite ((mergeRuns_below h _ _ _).bind fun _ => ih _ _) (.refl _)

theorem finish_below (fuel : Nat) : ∀ patience last pending,
    (finish lt fuel patience last pending).Below (finish lt' fuel patience last pending) := by
  induction fuel with
  | zero => exact fun patience last pending => .refl _
  | succ fuel ih =>
    intro patience last pending
    match pending with
    | [] => exact .refl _
    | [p] => exact (mergeRuns_below h _ _ _).bind fun _ => ih _ _ _
    | p :: q :: rest =>
      rw [finish, finish]
      exact .ite ((mergeRuns_below h _ _ _).bind fun _ => ih _ _ _)
        ((mergeRuns_below h _ _ _).bind fun _ => ih _ _ _)

theorem gather_below (least total fuel : Nat) : ∀ patience start last pending rest,
    (gather lt least total fuel patience start last pending rest).Below
      (gather lt' least total fuel patience start last pending rest) := by
  induction fuel with
  | zero =>
    intro patience start last pending rest
    rw [gather_zero, gather_zero]
    exact finish_below h _ _ _ _
  | succ fuel ih =>
    intro patience start last pending rest
    cases rest with
    | nil =>
      rw [gather_nil, gather_nil]
      exact finish_below h _ _ _ _
    | cons x rest =>
      rw [gather, gather]
      exact (filledRun_below h _ _).bind fun _ => (settle_below h _ _ _ _).bind fun _ => ih _ _ _ _ _

/-- A sort that ends with a result only depends on the answers that it gets. -/
theorem sort_below (xs : List α) : (sort lt xs).Below (sort lt' xs) :=
  (filledRun_below h _ _).bind fun _ => gather_below h _ _ _ _ _ _ _ _

omit h in
open Classical in
/-- Where a comparison only answers as an order does, what it has sorted is in order. -/
theorem sort_ordered {β : Type} [LinearOrder β] {rank : α → β} {D : α → Prop} {xs ys : List α}
    (hlt : ∀ a b c, D a → D b → lt a b = .ok c → (c = true ↔ rank a < rank b))
    (hxs : ∀ x ∈ xs, D x) (hs : sort lt xs = .ok ys) :
    ys.Pairwise fun a b => rank a ≤ rank b := by
  let full (a b : α) : Checked Bool :=
    if D a ∧ D b then .ok (decide (rank a < rank b)) else lt a b
  have hfull : ∀ a b, (lt a b).Below (full a b) := by
    intro a b c hc
    by_cases hd : D a ∧ D b
    · have hrank : decide (rank a < rank b) = c :=
        Bool.eq_iff_iff.2 (decide_eq_true_iff.trans (hlt a b c hd.1 hd.2 hc).symm)
      exact hrank ▸ if_pos hd
    · exact (if_neg hd).trans hc
  have hranks : Ranks full rank D := fun a b ha hb => if_pos ⟨ha, hb⟩
  obtain ⟨zs, hz, -, hsorted⟩ := sort_spec hranks hxs
  cases (sort_below hfull xs ys hs).symm.trans hz
  exact hsorted

end Sorting
end JoinOrder
