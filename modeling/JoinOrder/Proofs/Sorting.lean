import Mathlib.Data.String.Basic
import JoinOrder.Proofs.Merge
import JoinOrder.Sorting
import JoinOrder.Value.Order

/-!
# Sorting

A sort that ends with a list has only moved the items (`sort_perm`). If the comparison decides an
order, it always ends, with the items in that order (`sort_spec`).
-/

namespace JoinOrder
namespace Sorting

variable {α : Type} {lt : α → α → Checked Bool} {x last : α} {xs ys run rest : List α}
  {count total fuel patience patience' power start : Nat} {pending pending' : List (Pending α)}

/-! ## Items are moved -/

theorem ascending_append (h : ascending lt last xs = .ok (run, rest)) : run ++ rest = xs := by
  induction xs generalizing last run with
  | nil =>
    cases h
    rfl
  | cons x xs ih =>
    rw [ascending] at h
    obtain ⟨b, -, h⟩ := Checked.bind_eq_ok.1 h
    cases b with
    | true =>
      cases h
      rfl
    | false =>
      obtain ⟨⟨run', rest'⟩, hrun, h⟩ := Checked.bind_eq_ok.1 h
      cases h
      rw [List.cons_append, ih hrun]

theorem descending_append (h : descending lt last xs = .ok (run, rest)) : run ++ rest = xs := by
  induction xs generalizing last run with
  | nil =>
    cases h
    rfl
  | cons x xs ih =>
    rw [descending] at h
    obtain ⟨b, -, h⟩ := Checked.bind_eq_ok.1 h
    cases b with
    | true =>
      obtain ⟨⟨run', rest'⟩, hrun, h⟩ := Checked.bind_eq_ok.1 h
      cases h
      rw [List.cons_append, ih hrun]
    | false =>
      cases h
      rfl

theorem leadingRun_perm (h : leadingRun lt xs = .ok (run, rest)) : (run ++ rest).Perm xs := by
  unfold leadingRun at h
  split at h
  · obtain ⟨b, -, h⟩ := Checked.bind_eq_ok.1 h
    cases b with
    | true =>
      obtain ⟨⟨run', rest'⟩, hrun, h⟩ := Checked.bind_eq_ok.1 h
      cases h
      rw [← descending_append hrun]
      exact (List.reverse_perm _).append_right _
    | false =>
      obtain ⟨⟨run', rest'⟩, hrun, h⟩ := Checked.bind_eq_ok.1 h
      cases h
      rw [← ascending_append hrun]
      exact .refl _
  · cases h
    rw [List.append_nil]

theorem insert_perm (h : insert lt xs x = .ok ys) : ys.Perm (x :: xs) := by
  obtain ⟨i, -, h⟩ := Checked.bind_eq_ok.1 h
  cases h
  exact List.perm_middle.trans (.cons x (.of_eq (List.take_append_drop i xs)))

theorem inserts_perm (h : rest.foldlM (insert lt) run = .ok ys) : ys.Perm (run ++ rest) := by
  induction rest generalizing run with
  | nil =>
    cases h
    rw [List.append_nil]
  | cons x rest ih =>
    rw [List.foldlM_cons] at h
    obtain ⟨run', hrun, h⟩ := Checked.bind_eq_ok.1 h
    exact (ih h).trans (((insert_perm hrun).append_right rest).trans List.perm_middle.symm)

theorem filledRun_perm (h : filledRun lt count xs = .ok (run, rest)) :
    (run ++ rest).Perm xs := by
  obtain ⟨⟨run', rest'⟩, hlead, h⟩ := Checked.bind_eq_ok.1 h
  obtain ⟨ys, hins, h⟩ := Checked.bind_eq_ok.1 h
  cases h
  refine ((inserts_perm hins).append_right _).trans (.trans ?_ (leadingRun_perm hlead))
  rw [List.append_assoc, List.take_append_drop]

/-- A list that is not empty begins with a run that is not. -/
theorem leadingRun_pos (h : leadingRun lt (x :: xs) = .ok (run, rest)) : 0 < run.length := by
  unfold leadingRun at h
  split at h
  · obtain ⟨b, -, h⟩ := Checked.bind_eq_ok.1 h
    cases b with
    | true =>
      obtain ⟨⟨run', rest'⟩, -, h⟩ := Checked.bind_eq_ok.1 h
      cases h
      simp
    | false =>
      obtain ⟨⟨run', rest'⟩, -, h⟩ := Checked.bind_eq_ok.1 h
      cases h
      simp
  · cases h
    simp

theorem filledRun_length (h : filledRun lt count (x :: xs) = .ok (run, rest)) :
    rest.length ≤ xs.length := by
  obtain ⟨⟨run', rest'⟩, hlead, h⟩ := Checked.bind_eq_ok.1 h
  obtain ⟨ys, hins, h⟩ := Checked.bind_eq_ok.1 h
  cases h
  have hlen := (leadingRun_perm hlead).length_eq
  have hpos := leadingRun_pos hlead
  rw [List.length_append, List.length_cons] at hlen
  rw [List.length_drop]
  omega

/-- The items of the pending runs in their order, which is the opposite of that of the runs. -/
def waiting : List (Pending α) → List α
  | [] => []
  | p :: rest => waiting rest ++ p.items

theorem settle_perm (h : settle lt power patience run pending = .ok (patience', ys, pending')) :
    (waiting pending' ++ ys).Perm (waiting pending ++ run) := by
  induction pending generalizing patience run with
  | nil =>
    cases h
    exact .refl _
  | cons p pending ih =>
    rw [settle] at h
    split at h
    · obtain ⟨⟨n, merged⟩, hm, h⟩ := Checked.bind_eq_ok.1 h
      refine (ih h).trans (((mergeRuns_perm hm).append_left _).trans ?_)
      rw [waiting, List.append_assoc]
    · cases h
      exact .refl _

theorem finish_zero_perm : (pending.foldl (fun xs p => p.items ++ xs) run).Perm
    (waiting pending ++ run) := by
  induction pending generalizing run with
  | nil => exact .refl _
  | cons p pending ih =>
    rw [waiting, List.append_assoc]
    exact ih

theorem finish_perm (h : finish lt fuel patience run pending = .ok ys) :
    ys.Perm (waiting pending ++ run) := by
  induction fuel generalizing patience run pending with
  | zero =>
    simp only [finish] at h
    cases h
    exact finish_zero_perm
  | succ fuel ih =>
    match pending with
    | [] =>
      cases h
      exact .refl _
    | [p] =>
      obtain ⟨⟨n, merged⟩, hm, h⟩ := Checked.bind_eq_ok.1 h
      exact (ih h).trans (mergeRuns_perm hm)
    | p :: q :: rest =>
      rw [finish] at h
      split at h
      · obtain ⟨⟨n, merged⟩, hm, h⟩ := Checked.bind_eq_ok.1 h
        refine (ih h).trans (.append_right _ (.trans ((mergeRuns_perm hm).append_left _) ?_))
        simp only [waiting, List.append_assoc]
        exact .refl _
      · obtain ⟨⟨n, merged⟩, hm, h⟩ := Checked.bind_eq_ok.1 h
        refine (ih h).trans (((mergeRuns_perm hm).append_left _).trans ?_)
        simp only [waiting, List.append_assoc]
        exact .refl _

theorem gather_zero : gather lt count total 0 patience start run pending rest =
    finish lt pending.length patience (run ++ rest) pending := by
  cases rest <;> rfl

theorem gather_nil : gather lt count total fuel patience start run pending [] =
    finish lt (pending.length + fuel) patience (run ++ []) pending := by
  cases fuel <;> rfl

theorem gather_perm (h : gather lt count total fuel patience start run pending rest = .ok ys) :
    ys.Perm (waiting pending ++ (run ++ rest)) := by
  induction fuel generalizing patience start run pending rest with
  | zero =>
    rw [gather_zero] at h
    exact finish_perm h
  | succ fuel ih =>
    cases rest with
    | nil =>
      rw [gather_nil] at h
      exact finish_perm h
    | cons x rest =>
      rw [gather] at h
      obtain ⟨⟨run', rest'⟩, hrun, h⟩ := Checked.bind_eq_ok.1 h
      obtain ⟨⟨n, merged, pending'⟩, hm, h⟩ := Checked.bind_eq_ok.1 h
      refine (ih h).trans ?_
      rw [waiting, ← List.append_assoc (waiting pending)]
      exact (settle_perm hm).append (filledRun_perm hrun)

/-- Sorting only moves the items. -/
theorem sort_perm (h : sort lt xs = .ok ys) : ys.Perm xs := by
  obtain ⟨⟨run, rest⟩, hrun, h⟩ := Checked.bind_eq_ok.1 h
  have hperm := gather_perm h
  rw [waiting, List.nil_append] at hperm
  exact hperm.trans (filledRun_perm hrun)

/-! ## Items come in order -/

section

variable {β : Type} [LinearOrder β] {rank : α → β} {D : α → Prop}

/-- Items that come in the order of their ranks. -/
structure IsRun (rank : α → β) (D : α → Prop) (xs : List α) : Prop where
  mem : ∀ x ∈ xs, D x
  sorted : xs.Pairwise fun a b => rank a ≤ rank b

variable (hlt : Ranks lt rank D)

include hlt

theorem ascending_spec (hlast : D last) (hxs : ∀ x ∈ xs, D x) : ∃ run rest,
    ascending lt last xs = .ok (run, rest) ∧
      (last :: run).Pairwise fun a b => rank a ≤ rank b := by
  induction xs generalizing last with
  | nil => exact ⟨[], [], rfl, List.pairwise_singleton ..⟩
  | cons x xs ih =>
    have hx := hxs x (by simp)
    rw [ascending, hlt x last hx hlast, Checked.bind_ok]
    by_cases h : rank x < rank last
    · rw [if_pos (decide_eq_true h)]
      exact ⟨_, _, rfl, List.pairwise_singleton ..⟩
    · rw [if_neg (by simpa using h)]
      obtain ⟨run, rest, hrun, hs⟩ := ih hx fun z hz => hxs z (.tail _ hz)
      refine ⟨x :: run, rest, by rw [hrun]; rfl, List.pairwise_cons.2 ⟨?_, hs⟩⟩
      rw [List.forall_mem_cons]
      exact ⟨le_of_not_gt h,
        fun z hz => le_trans (le_of_not_gt h) ((List.pairwise_cons.1 hs).1 z hz)⟩

theorem descending_spec (hlast : D last) (hxs : ∀ x ∈ xs, D x) : ∃ run rest,
    descending lt last xs = .ok (run, rest) ∧
      (last :: run).Pairwise fun a b => rank b ≤ rank a := by
  induction xs generalizing last with
  | nil => exact ⟨[], [], rfl, List.pairwise_singleton ..⟩
  | cons x xs ih =>
    have hx := hxs x (by simp)
    rw [descending, hlt x last hx hlast, Checked.bind_ok]
    by_cases h : rank x < rank last
    · rw [if_pos (decide_eq_true h)]
      obtain ⟨run, rest, hrun, hs⟩ := ih hx fun z hz => hxs z (.tail _ hz)
      refine ⟨x :: run, rest, by rw [hrun]; rfl, List.pairwise_cons.2 ⟨?_, hs⟩⟩
      rw [List.forall_mem_cons]
      exact ⟨le_of_lt h, fun z hz => le_trans ((List.pairwise_cons.1 hs).1 z hz) (le_of_lt h)⟩
    · rw [if_neg (by simpa using h)]
      exact ⟨_, _, rfl, List.pairwise_singleton ..⟩

theorem leadingRun_spec (hxs : ∀ x ∈ xs, D x) : ∃ run rest,
    leadingRun lt xs = .ok (run, rest) ∧ run.Pairwise fun a b => rank a ≤ rank b := by
  match xs with
  | [] => exact ⟨[], [], rfl, .nil⟩
  | [x] => exact ⟨[x], [], rfl, List.pairwise_singleton ..⟩
  | x :: y :: rest =>
    rw [List.forall_mem_cons, List.forall_mem_cons] at hxs
    obtain ⟨hx, hy, hrest⟩ := hxs
    rw [leadingRun, hlt y x hy hx, Checked.bind_ok]
    by_cases h : rank y < rank x
    · rw [if_pos (decide_eq_true h)]
      obtain ⟨run, rest', hrun, hs⟩ := descending_spec hlt hy hrest
      refine ⟨(x :: y :: run).reverse, rest', by rw [hrun]; rfl, List.pairwise_reverse.2 ?_⟩
      refine List.pairwise_cons.2 ⟨?_, hs⟩
      rw [List.forall_mem_cons]
      exact ⟨le_of_lt h, fun z hz => le_trans ((List.pairwise_cons.1 hs).1 z hz) (le_of_lt h)⟩
    · rw [if_neg (by simpa using h)]
      obtain ⟨run, rest', hrun, hs⟩ := ascending_spec hlt hy hrest
      refine ⟨x :: y :: run, rest', by rw [hrun]; rfl, List.pairwise_cons.2 ⟨?_, hs⟩⟩
      rw [List.forall_mem_cons]
      exact ⟨le_of_not_gt h,
        fun z hz => le_trans (le_of_not_gt h) ((List.pairwise_cons.1 hs).1 z hz)⟩

theorem insert_spec (hx : D x) (H : IsRun rank D xs) :
    ∃ ys, insert lt xs x = .ok ys ∧ IsRun rank D ys := by
  obtain ⟨c, hc, hcut, htake, hdrop⟩ := Merge.exists_cut (Q := fun z => rank z ≤ rank x)
    (H.sorted.imp fun hab hb => le_trans hab hb)
  have hs := H.sorted
  rw [← List.take_append_drop c xs, List.pairwise_append] at hs
  refine ⟨xs.take c ++ x :: xs.drop c, Checked.bind_eq_ok.2 ⟨c, ?_, rfl⟩, ?_, ?_⟩
  · refine bisect_spec (Nat.zero_le c) hc fun i _ hi => ?_
    rw [List.getElem?_eq_getElem hi]
    change (lt x xs[i]).map (!·) = _
    rw [hlt x _ hx (H.mem _ (List.getElem_mem hi)), Checked.map_ok, ← decide_not]
    simp only [not_lt, hcut i hi]
  · intro z hz
    rcases List.mem_append.1 hz with hz | hz
    · exact H.mem z (List.mem_of_mem_take hz)
    rcases List.mem_cons.1 hz with rfl | hz
    · exact hx
    · exact H.mem z (List.mem_of_mem_drop hz)
  · refine List.pairwise_append.2 ⟨hs.1, List.pairwise_cons.2 ⟨?_, hs.2.1⟩, fun a ha b hb => ?_⟩
    · exact fun z hz => le_of_not_ge (hdrop z hz)
    rcases List.mem_cons.1 hb with rfl | hb
    · exact htake a ha
    · exact hs.2.2 a ha b hb

theorem inserts_spec (hrest : ∀ x ∈ rest, D x) (H : IsRun rank D run) :
    ∃ ys, rest.foldlM (insert lt) run = .ok ys ∧ IsRun rank D ys := by
  induction rest generalizing run with
  | nil => exact ⟨run, rfl, H⟩
  | cons x rest ih =>
    rw [List.forall_mem_cons] at hrest
    obtain ⟨run', hrun, H'⟩ := insert_spec hlt hrest.1 H
    rw [List.foldlM_cons, hrun]
    exact ih hrest.2 H'

theorem filledRun_spec (hxs : ∀ x ∈ xs, D x) : ∃ run rest,
    filledRun lt count xs = .ok (run, rest) ∧ IsRun rank D run ∧ ∀ x ∈ rest, D x := by
  obtain ⟨run, rest, hrun, hs⟩ := leadingRun_spec hlt hxs
  have hmem : ∀ x ∈ run ++ rest, D x := fun x hx => hxs x ((leadingRun_perm hrun).mem_iff.1 hx)
  rw [List.forall_mem_append] at hmem
  obtain ⟨ys, hys, H⟩ := inserts_spec hlt
    (fun x hx => hmem.2 x (List.mem_of_mem_take hx)) ⟨hmem.1, hs⟩
  refine ⟨ys, rest.drop (count - run.length), ?_, H,
    fun x hx => hmem.2 x (List.mem_of_mem_drop hx)⟩
  exact Checked.bind_eq_ok.2 ⟨_, hrun, Checked.bind_eq_ok.2 ⟨_, hys, rfl⟩⟩

/-- Two runs become one. -/
theorem merged_spec (H : IsRun rank D xs) (H' : IsRun rank D ys) :
    ∃ p zs, mergeRuns lt patience xs ys = .ok (p, zs) ∧ IsRun rank D zs := by
  obtain ⟨p, zs, hm, hs⟩ := mergeRuns_spec hlt H.mem H'.mem H.sorted
    H'.sorted
  refine ⟨p, zs, hm, fun z hz => ?_, hs⟩
  rcases List.mem_append.1 ((mergeRuns_perm hm).mem_iff.1 hz) with hz | hz
  · exact H.mem z hz
  · exact H'.mem z hz

theorem settle_spec (patience power : Nat) (H : IsRun rank D run)
    (Hp : ∀ p ∈ pending, IsRun rank D p.items) :
    ∃ n ys pending', settle lt power patience run pending = .ok (n, ys, pending') ∧
      IsRun rank D ys ∧ ∀ p ∈ pending', IsRun rank D p.items := by
  induction pending generalizing patience run with
  | nil => exact ⟨_, _, _, rfl, H, Hp⟩
  | cons p pending ih =>
    rw [settle]
    split
    · rw [List.forall_mem_cons] at Hp
      obtain ⟨n, zs, hm, Hz⟩ := merged_spec hlt Hp.1 H
      rw [hm]
      exact ih n Hz Hp.2
    · exact ⟨_, _, _, rfl, H, Hp⟩

theorem finish_spec (H : IsRun rank D run) (Hp : ∀ p ∈ pending, IsRun rank D p.items)
    (hf : pending.length ≤ fuel) :
    ∃ ys, finish lt fuel patience run pending = .ok ys ∧ IsRun rank D ys := by
  induction fuel generalizing patience run pending with
  | zero =>
    cases List.length_eq_zero_iff.1 (Nat.le_zero.1 hf)
    exact ⟨run, rfl, H⟩
  | succ fuel ih =>
    match pending with
    | [] => exact ⟨run, rfl, H⟩
    | [p] =>
      obtain ⟨n, zs, hm, Hz⟩ := merged_spec hlt (Hp p (by simp)) H
      rw [finish, hm]
      exact ih Hz nofun (Nat.zero_le _)
    | p :: q :: rest =>
      rw [List.forall_mem_cons, List.forall_mem_cons] at Hp
      obtain ⟨hp, hq, hrest⟩ := Hp
      rw [finish]
      split
      · obtain ⟨n, zs, hm, Hz⟩ := merged_spec hlt hq hp
        rw [hm]
        exact ih H (List.forall_mem_cons.2 ⟨Hz, hrest⟩) (Nat.le_of_succ_le_succ hf)
      · obtain ⟨n, zs, hm, Hz⟩ := merged_spec hlt hp H
        rw [hm]
        exact ih Hz (List.forall_mem_cons.2 ⟨hq, hrest⟩) (Nat.le_of_succ_le_succ hf)

theorem gather_spec (H : IsRun rank D run) (Hp : ∀ p ∈ pending, IsRun rank D p.items)
    (hrest : ∀ x ∈ rest, D x) (hf : rest.length ≤ fuel) :
    ∃ ys, gather lt count total fuel patience start run pending rest = .ok ys ∧
      IsRun rank D ys := by
  induction fuel generalizing patience start run pending rest with
  | zero =>
    cases List.length_eq_zero_iff.1 (Nat.le_zero.1 hf)
    rw [gather_zero, List.append_nil]
    exact finish_spec hlt H Hp (Nat.le_refl _)
  | succ fuel ih =>
    cases rest with
    | nil =>
      rw [gather_nil, List.append_nil]
      exact finish_spec hlt H Hp (Nat.le_add_right _ _)
    | cons x rest =>
      obtain ⟨run', rest', hrun, H', hrest'⟩ := filledRun_spec hlt hrest
      have hlen := filledRun_length hrun
      rw [gather, hrun, Checked.bind_ok]
      obtain ⟨n, ys, pending', hs, Hy, Hp'⟩ := settle_spec hlt patience
        (boundaryPower total total (2 * start + run.length)
          (2 * start + run.length + run.length + run'.length)) H Hp
      simp only [hs, Checked.bind_ok]
      exact ih H' (List.forall_mem_cons.2 ⟨Hy, Hp'⟩) hrest'
        (Nat.le_trans hlen (Nat.le_of_succ_le_succ hf))

/-- A sort by a comparison that decides an order ends with the items in it. -/
theorem sort_spec (hxs : ∀ x ∈ xs, D x) :
    ∃ ys, sort lt xs = .ok ys ∧ ys.Perm xs ∧ ys.Pairwise fun a b => rank a ≤ rank b := by
  obtain ⟨run, rest, hrun, H, hrest⟩ := filledRun_spec hlt hxs
  have hlen : rest.length ≤ xs.length := by
    rw [← (filledRun_perm hrun).length_eq, List.length_append]
    omega
  have hnone : ∀ p ∈ ([] : List (Pending α)), IsRun rank D p.items := nofun
  obtain ⟨ys, hys, Hy⟩ := gather_spec hlt H hnone hrest hlen
  have hsort : sort lt xs = .ok ys := Checked.bind_eq_ok.2 ⟨_, hrun, hys⟩
  exact ⟨ys, hsort, sort_perm hsort, Hy.sorted⟩

/-- Images are sorted as what they are made of. -/
theorem sort_map {γ : Type} {f : γ → α} {xs : List γ} (hxs : ∀ x ∈ xs, D (f x)) :
    ∃ ys : List γ, sort lt (xs.map f) = .ok (ys.map f) ∧ ys.Perm xs ∧
      ys.Pairwise fun a b => rank (f a) ≤ rank (f b) := by
  obtain ⟨zs, hzs, hp, hsorted⟩ := sort_spec hlt (List.forall_mem_map.2 hxs)
  have himage : List.Forall₂ (fun a x => a = f x) (xs.map f) xs :=
    List.forall₂_map_left_iff.2 (List.forall₂_same.2 fun _ _ => rfl)
  obtain ⟨ys, hys, hperm⟩ := List.perm_comp_forall₂ hp himage
  obtain rfl := List.forall₂_eq_eq_eq ▸ List.forall₂_map_right_iff.2 hys
  rw [List.pairwise_map] at hsorted
  exact ⟨ys, hzs, hperm, hsorted⟩

/-- Items are sorted by keys of their own. -/
theorem sort_zip {γ : Type} {keys : List α} {items : List γ} (hk : ∀ k ∈ keys, D k)
    (hl : keys.length = items.length) :
    ∃ ys, sort (fun a b => lt a.1 b.1) (keys.zip items) = .ok ys ∧
      (ys.map Prod.snd).Perm items := by
  have hpairs : Ranks (fun a b : α × γ => lt a.1 b.1) (rank ·.1) (D ·.1) := fun a b => hlt a.1 b.1
  have hzip : ∀ a ∈ keys.zip items, D a.1 := fun _ h => hk _ (List.of_mem_zip h).1
  obtain ⟨ys, hys, hp, -⟩ := sort_spec hpairs hzip
  exact ⟨ys, hys, List.map_snd_zip (Nat.le_of_eq hl.symm) ▸ hp.map Prod.snd⟩

end

/-! ## Least items -/

/-- A comparison that never fails has a least item. -/
theorem exists_least (lt : α → α → Bool) (x : α) (xs : List α) :
    ∃ y, least (JoinOrder.total lt) x xs = .ok y := by
  induction xs generalizing x with
  | nil => exact ⟨x, rfl⟩
  | cons y ys ih =>
    rw [least, JoinOrder.total, Checked.bind_ok]
    split
    · exact ih y
    · exact ih x

theorem least_mem (h : least lt x xs = .ok last) : last ∈ x :: xs := by
  induction xs generalizing x with
  | nil =>
    cases h
    exact List.mem_singleton_self _
  | cons y ys ih =>
    rw [least] at h
    obtain ⟨b, -, h⟩ := Checked.bind_eq_ok.1 h
    cases b with
    | true => exact .tail _ (ih h)
    | false =>
      rcases List.mem_cons.1 (ih h) with rfl | hm
      · exact .head _
      · exact .tail _ (.tail _ hm)

/-- The least item by a comparison that decides an order is not behind any other. -/
theorem least_spec {β : Type} [LinearOrder β] {rank : α → β} {D : α → Prop} (hlt : Ranks lt rank D)
    (hxs : ∀ y ∈ x :: xs, D y) (h : least lt x xs = .ok last) :
    ∀ y ∈ x :: xs, rank last ≤ rank y := by
  induction xs generalizing x with
  | nil =>
    cases h
    rw [List.forall_mem_singleton]
  | cons y ys ih =>
    rw [List.forall_mem_cons, List.forall_mem_cons] at hxs
    obtain ⟨hx, hy, hys⟩ := hxs
    rw [least, hlt y x hy hx, Checked.bind_ok] at h
    rw [List.forall_mem_cons, List.forall_mem_cons]
    split at h
    · next hyx =>
      have hleast := ih (List.forall_mem_cons.2 ⟨hy, hys⟩) h
      rw [List.forall_mem_cons] at hleast
      exact ⟨le_trans hleast.1 (le_of_lt (of_decide_eq_true hyx)), hleast⟩
    · next hyx =>
      have hleast := ih (List.forall_mem_cons.2 ⟨hx, hys⟩) h
      rw [List.forall_mem_cons] at hleast
      exact ⟨hleast.1, le_trans hleast.1 (le_of_not_gt (by simpa using hyx)), hleast.2⟩

end Sorting

/-! ## Texts -/

/-- Texts are compared by their characters. -/
theorem Value.ranks_text :
    Sorting.Ranks Value.lt (fun v => v.text?.getD "") fun v => ∃ t, v = .text t := by
  rintro _ _ ⟨a, rfl⟩ ⟨b, rfl⟩
  rw [Value.lt, Value.precedes]
  exact congrArg _ (decide_eq_decide.2 Iff.rfl)

theorem Value.forall_mem_texts (texts : List String) :
    ∀ v ∈ texts.map Value.text, ∃ t, v = .text t := List.forall_mem_map.2 fun t _ => ⟨t, rfl⟩

theorem Value.exists_sort_texts (texts : List String) :
    ∃ sorted, Sorting.sort lt (texts.map text) = .ok sorted :=
  (Sorting.sort_spec ranks_text (forall_mem_texts texts)).imp fun _ h => h.1

end JoinOrder
