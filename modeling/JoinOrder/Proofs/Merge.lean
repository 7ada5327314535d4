import Mathlib.Data.List.Perm.Basic
import Mathlib.Order.Lattice
import JoinOrder.Proofs.Search
import JoinOrder.Sorting.Merge

/-!
# Merging

Whatever the comparison answers, a merge only moves items (`mergeRuns_perm`). If the comparison
decides an order, two ordered runs are merged into one.
-/

namespace JoinOrder
namespace Sorting

variable {α : Type} {lt : α → α → Checked Bool}

namespace Merge

variable {m m' : Merge α} {fuel patience patience' leftWins rightWins n : Nat}

/-! ## Moves -/

/-- A merge goes on from one state to another by taking items from the heads of its runs. -/
inductive Takes : Merge α → Merge α → Prop
  | done (m : Merge α) : Takes m m
  | left {m m' : Merge α} (n : Nat) : Takes (m.takeLeft n) m' → Takes m m'
  | right {m m' : Merge α} (n : Nat) : Takes (m.takeRight n) m' → Takes m m'

/-- Both ways to go on only take items. -/
theorem takes_of_ok : (∀ {m patience leftWins rightWins},
      alternate lt fuel patience leftWins rightWins m = .ok (patience', m') → Takes m m') ∧
    ∀ {m patience}, search lt fuel patience m = .ok (patience', m') → Takes m m' := by
  induction fuel with
  | zero =>
    refine ⟨fun h => ?_, fun h => ?_⟩
    · rw [alternate] at h
      cases h
      exact .done _
    · simp only [search] at h
      cases h
      exact .done _
  | succ fuel ih =>
    refine ⟨fun {m patience leftWins rightWins} h => ?_, fun {m patience} h => ?_⟩
    · rw [alternate] at h
      split at h
      · cases h
        exact .done _
      · split at h
        · exact ih.2 h
        · split at h
          · obtain ⟨b, -, h⟩ := Checked.bind_eq_ok.1 h
            cases b with
            | true => exact .right 1 (ih.1 h)
            | false => exact .left 1 (ih.1 h)
          · cases h
            exact .done _
    · obtain ⟨backward, taken, left, right⟩ := m
      cases right with
      | nil =>
        simp only [search] at h
        cases h
        exact .done _
      | cons y rest =>
        simp only [search, Checked.bind_eq_ok] at h
        obtain ⟨n, -, h⟩ := h
        refine .left n ?_
        generalize takeLeft _ n = m₁ at h ⊢
        split at h
        · cases h
          exact .done _
        refine .right 1 ?_
        generalize takeRight m₁ 1 = m₂ at h ⊢
        split at h
        · cases h
          exact .done _
        split at h
        · cases h
          exact .done _
        obtain ⟨k, -, h⟩ := Checked.bind_eq_ok.1 h
        refine .right k ?_
        generalize takeRight m₂ k = m₃ at h ⊢
        split at h
        · cases h
          exact .done _
        refine .left 1 ?_
        generalize takeLeft m₃ 1 = m₄ at h ⊢
        split at h
        · cases h
          exact .done _
        · split at h
          · exact ih.2 h
          · exact ih.1 h

theorem items_perm (m : Merge α) : m.items.Perm (m.taken ++ (m.left ++ m.right)) := by
  unfold items
  split
  · exact (((List.reverse_perm _).append (List.reverse_perm _)).trans
      List.perm_append_comm).append_right _ |>.trans List.perm_append_comm
  · rw [List.append_assoc]
    exact (List.reverse_perm _).append List.perm_append_comm

theorem takeLeft_perm : (m.takeLeft n).items.Perm m.items := by
  refine (items_perm _).trans (.trans ?_ (items_perm m).symm)
  simp only [takeLeft, List.append_assoc]
  refine .trans ((List.reverse_perm _).append_right _) (.trans (List.perm_append_comm_assoc ..) ?_)
  rw [← List.append_assoc (m.left.take n), List.take_append_drop]

theorem takeRight_perm : (m.takeRight n).items.Perm m.items := by
  refine (items_perm _).trans (.trans ?_ (items_perm m).symm)
  simp only [takeRight, List.append_assoc]
  refine .trans ((List.reverse_perm _).append_right _) (.trans (List.perm_append_comm_assoc ..) ?_)
  refine .append_left _ (.trans (List.perm_append_comm_assoc ..) (.append_left _ ?_))
  rw [List.take_append_drop]

theorem Takes.items_perm (H : Takes m m') : m'.items.Perm m.items := by
  induction H with
  | done => exact .refl _
  | left n _ ih => exact ih.trans takeLeft_perm
  | right n _ ih => exact ih.trans takeRight_perm

theorem run_perm {xs : List α} (h : run lt patience m = .ok (patience', xs)) :
    xs.Perm m.items := by
  rw [run] at h
  obtain ⟨⟨p, m'⟩, hm, h⟩ := Checked.bind_eq_ok.1 h
  cases h
  exact (takes_of_ok.1 hm).items_perm

end Merge

theorem start_perm {left right : List α} :
    (if left.length ≤ right.length then (Merge.mk false [] left right).takeRight 1
      else (Merge.mk true [] left.reverse right.reverse).takeLeft 1).items.Perm
        (left ++ right) := by
  split
  · exact Merge.takeRight_perm.trans (Merge.items_perm _)
  · refine Merge.takeLeft_perm.trans ((Merge.items_perm _).trans ?_)
    exact (List.reverse_perm _).append (List.reverse_perm _)

/-- A merge of two runs only moves their items. -/
theorem mergeRuns_perm {patience patience' : Nat} {left right xs : List α}
    (h : mergeRuns lt patience left right = .ok (patience', xs)) : xs.Perm (left ++ right) := by
  unfold mergeRuns at h
  split at h
  · cases h
    simp
  · next y rest =>
    simp only [Checked.bind_eq_ok] at h
    obtain ⟨n, -, h⟩ := h
    split at h
    · next hnone =>
      cases h
      rw [List.getLast?_eq_none_iff] at hnone
      have := List.take_append_drop n left
      rw [hnone, List.append_nil] at this
      rw [this]
    · obtain ⟨k, -, h⟩ := Checked.bind_eq_ok.1 h
      split at h
      · cases h
        rw [List.take_append_drop]
      · obtain ⟨⟨p, items⟩, hrun, h⟩ := Checked.bind_eq_ok.1 h
        cases h
        have hstart : items.Perm (left.drop n ++ (y :: rest).take k) :=
          (Merge.run_perm hrun).trans start_perm
        refine ((hstart.append_left _).append_right _).trans (.of_eq ?_)
        rw [List.append_assoc, List.append_assoc, List.take_append_drop, ← List.append_assoc,
          List.take_append_drop]

/-! ## Ordered runs -/

/-- The comparison of some items is that of their ranks in a linear order. -/
def Ranks {β : Type} [LinearOrder β] (lt : α → α → Checked Bool) (rank : α → β) (D : α → Prop) :
    Prop := ∀ a b, D a → D b → lt a b = .ok (decide (rank a < rank b))

namespace Merge

variable {β : Type} [LinearOrder β] {rank : α → β} {D : α → Prop} {m : Merge α} {x x' y y' : α}
  {xs : List α} {fuel patience n : Nat}

/-- One item comes before another in the direction of the merge. -/
def Ahead (rank : α → β) (backward : Bool) (x y : α) : Prop :=
  if backward then rank y ≤ rank x else rank x ≤ rank y

/-- A left item is to be taken before a right one. -/
def LeftFirst (rank : α → β) (backward : Bool) (x y : α) : Prop :=
  if backward then rank y < rank x else rank x ≤ rank y

instance (backward : Bool) : Decidable (LeftFirst rank backward x y) := by
  unfold LeftFirst
  infer_instance

section

variable {backward : Bool}

theorem LeftFirst.ahead (h : LeftFirst rank backward x y) : Ahead rank backward x y := by
  cases backward with
  | true => exact le_of_lt h
  | false => exact h

theorem ahead_of_not_leftFirst (h : ¬LeftFirst rank backward x y) : Ahead rank backward y x := by
  cases backward with
  | true => exact le_of_not_gt h
  | false => exact le_of_lt (lt_of_not_ge h)

theorem LeftFirst.mono_left (hx : Ahead rank backward x x') (h : LeftFirst rank backward x' y) :
    LeftFirst rank backward x y := by
  cases backward with
  | true => exact lt_of_lt_of_le h hx
  | false => exact le_trans hx h

theorem LeftFirst.mono_right (h : LeftFirst rank backward x y) (hy : Ahead rank backward y y') :
    LeftFirst rank backward x y' := by
  cases backward with
  | true => exact lt_of_le_of_lt hy h
  | false => exact le_trans h hy

end

/-- The runs of a merge are ordered, and what is left comes behind what has been taken. The run
that is not used up ends with an item behind all items of the other run. -/
structure Ordered (rank : α → β) (D : α → Prop) (m : Merge α) : Prop where
  mem_left : ∀ x ∈ m.left, D x
  mem_right : ∀ y ∈ m.right, D y
  left : m.left.Pairwise (Ahead rank m.backward)
  right : m.right.Pairwise (Ahead rank m.backward)
  taken : m.taken.Pairwise fun a b => Ahead rank m.backward b a
  taken_left : ∀ t ∈ m.taken, ∀ x ∈ m.left, Ahead rank m.backward t x
  taken_right : ∀ t ∈ m.taken, ∀ y ∈ m.right, Ahead rank m.backward t y
  stop : if m.backward then ∃ y, m.right.getLast? = some y ∧
      ∀ x ∈ m.left, LeftFirst rank m.backward x y
    else ∃ x, m.left.getLast? = some x ∧ ∀ y ∈ m.right, ¬LeftFirst rank m.backward x y

/-! ## Spans -/

/-- Where the items that have a property come first, they end at some position. -/
theorem exists_cut {Q : α → Prop} (h : xs.Pairwise fun a b => Q b → Q a) :
    ∃ c ≤ xs.length, (∀ i (hi : i < xs.length), Q xs[i] ↔ i < c) ∧ (∀ x ∈ xs.take c, Q x) ∧
      ∀ x ∈ xs.drop c, ¬Q x := by
  induction xs with
  | nil => exact ⟨0, Nat.le_refl _, fun i hi => (Nat.not_lt_zero i hi).elim, nofun, nofun⟩
  | cons x xs ih =>
    rw [List.pairwise_cons] at h
    obtain ⟨c, hc, hcut, htake, hdrop⟩ := ih h.2
    by_cases hx : Q x
    · refine ⟨c + 1, Nat.succ_le_succ hc, fun i hi => ?_, ?_, hdrop⟩
      · cases i with
        | zero => simp [hx]
        | succ i => simpa using hcut i (by simpa using hi)
      · rw [List.take_succ_cons, List.forall_mem_cons]
        exact ⟨hx, htake⟩
    · have hxs : ∀ z ∈ x :: xs, ¬Q z := by
        rw [List.forall_mem_cons]
        exact ⟨hx, fun z hz hq => hx (h.1 z hz hq)⟩
      refine ⟨0, Nat.zero_le _, fun i hi => ?_, nofun, hxs⟩
      exact ⟨fun hq => (hxs _ (List.getElem_mem hi) hq).elim, fun h => (Nat.not_lt_zero i h).elim⟩

/-- A span takes exactly the items with a property, if those come first. A backward merge tests
for the opposite. -/
theorem span_spec {low : α → Checked Bool} {Q : α → Prop} [DecidablePred Q]
    (hlow : ∀ x ∈ xs, low x = .ok (decide (Q x) != m.backward))
    (hmono : xs.Pairwise fun a b => Q b → Q a) :
    ∃ n, m.span low xs = .ok n ∧ (∀ x ∈ xs.take n, Q x) ∧ ∀ x ∈ xs.drop n, ¬Q x := by
  obtain ⟨c, hc, hcut, htake, hdrop⟩ := exists_cut hmono
  refine ⟨c, ?_, htake, hdrop⟩
  unfold span
  extract_lets at?
  have hat : ∀ i, at? i = .ok (decide (i < xs.length) && (decide (i < c) != m.backward)) := by
    intro i
    by_cases hi : i < xs.length
    · simp only [at?, List.getElem?_eq_getElem hi, hi, decide_true, Bool.true_and,
        hlow _ (List.getElem_mem hi), hcut i hi]
    · simp [at?, hi]
  clear_value at?
  cases hb : m.backward with
  | true =>
    rw [hb] at hat
    refine Checked.bind_eq_ok.2 ⟨xs.length - c, ?_, congrArg _ (by omega)⟩
    refine gallop_spec (by omega) (by omega) fun i hi => (hat _).trans (congrArg _ ?_)
    rw [Bool.eq_iff_iff]
    simp
    omega
  | false =>
    rw [hb] at hat
    refine gallop_spec hc (by omega) fun i hi => (hat i).trans (congrArg _ ?_)
    rw [Bool.eq_iff_iff]
    simp
    omega

section

variable (hlt : Ranks lt rank D)

include hlt

/-- The left items that a search takes are those that come before the right item. -/
theorem leftSpan_spec (hD : ∀ x ∈ m.left, D x) (hleft : m.left.Pairwise (Ahead rank m.backward))
    (hy : D y) : ∃ n, m.leftSpan lt y = .ok n ∧
      (∀ x ∈ m.left.take n, LeftFirst rank m.backward x y) ∧
      ∀ x ∈ m.left.drop n, ¬LeftFirst rank m.backward x y := by
  refine span_spec (fun x hx => ?_) (hleft.imp fun hab hb => hb.mono_left hab)
  rw [hlt y x hy (hD x hx), Checked.map_ok]
  refine congrArg _ ?_
  cases m.backward with
  | true => simp [LeftFirst]
  | false => simp [LeftFirst, ← not_lt]

theorem rightSpan_spec (H : Ordered rank D m) (hx : D x) :
    ∃ n, m.rightSpan lt x = .ok n ∧ (∀ y ∈ m.right.take n, ¬LeftFirst rank m.backward x y) ∧
      ∀ y ∈ m.right.drop n, LeftFirst rank m.backward x y := by
  have hlow : ∀ y ∈ m.right,
      lt y x = .ok (decide (¬LeftFirst rank m.backward x y) != m.backward) := by
    intro y hy
    rw [hlt y x (H.mem_right y hy) hx]
    refine congrArg _ ?_
    cases m.backward with
    | true => simp [LeftFirst, -not_lt]
    | false => simp [LeftFirst]
  obtain ⟨n, hn, htake, hdrop⟩ := span_spec hlow
    (H.right.imp fun hab hb ha => hb (ha.mono_right hab))
  exact ⟨n, hn, htake, fun y hy => not_not.1 (hdrop y hy)⟩

theorem prefersRight_spec (hx : D x) (hy : D y) :
    m.prefersRight lt x y = .ok (decide (¬LeftFirst rank m.backward x y)) := by
  unfold prefersRight
  rw [hlt y x hy hx]
  cases m.backward with
  | true => simp [LeftFirst, -not_lt]
  | false => simp [LeftFirst]

end

/-! ## Taking items -/

/-- As long as a merge is not over, both runs have items. -/
theorem not_over (h : m.isOver = false) : m.left ≠ [] ∧ m.right ≠ [] := by
  unfold isOver at h
  constructor
  · intro hl
    simp [hl] at h
  · intro hr
    simp [hr] at h

theorem Ordered.takeLeft (H : Ordered rank D m) (hr : m.right ≠ [])
    (hn : ∀ x ∈ m.left.take n, ∀ y ∈ m.right, LeftFirst rank m.backward x y) :
    Ordered rank D (m.takeLeft n) where
  mem_left x hx := H.mem_left x (List.mem_of_mem_drop hx)
  mem_right := H.mem_right
  left := H.left.sublist (List.drop_sublist _ _)
  right := H.right
  taken := by
    refine List.pairwise_append.2 ⟨?_, H.taken, fun a ha b hb => ?_⟩
    · exact List.pairwise_reverse.2 (H.left.sublist (List.take_sublist _ _))
    · exact H.taken_left b hb a (List.mem_of_mem_take (List.mem_reverse.1 ha))
  taken_left t ht x hx := by
    rcases List.mem_append.1 ht with ht | ht
    · have hp := H.left
      rw [← List.take_append_drop n m.left, List.pairwise_append] at hp
      exact hp.2.2 t (List.mem_reverse.1 ht) x hx
    · exact H.taken_left t ht x (List.mem_of_mem_drop hx)
  taken_right t ht y hy := by
    rcases List.mem_append.1 ht with ht | ht
    · exact (hn t (List.mem_reverse.1 ht) y hy).ahead
    · exact H.taken_right t ht y hy
  stop := by
    have hs := H.stop
    change if m.backward then _ else _
    split at hs
    · next hb =>
      rw [if_pos hb]
      obtain ⟨y, hy, hall⟩ := hs
      exact ⟨y, hy, fun x hx => hall x (List.mem_of_mem_drop hx)⟩
    · next hb =>
      rw [if_neg hb]
      obtain ⟨x, hx, hall⟩ := hs
      refine ⟨x, ?_, hall⟩
      -- The last item is not taken, as it comes behind those of the other run.
      have hlen : n < m.left.length := by
        by_contra hle
        obtain ⟨y, hy⟩ := List.exists_mem_of_ne_nil _ hr
        refine hall y hy (hn x ?_ y hy)
        rw [List.take_of_length_le (Nat.le_of_not_lt hle)]
        exact List.mem_of_getLast? hx
      rw [Merge.takeLeft, List.getLast?_drop, if_neg (Nat.not_le.2 hlen), hx]

theorem Ordered.takeRight (H : Ordered rank D m) (hl : m.left ≠ [])
    (hn : ∀ y ∈ m.right.take n, ∀ x ∈ m.left, ¬LeftFirst rank m.backward x y) :
    Ordered rank D (m.takeRight n) where
  mem_left := H.mem_left
  mem_right y hy := H.mem_right y (List.mem_of_mem_drop hy)
  left := H.left
  right := H.right.sublist (List.drop_sublist _ _)
  taken := by
    refine List.pairwise_append.2 ⟨?_, H.taken, fun a ha b hb => ?_⟩
    · exact List.pairwise_reverse.2 (H.right.sublist (List.take_sublist _ _))
    · exact H.taken_right b hb a (List.mem_of_mem_take (List.mem_reverse.1 ha))
  taken_left t ht x hx := by
    rcases List.mem_append.1 ht with ht | ht
    · exact ahead_of_not_leftFirst (hn t (List.mem_reverse.1 ht) x hx)
    · exact H.taken_left t ht x hx
  taken_right t ht y hy := by
    rcases List.mem_append.1 ht with ht | ht
    · have hp := H.right
      rw [← List.take_append_drop n m.right, List.pairwise_append] at hp
      exact hp.2.2 t (List.mem_reverse.1 ht) y hy
    · exact H.taken_right t ht y (List.mem_of_mem_drop hy)
  stop := by
    have hs := H.stop
    change if m.backward then _ else _
    split at hs
    · next hb =>
      rw [if_pos hb]
      obtain ⟨y, hy, hall⟩ := hs
      refine ⟨y, ?_, hall⟩
      have hlen : n < m.right.length := by
        by_contra hle
        obtain ⟨x, hx⟩ := List.exists_mem_of_ne_nil _ hl
        refine hn y ?_ x hx (hall x hx)
        rw [List.take_of_length_le (Nat.le_of_not_lt hle)]
        exact List.mem_of_getLast? hy
      rw [Merge.takeRight, List.getLast?_drop, if_neg (Nat.not_le.2 hlen), hy]
    · next hb =>
      rw [if_neg hb]
      obtain ⟨x, hx, hall⟩ := hs
      exact ⟨x, hx, fun y hy => hall y (List.mem_of_mem_drop hy)⟩

/-- A left item that comes before the head of the right run comes before all of it. -/
theorem Ordered.leftFirst_right (H : Ordered rank D m) {rest : List α} (hr : m.right = y :: rest)
    (h : LeftFirst rank m.backward x y) : ∀ z ∈ m.right, LeftFirst rank m.backward x z := by
  have hp := H.right
  rw [hr, List.pairwise_cons] at hp
  rw [hr, List.forall_mem_cons]
  exact ⟨h, fun z hz => h.mono_right (hp.1 z hz)⟩

theorem Ordered.not_leftFirst_left (H : Ordered rank D m) {rest : List α} (hl : m.left = x :: rest)
    (h : ¬LeftFirst rank m.backward x y) : ∀ z ∈ m.left, ¬LeftFirst rank m.backward z y := by
  have hp := H.left
  rw [hl, List.pairwise_cons] at hp
  rw [hl, List.forall_mem_cons]
  exact ⟨h, fun z hz hzy => h (hzy.mono_left (hp.1 z hz))⟩

/-! ## Ends of merges -/

section

variable (hlt : Ranks lt rank D)

include hlt

/-- With enough fuel both ways to go on end with one run used up, or all but used up. -/
theorem ends_of_ordered :
    (∀ {m : Merge α} {patience leftWins rightWins}, Ordered rank D m →
      2 * (m.left.length + m.right.length) + 2 ≤ fuel →
      ∃ p m', alternate lt fuel patience leftWins rightWins m = .ok (p, m') ∧
        Ordered rank D m' ∧ m'.isOver = true) ∧
    ∀ {m : Merge α} {patience}, Ordered rank D m → m.isOver = false →
      2 * (m.left.length + m.right.length) + 1 ≤ fuel →
      ∃ p m', search lt fuel patience m = .ok (p, m') ∧
        Ordered rank D m' ∧ m'.isOver = true := by
  induction fuel with
  | zero => exact ⟨fun _ h => by omega, fun _ _ h => by omega⟩
  | succ fuel ih =>
    refine ⟨fun {m patience leftWins rightWins} H hf => ?_, fun {m patience} H ho hf => ?_⟩
    · rw [alternate]
      split
      · next ho => exact ⟨_, _, rfl, H, ho⟩
      · next ho =>
        rw [Bool.not_eq_true] at ho
        split
        · exact ih.2 H ho (by omega)
        · obtain ⟨hl, hr⟩ := not_over ho
          obtain ⟨x, xs, hx⟩ := List.exists_cons_of_ne_nil hl
          obtain ⟨y, ys, hy⟩ := List.exists_cons_of_ne_nil hr
          have hD := prefersRight_spec (m := m) hlt (H.mem_left x (by simp [hx]))
            (H.mem_right y (by simp [hy]))
          simp only [hx, hy, hD, Checked.bind_ok]
          by_cases hfirst : LeftFirst rank m.backward x y
          · rw [if_neg (by simpa using hfirst)]
            refine ih.1 (H.takeLeft hr ?_) ?_
            · simpa [hx] using H.leftFirst_right hy hfirst
            · simp only [Merge.takeLeft, List.length_drop, hx, List.length_cons] at hf ⊢
              omega
          · rw [if_pos (by simpa using hfirst)]
            refine ih.1 (H.takeRight hl ?_) ?_
            · simpa [hy] using H.not_leftFirst_left hx hfirst
            · simp only [Merge.takeRight, List.length_drop, hy, List.length_cons] at hf ⊢
              omega
    · obtain ⟨hl, hr⟩ := not_over ho
      obtain ⟨b, taken, left, right⟩ := m
      obtain ⟨y, ys, rfl⟩ := List.exists_cons_of_ne_nil hr
      obtain ⟨n, hn, htake, hdrop⟩ := leftSpan_spec hlt H.mem_left H.left
        (H.mem_right y (by simp))
      have H₁ := H.takeLeft hr fun x hx => H.leftFirst_right rfl (htake x hx)
      have hlen₁ : (Merge.takeLeft ⟨b, taken, left, y :: ys⟩ n).left.length ≤ left.length := by
        simp [Merge.takeLeft]
      have hright₁ : (Merge.takeLeft ⟨b, taken, left, y :: ys⟩ n).right = y :: ys := rfl
      replace hdrop : ∀ x ∈ (Merge.takeLeft ⟨b, taken, left, y :: ys⟩ n).left, ¬LeftFirst rank
          (Merge.takeLeft ⟨b, taken, left, y :: ys⟩ n).backward x y := hdrop
      simp only [search, hn, Checked.bind_ok]
      generalize Merge.takeLeft ⟨b, taken, left, y :: ys⟩ n = m₁ at *
      split
      · next ho₁ => exact ⟨_, _, rfl, H₁, ho₁⟩
      next ho₁ =>
      -- All items left of the left run come behind the head of the right one.
      have hl₁ := (not_over ((Bool.not_eq_true _).mp ho₁)).1
      have H₂ := H₁.takeRight (n := 1) hl₁ (by simpa [hright₁] using hdrop)
      have hright₂ : (m₁.takeRight 1).right.length = ys.length := by simp [Merge.takeRight, hright₁]
      have hlen₂ : (m₁.takeRight 1).left.length = m₁.left.length := rfl
      generalize m₁.takeRight 1 = m₂ at *
      split
      · next hnil => exact absurd (List.length_eq_zero_iff.1 (hlen₂ ▸ by simp [hnil])) hl₁
      next x xs hx =>
      split
      · next ho₂ => exact ⟨_, _, rfl, H₂, ho₂⟩
      next ho₂ =>
      have hr₂ := (not_over ((Bool.not_eq_true _).mp ho₂)).2
      obtain ⟨k, hk, htake₂, hdrop₂⟩ := rightSpan_spec hlt H₂ (H₂.mem_left x (by simp [hx]))
      have H₃ := H₂.takeRight (by simp [hx]) fun y hy => H₂.not_leftFirst_left hx (htake₂ y hy)
      replace hdrop₂ : ∀ y ∈ (m₂.takeRight k).right, LeftFirst rank (m₂.takeRight k).backward x y :=
        hdrop₂
      have hleft₃ : (m₂.takeRight k).left = x :: xs := hx
      have hlen₃ : (m₂.takeRight k).right.length ≤ m₂.right.length := by simp [Merge.takeRight]
      rw [hk, Checked.bind_ok]
      generalize m₂.takeRight k = m₃ at *
      split
      · next ho₃ => exact ⟨_, _, rfl, H₃, ho₃⟩
      next ho₃ =>
      have hr₃ := (not_over ((Bool.not_eq_true _).mp ho₃)).2
      have H₄ := H₃.takeLeft (n := 1) hr₃ (by simpa [hleft₃] using hdrop₂)
      have hleft₄ : (m₃.takeLeft 1).left.length = xs.length := by simp [Merge.takeLeft, hleft₃]
      have hlen₄ : (m₃.takeLeft 1).right.length = m₃.right.length := rfl
      generalize m₃.takeLeft 1 = m₄ at *
      simp only [hx, List.length_cons] at hlen₂ hf
      split
      · next ho₄ => exact ⟨_, _, rfl, H₄, ho₄⟩
      · next ho₄ =>
        split
        · exact ih.2 H₄ ((Bool.not_eq_true _).mp ho₄) (by omega)
        · exact ih.1 H₄ (by omega)

end

/-- A merge that is over holds its items in their order. -/
theorem Ordered.items (H : Ordered rank D m) (h : m.isOver = true) :
    m.items.Pairwise fun a b => rank a ≤ rank b := by
  obtain ⟨b, taken, left, right⟩ := m
  cases b with
  | true =>
    have hbetween : ∀ y ∈ right, ∀ x ∈ left, rank y ≤ rank x := by
      obtain ⟨z, hz, hall⟩ := H.stop
      intro y hy x hx
      simp only [isOver, if_true, Bool.or_eq_true, decide_eq_true_eq] at h
      rcases h with h | h
      · exact absurd hx (by simp [List.isEmpty_iff.1 h])
      · obtain ⟨w, rfl⟩ := List.length_eq_one_iff.1 (Nat.le_antisymm h (List.length_pos_of_mem hy))
        cases hz
        cases List.mem_singleton.1 hy
        exact (hall x hx).ahead
    refine List.pairwise_append.2 ⟨List.pairwise_append.2 ⟨?_, ?_, ?_⟩, H.taken, ?_⟩
    · exact List.pairwise_reverse.2 H.right
    · exact List.pairwise_reverse.2 H.left
    · exact fun y hy x hx => hbetween y (List.mem_reverse.1 hy) x (List.mem_reverse.1 hx)
    · intro x hx t ht
      rcases List.mem_append.1 hx with hx | hx
      · exact H.taken_right t ht x (List.mem_reverse.1 hx)
      · exact H.taken_left t ht x (List.mem_reverse.1 hx)
  | false =>
    have hbetween : ∀ y ∈ right, ∀ x ∈ left, rank y ≤ rank x := by
      obtain ⟨z, hz, hall⟩ := H.stop
      intro y hy x hx
      simp only [isOver, Bool.false_eq_true, if_false, Bool.or_eq_true, decide_eq_true_eq] at h
      rcases h with h | h
      · exact absurd hy (by simp [List.isEmpty_iff.1 h])
      · obtain ⟨w, rfl⟩ := List.length_eq_one_iff.1 (Nat.le_antisymm h (List.length_pos_of_mem hx))
        cases hz
        cases List.mem_singleton.1 hx
        exact ahead_of_not_leftFirst (hall y hy)
    refine List.pairwise_append.2 ⟨List.pairwise_append.2 ⟨?_, H.right, ?_⟩, H.left, ?_⟩
    · exact List.pairwise_reverse.2 H.taken
    · exact fun t ht y hy => H.taken_right t (List.mem_reverse.1 ht) y hy
    · intro y hy x hx
      rcases List.mem_append.1 hy with hy | hy
      · exact H.taken_left y (List.mem_reverse.1 hy) x hx
      · exact hbetween y hy x hx

/-- The run that a merge of ordered runs ends with is ordered. -/
theorem run_spec (hlt : Ranks lt rank D) (H : Ordered rank D m) :
    ∃ p xs, run lt patience m = .ok (p, xs) ∧ xs.Pairwise fun a b => rank a ≤ rank b := by
  obtain ⟨p, m', hrun, H', ho⟩ := (ends_of_ordered hlt).1
    H (Nat.le_refl _)
  rw [run, hrun]
  exact ⟨_, _, rfl, H'.items ho⟩

end Merge

section

variable {β : Type} [LinearOrder β] {rank : α → β} {D : α → Prop} {left right : List α}

/-- The merge of two ordered runs, where the head of the right one comes before all of the left
one, and the last item of the left one behind all of the right one. -/
theorem start_ordered {x y : α} {rest : List α} (hright : right = y :: rest)
    (hl : ∀ z ∈ left, D z) (hr : ∀ z ∈ right, D z)
    (Hl : left.Pairwise fun a b => rank a ≤ rank b) (Hr : right.Pairwise fun a b => rank a ≤ rank b)
    (hy : ∀ z ∈ left, rank y < rank z) (hx : left.getLast? = some x)
    (hx' : ∀ z ∈ right, rank z < rank x) : Merge.Ordered rank D
      (if left.length ≤ right.length then (Merge.mk false [] left right).takeRight 1
      else (Merge.mk true [] left.reverse right.reverse).takeLeft 1) := by
  have hne : left ≠ [] := fun h => by simp [h] at hx
  split
  · refine Merge.Ordered.takeRight (m := ⟨false, [], left, right⟩) ⟨hl, hr, Hl, Hr, .nil,
      nofun, nofun, ⟨x, hx, fun z hz => not_le_of_gt (hx' z hz)⟩⟩ hne ?_
    simp only [hright, List.take_succ_cons, List.take_zero, List.mem_singleton, forall_eq]
    exact fun z hz => not_le_of_gt (hy z hz)
  · refine Merge.Ordered.takeLeft (m := ⟨true, [], left.reverse, right.reverse⟩)
      ⟨by simpa using hl, by simpa using hr, List.pairwise_reverse.2 Hl, List.pairwise_reverse.2 Hr,
        .nil, nofun, nofun, ⟨y, by simp [hright], fun z hz => hy z (List.mem_reverse.1 hz)⟩⟩
      (by simp [hright]) ?_
    have hhead : left.reverse.take 1 = [x] := by
      rw [List.getLast?_eq_head?_reverse] at hx
      obtain ⟨w, hw⟩ := List.head?_eq_some_iff.1 hx
      simp [hw]
    simp only [hhead, List.mem_singleton, forall_eq]
    exact fun z hz => hx' z (List.mem_reverse.1 hz)

theorem le_last {xs : List α} {x : α} (H : xs.Pairwise fun a b => rank a ≤ rank b)
    (hx : xs.getLast? = some x) : ∀ z ∈ xs, rank z ≤ rank x := by
  obtain ⟨ys, rfl⟩ := List.getLast?_eq_some_iff.1 hx
  intro z hz
  rcases List.mem_append.1 hz with hz | hz
  · exact (List.pairwise_append.1 H).2.2 z hz x (by simp)
  · exact le_of_eq (congrArg rank (List.mem_singleton.1 hz))

/-- Two ordered runs are merged into an ordered run. -/
theorem mergeRuns_spec {patience : Nat} (hlt : Ranks lt rank D) (hl : ∀ z ∈ left, D z)
    (hr : ∀ z ∈ right, D z) (Hl : left.Pairwise fun a b => rank a ≤ rank b)
    (Hr : right.Pairwise fun a b => rank a ≤ rank b) :
    ∃ p xs, mergeRuns lt patience left right = .ok (p, xs) ∧
      xs.Pairwise fun a b => rank a ≤ rank b := by
  unfold mergeRuns
  split
  · exact ⟨_, _, rfl, Hl⟩
  next y rest =>
  obtain ⟨n, hn, htake, hdrop⟩ := Merge.leftSpan_spec (m := ⟨false, [], left, y :: rest⟩) hlt hl Hl
    (hr y (by simp))
  simp only [hn, Checked.bind_ok]
  replace hdrop : ∀ z ∈ left.drop n, rank y < rank z := fun z hz => lt_of_not_ge (hdrop z hz)
  have hyr : ∀ z ∈ y :: rest, rank y ≤ rank z := by
    simpa using (List.pairwise_cons.1 Hr).1
  have hbefore : ∀ a ∈ left.take n, ∀ z ∈ y :: rest, rank a ≤ rank z := fun a ha z hz =>
    le_trans (htake a ha) (hyr z hz)
  have Hl' := Hl
  rw [← List.take_append_drop n left, List.pairwise_append] at Hl'
  split
  · exact ⟨_, _, rfl, List.pairwise_append.2 ⟨Hl'.1, Hr, hbefore⟩⟩
  next x hx =>
  have hxl : x ∈ left.drop n := List.mem_of_getLast? hx
  obtain ⟨c, hc, hcut, hlow, hafter⟩ := Merge.exists_cut (Q := fun z => rank z < rank x)
    (Hr.imp fun hab hb => lt_of_le_of_lt hab hb)
  have hpos : 0 < c := (hcut 0 (by simp)).1 (hdrop x hxl)
  -- What stays behind the merge comes behind the last item of the left run.
  replace hafter : ∀ z ∈ (y :: rest).drop c, rank x ≤ rank z := fun z hz =>
    le_of_not_gt (hafter z hz)
  have Hr' := Hr
  rw [← List.take_append_drop c (y :: rest), List.pairwise_append] at Hr'
  have hhead : (y :: rest).take c = y :: rest.take (c - 1) := by
    rw [List.take_cons hpos]
  obtain ⟨p, xs, hrun, Hxs⟩ := Merge.run_spec hlt (start_ordered hhead
    (fun z hz => hl z (List.mem_of_mem_drop hz)) (fun z hz => hr z (List.mem_of_mem_take hz))
    Hl'.2.1 Hr'.1 hdrop hx hlow)
  refine ⟨p, left.take n ++ xs ++ (y :: rest).drop c, ?_, ?_⟩
  · refine Checked.bind_eq_ok.2 ⟨c, gallop_spec hc (by simp) fun i hi => ?_, ?_⟩
    · have hi' : i < (y :: rest).length := by simp at hi ⊢; omega
      rw [List.getElem?_eq_getElem hi']
      refine (hlt _ x (hr _ (List.getElem_mem hi')) (hl x (List.mem_of_mem_drop hxl))).trans ?_
      simp only [hcut i hi']
    · rw [if_neg (by omega), hrun]
      rfl
  · have hmem : ∀ z ∈ xs, z ∈ left.drop n ∨ z ∈ (y :: rest).take c := fun z hz =>
      List.mem_append.1 (((Merge.run_perm hrun).trans start_perm).mem_iff.1 hz)
    refine List.pairwise_append.2 ⟨List.pairwise_append.2 ⟨Hl'.1, Hxs, ?_⟩, Hr'.2.1, ?_⟩
    · intro a ha z hz
      rcases hmem z hz with hz | hz
      · exact Hl'.2.2 a ha z hz
      · exact hbefore a ha z (List.mem_of_mem_take hz)
    · intro z hz b hb
      rcases List.mem_append.1 hz with hz | hz
      · exact hbefore z hz b (List.mem_of_mem_drop hb)
      rcases hmem z hz with hz | hz
      · exact le_trans (le_last Hl'.2.1 hx z hz) (hafter b hb)
      · exact Hr'.2.2 z hz b hb

end

end Sorting
end JoinOrder
