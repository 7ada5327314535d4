import JoinOrder.Proofs.Checked
import JoinOrder.Sorting.Search

/-!
# Searching

Where a test holds for the positions below a boundary and for no others, both searches find the
boundary.
-/

namespace JoinOrder

variable {before : Nat → Checked Bool} {lo hi c length hint : Nat}

theorem bisectWithin_spec {fuel : Nat} (hl : lo ≤ c) (hh : c ≤ hi) (hf : hi - lo ≤ fuel)
    (h : ∀ i, lo ≤ i → i < hi → before i = .ok (decide (i < c))) :
    bisectWithin before fuel lo hi = .ok c := by
  induction fuel generalizing lo hi with
  | zero =>
    rw [bisectWithin]
    exact congrArg _ (by omega)
  | succ fuel ih =>
    rw [bisectWithin]
    by_cases hlt : lo < hi
    · have hmid := h ((lo + hi) / 2) (by omega) (by omega)
      simp only [hlt, if_true, hmid, Checked.bind_ok]
      by_cases hc : (lo + hi) / 2 < c
      · rw [if_pos (decide_eq_true hc)]
        exact ih (by omega) hh (by omega) fun i hi hh => h i (by omega) hh
      · rw [if_neg (by simpa using hc)]
        exact ih hl (by omega) (by omega) fun i hi hh => h i hi (by omega)
    · rw [if_neg hlt]
      exact congrArg _ (by omega)

theorem bisect_spec (hl : lo ≤ c) (hh : c ≤ hi)
    (h : ∀ i, lo ≤ i → i < hi → before i = .ok (decide (i < c))) :
    bisect before lo hi = .ok c := bisectWithin_spec hl hh (Nat.le_refl _) h

/-- Whatever is tested, the search stays between its ends. -/
theorem bisectWithin_mem {fuel : Nat} (h : bisectWithin before fuel lo hi = .ok c)
    (hl : lo ≤ hi) : lo ≤ c ∧ c ≤ hi := by
  induction fuel generalizing lo hi with
  | zero =>
    cases h
    exact ⟨Nat.le_refl _, hl⟩
  | succ fuel ih =>
    rw [bisectWithin] at h
    split at h
    · obtain ⟨b, -, h⟩ := Checked.bind_eq_ok.1 h
      cases b with
      | true =>
        have := ih h (by omega)
        omega
      | false =>
        have := ih h (by omega)
        omega
    · cases h
      exact ⟨Nat.le_refl _, hl⟩

/-- Widening stops at a distance beyond the boundary `c`, or at the greatest one. -/
theorem widen_spec {holds : Nat → Checked Bool} {most : Nat} (fuel last next : Nat)
    (hlast : last < c) (hc : c ≤ most) (hnext : last < next) (hf : most - next < fuel ∨ most ≤ next)
    (h : ∀ d, d < most → holds d = .ok (decide (d < c))) :
    ∃ l n, widen holds most fuel last next = .ok (l, n) ∧ l < c ∧ c ≤ n ∧ n ≤ most := by
  induction fuel generalizing last next with
  | zero =>
    rw [widen]
    exact ⟨_, _, rfl, hlast, hc, Nat.le_refl _⟩
  | succ fuel ih =>
    rw [widen]
    by_cases hlt : next < most
    · rw [if_pos hlt, h _ hlt, Checked.bind_ok]
      by_cases hn : next < c
      · rw [if_pos (decide_eq_true hn)]
        exact ih _ _ hn (by omega) (by omega)
      · rw [if_neg (by simpa using hn)]
        exact ⟨_, _, rfl, hlast, by omega, by omega⟩
    · rw [if_neg hlt]
      exact ⟨_, _, rfl, hlast, hc, Nat.le_refl _⟩

theorem gallop_spec (hc : c ≤ length) (hhint : hint < length ∨ hint = 0 ∧ length = 0)
    (h : ∀ i, i < length ∨ i = hint → before i = .ok (decide (i < c))) :
    gallop before length hint = .ok c := by
  rw [gallop, h hint (.inr rfl), Checked.bind_ok]
  by_cases hlt : hint < c
  · -- The boundary lies behind the position that the search begins at.
    rw [if_pos (decide_eq_true hlt)]
    have hbeyond : ∀ d < length - hint, before (hint + d) = .ok (decide (d < c - hint)) := by
      intro d hd
      rw [h _ (by omega)]
      exact congrArg _ (by simp only [decide_eq_decide]; omega)
    obtain ⟨l, n, hw, hl, hn, hmost⟩ := widen_spec (length - hint) 0 1 (by omega) (by omega)
      (by omega) (by omega) hbeyond
    simp only [hw, Checked.bind_ok]
    exact bisect_spec (by omega) (by omega) fun i _ _ => h i (by omega)
  · rw [if_neg (by simpa using hlt)]
    have hbehind : ∀ d < hint + 1,
        (before (hint - d)).map (!·) = .ok (decide (d < hint + 1 - c)) := by
      intro d hd
      rw [h _ (by omega), Checked.map_ok, ← decide_not]
      exact congrArg _ (by simp only [decide_eq_decide]; omega)
    obtain ⟨l, n, hw, hl, hn, hmost⟩ := widen_spec (hint + 1) 0 1 (by omega) (by omega)
      (by omega) (by omega) hbehind
    simp only [hw, Checked.bind_ok]
    exact bisect_spec (by omega) (by omega) fun i _ _ => h i (by omega)

end JoinOrder
