import JoinOrder.Proofs.Handle
import JoinOrder.Storage.Stream

/-!
# Streams in memory

A stream has no key to be searched by. It serves lookups of positions as long as these, and the
numbers behind them, fit into a word.
-/

namespace JoinOrder
namespace RowStream

variable {s : RowStream} {rows : List (List Value)}

/-- A stream of these rows, whose length is a number if it is declared. -/
structure IsOver (s : RowStream) (rows : List (List Value)) : Prop where
  rows : ∃ given, s.rows = .ok given ∧ given.mapM Value.elements = .ok rows
  length : ∀ v, s.length = some v → ∃ n, v = .int n

/-- The positions that a stream can be asked for. -/
def Asks (n : Int) : Prop := n + 1 < 2 ^ 63

theorem numbered_spec {given : List Value} (h : given.mapM Value.elements = .ok rows) :
    (RowStream.numbered given).Yields (JoinOrder.numbered rows) := by
  rw [Checked.mapM_eq_ok] at h
  have hrow : ∀ e ∈ given.zipIdx, (fun (e : Value × Nat) => do
      return (e.2, ← e.1.elements) : Value × Nat → Checked StoredRow) e =
        .ok (e.2, rows.getD e.2 []) := by
    rintro ⟨v, i⟩ he
    obtain ⟨hi, hget⟩ := List.getElem?_eq_some_iff.1 (List.mem_zipIdx_iff_getElem?.1 he)
    have hi' : i < rows.length := h.length_eq ▸ hi
    have hv := h.get hi hi'
    rw [List.get_eq_getElem, List.get_eq_getElem, hget] at hv
    simp [hv, List.getElem?_eq_getElem hi']
  have hy := (Rows.yields_ofList given.zipIdx).map hrow
  have hlist : given.zipIdx.map (fun e => (e.2, rows.getD e.2 [])) = JoinOrder.numbered rows := by
    rw [numbered_eq_range, ← h.length_eq]
    refine List.ext_getElem (by simp) fun i hi _ => by simp
  exact hlist ▸ hy

/-- Skipping rows leads to the one behind them, if there is one. -/
theorem skip_spec {rs : Rows StoredRow} {xs : List StoredRow} (h : rs.Yields xs) (n : Nat) :
    (skip n rs).Yields (xs[n]?).toList := by
  induction rs generalizing xs n with
  | done =>
    cases Rows.yields_done_iff.1 h
    simpa [skip] using Rows.yields_done
  | broken fault => exact (Rows.not_yields_broken h).elim
  | row x tail ih =>
    obtain ⟨xs, ht, rfl⟩ := Rows.yields_row_iff.1 h
    cases n with
    | zero => exact Rows.yields_single x
    | succ n => exact ih () ht n

/-- At most one row stands at a position. -/
theorem filter_position (n : Int) : (JoinOrder.numbered rows).filter
    (StoredRow.isAt [] [] (some (.int n))) =
      if n < 0 then [] else ((JoinOrder.numbered rows)[n.toNat]?).toList := by
  have hfilter : (JoinOrder.numbered rows).filter (StoredRow.isAt [] [] (some (.int n))) =
      (JoinOrder.numbered rows).filter fun r => Value.eq (.ofNat r.1) (.int n) :=
    List.filter_congr fun r _ => by simp [StoredRow.isAt, Value.eqList]
  rw [hfilter, numbered_eq_range, List.filter_map]
  split
  · next h =>
    refine List.map_eq_nil_iff.2 (List.filter_eq_nil_iff.2 fun i _ => ?_)
    simp only [Function.comp_apply, Value.ofNat, Value.eq_int, decide_eq_true_eq]
    omega
  · next h =>
    obtain ⟨m, rfl⟩ := Int.eq_ofNat_of_zero_le (a := n) (by omega)
    have hcongr : ∀ i ∈ List.range rows.length, ((fun r : StoredRow =>
        Value.eq (.ofNat r.1) (.int m)) ∘ fun i => (i, rows.getD i [])) i = decide (i = m) :=
      fun i _ => by simp only [Function.comp_apply, Value.ofNat, Value.eq_int, Int.ofNat_inj]
    rw [List.filter_congr hcongr, List.filter_eq, List.nodup_range.count, Int.toNat_natCast]
    by_cases hm : m < rows.length
    · simp [hm]
    · simp [hm]

theorem withinLength_int (n m : Int) :
    withinLength (.int n) (.int m) = .ok (decide (0 ≤ n ∧ n < m)) := by
  rw [withinLength, Value.le_int, Checked.bind_ok, Value.lt_int]
  by_cases h : 0 ≤ n
  · simp [h]
  · simp [h]

theorem estimate_unmeasured {v : Value} (h : s.length = none) :
    s.estimate [] (some v) = .ok (.ofNat 1) := by
  rw [estimate, if_neg (by simp), h]
  rfl

/-- A declared length decides whether there is a row at a position. -/
theorem estimate_position {n m : Int} (h : s.length = some (.int m)) :
    s.estimate [] (some (.int n)) = .ok (.ofNat (if 0 ≤ n ∧ n < m then 1 else 0)) := by
  have hb := withinLength_int n m
  rw [estimate, if_neg (by simp)]
  simp only [h, hb, Checked.bind_ok, Checked.pure_def]
  by_cases hr : 0 ≤ n ∧ n < m
  · simp [hr, Value.ofNat]
  · simp [hr, Value.ofNat]

/-- What a stream finds the right rows for as positions: integers and truth values, and fractional
numbers that are not the position of any row. -/
def Locates (rows : List (List Value)) (v : Value) : Prop :=
  (∃ n, v.integer? = some n ∧ Asks n) ∨ (∃ x, v = .real x) ∧ Misses rows v

/-- A stream skips to the row at a position. -/
theorem IsOver.scan_position (H : s.IsOver rows) {v : Value} (hv : Locates rows v) :
    (s.scan [] (some v)).Yields
      ((JoinOrder.numbered rows).filter (StoredRow.isAt [] [] (some v))) := by
  obtain ⟨given, hg, hm⟩ := H.rows
  rw [scan, if_neg (by simp), hg, Checked.bind_ok]
  rcases hv with ⟨n, hn, ha⟩ | ⟨⟨x, rfl⟩, hmiss⟩
  · have hat : StoredRow.isAt [] [] (some v) = StoredRow.isAt [] [] (some (.int n)) := by
      cases v <;> cases hn <;> rfl
    rw [hat, filter_position]
    simp only [hn]
    split
    · exact Rows.yields_done
    · next h =>
      have hw : inWord (n + 1) = true := by
        rw [Asks] at ha
        simp only [inWord, Bool.and_eq_true, decide_eq_true_eq]
        omega
      rw [hw, if_neg (by simp)]
      exact skip_spec (numbered_spec hm) n.toNat
  · rw [List.filter_eq_nil_iff.2]
    · exact Rows.yields_done
    intro r hr
    have hlt := (List.getElem?_eq_some_iff.1 (mem_numbered.1 hr)).1
    simp [StoredRow.isAt, hmiss r.1 hlt]

/-- A stream only has its own rows, whatever it is asked for. -/
theorem IsOver.scan_each (H : s.IsOver rows) (lead : List Value) (position : Option Value) :
    (s.scan lead position).Each (· ∈ JoinOrder.numbered rows) := by
  obtain ⟨given, hg, hm⟩ := H.rows
  have hall := numbered_spec hm
  rw [scan, hg, Checked.bind_ok]
  split
  · trivial
  cases position with
  | none => exact hall.each fun _ hr => hr
  | some v =>
    dsimp only
    split
    · trivial
    split
    · trivial
    split
    · trivial
    · exact (skip_spec hall _).each fun r hr => List.mem_of_getElem? (Option.mem_toList.1 hr)

theorem IsOver.scan_spec (H : s.IsOver rows) {position : Option Value}
    (hp : ∀ v, position = some v → Locates rows v) : (s.scan [] position).Yields
      ((JoinOrder.numbered rows).filter (StoredRow.isAt [] [] position)) := by
  cases position with
  | none =>
    obtain ⟨given, hg, hm⟩ := H.rows
    rw [scan, if_neg (by simp), hg, Checked.bind_ok,
      List.filter_eq_self.2 fun r _ => by simp [StoredRow.isAt, Value.eqList]]
    exact numbered_spec hm
  | some v => exact H.scan_position (hp v rfl)

/-- The size of at most one row is announced for a number. -/
theorem IsOver.estimate_number (H : s.IsOver rows) {v : Value} {a : Number}
    (hv : v.number? = some a) : ∃ b : Bool, s.estimate [] (some v) = .ok (.ofNat b.toNat) := by
  cases hlen : s.length with
  | none => exact ⟨true, estimate_unmeasured hlen⟩
  | some length =>
    obtain ⟨m, rfl⟩ := H.length length hlen
    obtain ⟨b, hb⟩ : ∃ b, withinLength v (.int m) = .ok b := by
      obtain ⟨le, hle⟩ : ∃ b, Value.le (.int 0) v = .ok b := by
        cases v <;> cases hv <;> exact ⟨_, rfl⟩
      obtain ⟨lt, hlt⟩ : ∃ b, Value.lt v (.int m) = .ok b := by
        cases v <;> cases hv <;> exact ⟨_, rfl⟩
      rw [withinLength, hle, Checked.bind_ok, hlt]
      cases le <;> exact ⟨_, rfl⟩
    refine ⟨b, ?_⟩
    rw [estimate, if_neg (by simp)]
    simp only [hlen, hb, Checked.bind_ok, Checked.pure_def]
    cases b <;> rfl

/-- A stream serves lookups of positions. -/
theorem IsOver.serves {κ : Type} {K : ValueClass κ} (H : s.IsOver rows) :
    s.handle.Serves K [] (Locates rows) rows := by
  have hlead : ∀ lead : List Value, lead.length ≤ ([] : List Nat).length → lead = [] :=
    fun lead h =>
    List.length_eq_zero_iff.1 (Nat.le_zero.1 h)
  constructor
  · intro lead position hl hp
    cases hlead lead hl.length_le
    exact H.scan_spec hp
  · intro lead position hl hp
    cases hlead lead hl.length_le
    cases position with
    | none => exact ⟨_, _, rfl, rfl⟩
    | some v =>
      obtain ⟨a, ha⟩ : ∃ a, v.number? = some a := by
        rcases hp v rfl with ⟨n, hn, -⟩ | ⟨⟨x, rfl⟩, -⟩
        · cases v <;> cases hn <;> exact ⟨_, rfl⟩
        · exact ⟨_, rfl⟩
      obtain ⟨b, hb⟩ := H.estimate_number ha
      exact ⟨_, _, hb, Cardinality.ofValue_ofNat (by cases b <;> decide)⟩

/-- At most one row stands at a position, and none behind the end. -/
theorem countP_position (n : Int) : (JoinOrder.numbered rows).countP
    (StoredRow.isAt [] [] (some (.int n))) = if 0 ≤ n ∧ n < rows.length then 1 else 0 := by
  rw [List.countP_eq_length_filter, filter_position]
  by_cases hn : n < 0
  · have h : ¬(0 ≤ n ∧ n < rows.length) := by omega
    rw [if_pos hn, if_neg h, List.length_nil]
  · obtain ⟨m, rfl⟩ := Int.eq_ofNat_of_zero_le (Int.not_lt.1 hn)
    rw [if_neg hn, Int.toNat_natCast, numbered_eq_range, List.getElem?_map]
    by_cases hm : m < rows.length
    · simp [hm]
    · simp [hm]

/-- A stream announces that it is unbounded, or that a position is within its length. -/
theorem announces {κ : Type} {K : ValueClass κ}
    (h : ∀ length, s.length = some length → length = .ofNat rows.length) :
    s.handle.Announces K [] rows where
  estimate lead position hl hp := by
    cases List.length_eq_zero_iff.1 (Nat.le_zero.1 hl.length_le)
    cases position with
    | none => exact ⟨_, _, rfl, rfl, .inl rfl⟩
    | some v =>
      obtain ⟨n, rfl⟩ := hp v rfl
      rw [countP_position]
      cases hlen : s.length with
      | none =>
        refine ⟨.ofNat 1, _, estimate_unmeasured hlen, Cardinality.ofValue_ofNat (by decide),
          .inr ⟨1, rfl, ?_⟩⟩
        split <;> omega
      | some length =>
        cases h length hlen
        exact ⟨_, _, estimate_position hlen, Cardinality.ofValue_ofNat (by split <;> decide),
          .inr ⟨_, rfl, Nat.le_refl _⟩⟩
  frequency f hf := by cases hf

end RowStream
end JoinOrder
