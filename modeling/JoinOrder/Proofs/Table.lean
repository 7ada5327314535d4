import JoinOrder.Proofs.Handle
import JoinOrder.Proofs.Monotone
import JoinOrder.Storage.Table

/-!
# Sorted tables

A table that has been built holds the given rows in the order of their keys (`build_ranked`), and
bisection finds the positions of the rows whose keys begin with some values (`IsRanked.range_spec`).
For the latter only the keys need an order, and only where they are compared.
-/

namespace JoinOrder

variable {κ : Type} [LinearOrder κ] {R : RankedClass κ}

/-! ## Order of beginnings -/

theorem lt_of_take_lt_take {xs ys : List κ} {n : Nat} (h : xs.take n < ys.take n) : xs < ys := by
  induction n generalizing xs ys with
  | zero => simp at h
  | succ n ih =>
    cases xs with
    | nil =>
      cases ys with
      | nil => simp at h
      | cons y ys => simp
    | cons x xs =>
      cases ys with
      | nil => simp at h
      | cons y ys =>
        rw [List.take_succ_cons, List.take_succ_cons, List.cons_lt_cons_iff] at h
        rw [List.cons_lt_cons_iff]
        exact h.imp_right fun ⟨hxy, hl⟩ => ⟨hxy, ih hl⟩

theorem take_le_take {xs ys : List κ} (h : xs ≤ ys) (n : Nat) : xs.take n ≤ ys.take n :=
  le_of_not_gt fun hlt => not_lt_of_ge h (lt_of_take_lt_take hlt)

namespace SortedTable

variable {t : SortedTable} {rows : List (List Value)} {sortKey lead : List Value}
  {row key : List Value} {i : Nat}

/-! ## Building a table -/

theorem itemAt_mem {offset x : Value} (h : itemAt row offset = .ok x) : x ∈ row := by
  unfold itemAt atOffset at h
  split at h
  · split at h
    · next hx =>
      cases h
      obtain ⟨j, -, hj⟩ := Option.bind_eq_some_iff.1 hx
      exact List.mem_of_getElem? hj
    · cases h
  · cases h

theorem keyOf_subset (h : keyOf sortKey row = .ok key) : ∀ x ∈ key, x ∈ row := fun x hx => by
  obtain ⟨offset, -, ho⟩ := Checked.exists_of_mem_mapM h hx
  exact itemAt_mem ho

/-- A table that is sorted by its keys, which are of a class. -/
structure IsRanked (R : RankedClass κ) (t : SortedTable) : Prop where
  keyed : List.Forall₂ (fun row key => keyOf t.sortKey row = .ok key) t.rows.toList t.keys.toList
  all : ∀ key ∈ t.keys.toList, ∀ v ∈ key, R.carrier v
  sorted : t.keys.toList.Pairwise fun a b => a.map R.code ≤ b.map R.code

/-- Keyed rows are compared by the codes of their keys first. -/
theorem keyedLt_of_ok {a b : List Value × List Value} {c : Bool}
    (ha : (∀ v ∈ a.1, R.carrier v) ∧ ∀ v ∈ a.2, R.carrier v)
    (hb : (∀ v ∈ b.1, R.carrier v) ∧ ∀ v ∈ b.2, R.carrier v) (h : keyedLt a b = .ok c) :
    c = true ↔ [a.1.map R.code, a.2.map R.code] < [b.1.map R.code, b.2.map R.code] := by
  have hall : ∀ {ks vs : List Value}, (∀ v ∈ ks, R.carrier v) ∧ (∀ v ∈ vs, R.carrier v) →
      ∀ v ∈ [Value.tuple ks, .tuple vs], R.tuples.carrier v := by
    rintro ks vs ⟨hks, hvs⟩
    exact List.forall_mem_cons.2 ⟨⟨_, rfl, hks⟩, List.forall_mem_singleton.2 ⟨_, rfl, hvs⟩⟩
  exact RankedClass.ltList_iff_of_ok (hall ha) (hall hb) h

theorem map_snd_keyed {keyed : List (List Value × List Value)}
    (h : rows.mapM (fun row => do return (← keyOf sortKey row, row)) = .ok keyed) :
    keyed.map Prod.snd = rows := by
  rw [Checked.mapM_eq_ok] at h
  induction h with
  | nil => rfl
  | cons hrow _ ih =>
    obtain ⟨key, -, hrow⟩ := Checked.bind_eq_ok.1 hrow
    cases hrow
    rw [List.map_cons, ih]

/-- A table has the rows that it is built from, sorted by their keys. -/
theorem build_ranked (h : build rows sortKey = .ok t)
    (hr : ∀ row ∈ rows, ∀ v ∈ row, R.carrier v) :
    t.sortKey = sortKey ∧ t.rows.toList.Perm rows ∧ t.IsRanked R := by
  obtain ⟨keyed, hk, h⟩ := Checked.bind_eq_ok.1 h
  obtain ⟨sorted, hs, h⟩ := Checked.bind_eq_ok.1 h
  cases h
  have hkeyed : ∀ e ∈ keyed, e.2 ∈ rows ∧ keyOf sortKey e.2 = .ok e.1 := by
    intro e he
    obtain ⟨row, hrow, he⟩ := Checked.exists_of_mem_mapM hk he
    obtain ⟨key, hkey, he⟩ := Checked.bind_eq_ok.1 he
    cases he
    exact ⟨hrow, hkey⟩
  have hall : ∀ e ∈ keyed, (∀ v ∈ e.1, R.carrier v) ∧ ∀ v ∈ e.2, R.carrier v := fun e he =>
    ⟨fun v hv => hr _ (hkeyed e he).1 v (keyOf_subset (hkeyed e he).2 v hv),
      hr _ (hkeyed e he).1⟩
  have hperm := Sorting.sort_perm hs
  have hsorted := Sorting.sort_ordered (fun _ _ _ => keyedLt_of_ok) hall hs
  refine ⟨rfl, (hperm.map _).trans (.of_eq (map_snd_keyed hk)), ⟨?_, fun key hkey => ?_, ?_⟩⟩
  · rw [List.forall₂_map_left_iff, List.forall₂_map_right_iff, List.forall₂_same]
    exact fun e he => (hkeyed e (hperm.mem_iff.1 he)).2
  · obtain ⟨e, he, rfl⟩ := List.mem_map.1 hkey
    exact (hall e (hperm.mem_iff.1 he)).1
  · refine List.pairwise_map.2 (hsorted.imp fun hab => le_of_not_gt fun hlt => ?_)
    exact not_lt_of_ge hab (by simp [List.cons_lt_cons_iff, hlt])

/-! ## Ranges of positions -/

variable {width : Nat} {places : List Nat}

theorem map_keyLead {n : Nat} :
    (t.keyLead n i).map R.code = ((t.keys.getD i []).map R.code).take n := by
  rw [keyLead, List.map_take]

theorem IsRanked.length_eq (H : t.IsRanked R) : t.keys.toList.length = t.rows.size :=
  H.keyed.length_eq.symm.trans Array.length_toList

/-- The values in a lookup can be compared with the beginnings of the keys. -/
def Compares (t : SortedTable) (lead : List Value) : Prop :=
  ∀ key ∈ t.keys.toList, Value.Comparable (key.take lead.length) lead

theorem IsRanked.compares (H : t.IsRanked R) (hR : R.Total) (hl : ∀ v ∈ lead, R.carrier v) :
    t.Compares lead := fun key hkey =>
  hR.comparable (fun v hv => H.all key hkey v (List.mem_of_mem_take hv)) hl

/-- The positions in a range are those of the rows whose keys begin with the given values. -/
theorem IsRanked.range_spec (H : t.IsRanked R) (hl : ∀ v ∈ lead, R.carrier v)
    (hc : t.Compares lead) (hn : lead.length ≤ t.sortKey.length) :
    ∃ lower upper, t.range lead = .ok (lower, upper) ∧ lower ≤ upper ∧ upper ≤ t.rows.size ∧
      ∀ i < t.rows.size, lower ≤ i ∧ i < upper ↔
        (t.keyLead lead.length i).map R.code = lead.map R.code := by
  unfold range
  split
  · next h =>
    cases List.isEmpty_iff.1 h
    refine ⟨0, _, rfl, Nat.zero_le _, Nat.le_refl _, fun i hi => ?_⟩
    simp [keyLead, hi]
  rw [if_neg (by omega)]
  have hlen := H.length_eq
  obtain ⟨lower, hle, hlower, -⟩ := Sorting.Merge.exists_cut
    (Q := fun key : List Value => (key.map R.code).take lead.length < lead.map R.code)
    (H.sorted.imp fun hab hb => lt_of_le_of_lt (take_le_take hab _) hb)
  obtain ⟨upper, hle', hupper, -⟩ := Sorting.Merge.exists_cut
    (Q := fun key : List Value => (key.map R.code).take lead.length ≤ lead.map R.code)
    (H.sorted.imp fun hab hb => le_trans (take_le_take hab _) hb)
  have hkey : ∀ i (hi : i < t.rows.size), t.keys.getD i [] = t.keys.toList[i] := by
    intro i hi
    rw [Array.getD_eq_getD_getElem?, ← Array.getElem?_toList, List.getElem?_eq_getElem (hlen ▸ hi),
      Option.getD_some]
  have hle'' : lower ≤ upper := by
    by_contra hlt
    have hi : upper < t.keys.toList.length := by omega
    exact absurd ((hupper upper hi).1 (le_of_lt ((hlower upper hi).2 (by omega)))) (by omega)
  have hlead : ∀ i (hi : i < t.rows.size), (∀ v ∈ t.keyLead lead.length i, R.carrier v) ∧
      Value.Comparable (t.keyLead lead.length i) lead := by
    intro i hi
    rw [keyLead, hkey i hi]
    have hmem := List.getElem_mem (hlen ▸ hi : i < t.keys.toList.length)
    exact ⟨fun v hv => H.all _ hmem v (List.mem_of_mem_take hv), hc _ hmem⟩
  have hfirst : bisect (fun i => Value.ltList (t.keyLead lead.length i) lead) 0 t.rows.size =
      .ok lower := by
    refine bisect_spec (Nat.zero_le _) (by omega) fun i _ hi => ?_
    obtain ⟨hall, ⟨b, hb⟩, -⟩ := hlead i hi
    rw [hb, RankedClass.ltList_of_ok hall hl hb, map_keyLead, hkey i hi]
    simp only [hlower i (hlen ▸ hi)]
  have hsecond : bisect (fun i => (Value.ltList lead (t.keyLead lead.length i)).map (!·)) lower
      t.rows.size = .ok upper := by
    refine bisect_spec hle'' (by omega) fun i _ hi => ?_
    obtain ⟨hall, -, b, hb⟩ := hlead i hi
    rw [hb, RankedClass.ltList_of_ok hl hall hb, map_keyLead, hkey i hi, Checked.map_ok,
      ← decide_not]
    simp only [not_lt, hupper i (hlen ▸ hi)]
  refine ⟨lower, upper, ?_, hle'', by omega, fun i hi => ?_⟩
  · rw [hfirst, Checked.bind_ok, hsecond]
    rfl
  · rw [map_keyLead, hkey i hi, ← hupper i (hlen ▸ hi), ← Nat.not_lt, ← hlower i (hlen ▸ hi),
      not_lt, and_comm]
    exact le_antisymm_iff.symm

/-! ## Lookups -/

/-- The first offsets of a sort key denote these places of a row. -/
def KeyAt (width : Nat) (sortKey : List Value) (places : List Nat) : Prop :=
  List.Forall₂ (fun i v => v.integer?.bind (resolveOffset width) = some i) places
    (sortKey.take places.length)

theorem KeyAt.take (h : KeyAt width sortKey places) (n : Nat) :
    KeyAt width sortKey (places.take n) := by
  have ht := List.forall₂_take n h
  rwa [List.take_take, ← List.length_take] at ht

theorem KeyAt.length_le (h : KeyAt width sortKey places) : places.length ≤ sortKey.length := by
  have := h.length_eq
  rw [List.length_take] at this
  omega

/-- A key begins with the values at the places of the sort key. -/
theorem KeyAt.keyOf (h : KeyAt width sortKey places) (hw : row.length = width)
    (hk : keyOf sortKey row = .ok key) : key.take places.length = places.filterMap (row[·]?) := by
  rw [SortedTable.keyOf, Checked.mapM_eq_ok] at hk
  induction hk generalizing places with
  | nil =>
    rw [KeyAt, List.take_nil, List.forall₂_nil_right_iff] at h
    subst h
    rfl
  | @cons v x sortKey key hx _ ih =>
    cases places with
    | nil => rfl
    | cons i places =>
      obtain ⟨hv, h⟩ := List.forall₂_cons.1 h
      obtain ⟨n, hn, hi⟩ := Option.bind_eq_some_iff.1 hv
      have hrow : row[i]? = some x := by
        simp only [itemAt, hn, atOffset, hw, hi, Option.bind_some] at hx
        cases hrow : row[i]? with
        | none => simp [hrow] at hx
        | some y =>
          simp only [hrow] at hx
          cases hx
          rfl
      rw [List.length_cons, List.take_succ_cons, List.filterMap_cons_some hrow, ih h]

theorem KeyAt.take_key {n : Nat} (h : KeyAt width sortKey places) (hw : row.length = width)
    (hk : SortedTable.keyOf sortKey row = .ok key) (hn : n ≤ places.length) :
    key.take n = (places.take n).filterMap (row[·]?) := by
  have ht := (h.take n).keyOf hw hk
  rwa [List.length_take, Nat.min_eq_left hn] at ht

theorem filter_range {lower upper n : Nat} (hle : lower ≤ upper) (hu : upper ≤ n) :
    (List.range n).filter (fun i => decide (lower ≤ i ∧ i < upper)) =
      List.range' lower (upper - lower) := by
  obtain ⟨d, rfl⟩ := Nat.exists_eq_add_of_le hle
  obtain ⟨e, rfl⟩ := Nat.exists_eq_add_of_le hu
  rw [List.range_eq_range', Nat.add_assoc, ← List.range'_append_1, ← List.range'_append_1,
    Nat.zero_add, Nat.add_sub_cancel_left, List.filter_append, List.filter_append,
    List.filter_eq_nil_iff.2,
    List.filter_eq_self.2, List.filter_eq_nil_iff.2, List.nil_append, List.append_nil]
  all_goals
    intro i hi
    have := List.mem_range'_1.1 hi
    simp
    omega

section

variable (H : t.IsRanked R) (hw : ∀ row ∈ t.rows.toList, row.length = width)
  (hk : KeyAt width t.sortKey places) (hl : ∀ v ∈ lead, R.carrier v)
  (hn : lead.length ≤ places.length)

include H hw hk hl hn

theorem IsRanked.eqList_iff_keyLead {r : StoredRow} (hr : r ∈ numbered t.rows.toList) :
    Value.eqList ((places.take lead.length).filterMap (r.2[·]?)) lead = true ↔
      (t.keyLead lead.length r.1).map R.code = lead.map R.code := by
  have hrow := mem_numbered.1 hr
  obtain ⟨hi, hget⟩ := List.getElem?_eq_some_iff.1 hrow
  have hi' : r.1 < t.keys.toList.length := H.keyed.length_eq ▸ hi
  have hkey := H.keyed.get hi hi'
  rw [List.get_eq_getElem, hget] at hkey
  have htake := hk.take_key (hw _ (List.mem_of_getElem? hrow)) hkey hn
  have hlead : t.keyLead lead.length r.1 = (places.take lead.length).filterMap (r.2[·]?) := by
    rw [← htake, keyLead, Array.getD_eq_getD_getElem?, ← Array.getElem?_toList,
      List.getElem?_eq_getElem hi']
    rfl
  rw [hlead, ValueClass.eqList_iff_map _ hl]
  rw [← htake]
  exact fun v hv => H.all _ (List.getElem_mem hi') v (List.mem_of_mem_take hv)

/-- The rows that a lookup without a position selects are those of the range. -/
theorem IsRanked.filter_isAt {lower upper : Nat} (hle : lower ≤ upper) (hu : upper ≤ t.rows.size)
    (hr : ∀ i < t.rows.size, lower ≤ i ∧ i < upper ↔
      (t.keyLead lead.length i).map R.code = lead.map R.code) :
    (numbered t.rows.toList).filter (StoredRow.isAt places lead none) = t.slice (lower, upper) := by
  have hcongr : ∀ r ∈ numbered t.rows.toList, StoredRow.isAt places lead none r =
      decide (lower ≤ r.1 ∧ r.1 < upper) := by
    intro r hmem
    have hi : r.1 < t.rows.size := by
      have := (List.getElem?_eq_some_iff.1 (mem_numbered.1 hmem)).1
      rwa [Array.length_toList] at this
    rw [StoredRow.isAt, Option.all_none, Bool.and_true, Bool.eq_iff_iff, decide_eq_true_iff,
      H.eqList_iff_keyLead hw hk hl hn hmem, hr _ hi]
  rw [List.filter_congr hcongr, numbered_eq_range, List.filter_map, slice]
  have hrange : (List.range t.rows.toList.length).filter
      (fun i => decide (lower ≤ i ∧ i < upper)) = List.range' lower (upper - lower) :=
    filter_range hle (Array.length_toList ▸ hu)
  refine (congrArg _ hrange).trans (List.map_congr_left fun i _ => ?_)
  rw [Array.getD_eq_getD_getElem?, List.getD_eq_getElem?_getD, Array.getElem?_toList]

end

/-- The beginnings of the keys stand in the rows. -/
theorem IsRanked.compares_iff (H : t.IsRanked R)
    (hw : ∀ row ∈ t.rows.toList, row.length = width) (hk : KeyAt width t.sortKey places)
    (hn : lead.length ≤ places.length) : t.Compares lead ↔ ∀ row ∈ t.rows.toList,
      Value.Comparable ((places.take lead.length).filterMap (row[·]?)) lead := by
  constructor
  · intro hc row hrow
    obtain ⟨key, hkey, hof⟩ := exists_of_forall₂ H.keyed.flip hrow
    exact hk.take_key (hw row hrow) hof hn ▸ hc key hkey
  · intro hc key hkey
    obtain ⟨row, hrow, hof⟩ := exists_of_forall₂ H.keyed hkey
    exact hk.take_key (hw row hrow) hof hn ▸ hc row hrow

/-- The rows of a range that a lookup selects. -/
def selected (t : SortedTable) (range : Nat × Nat) : Option Value → List StoredRow
  | none => t.slice range
  | some v => ((positionIn v range).map fun i => (i, t.rows.getD i [])).toList

/-- Once the range is found, a lookup yields rows of it, and their number is known before. -/
theorem scan_selected {range : Nat × Nat} (h : t.range lead = .ok range)
    (position : Option Value) : (t.scan lead position).Yields (t.selected range position) ∧
      t.estimate lead position = .ok (t.selected range position).length := by
  rw [scan, estimate, h, Checked.bind_ok, Checked.bind_ok]
  cases position with
  | none =>
    refine ⟨Rows.yields_ofChecked_iff.2 ⟨_, rfl, Rows.yields_ofList _⟩, ?_⟩
    simp [selected, slice]
  | some v =>
    cases hpos : positionIn v range with
    | none =>
      exact ⟨Rows.yields_ofChecked_iff.2 ⟨_, by simp only [hpos]; rfl,
        by simpa [selected, hpos] using Rows.yields_done⟩, by simp [selected, hpos]⟩
    | some i =>
      exact ⟨Rows.yields_ofChecked_iff.2 ⟨_, by simp only [hpos]; rfl,
        by simpa [selected, hpos] using Rows.yields_single _⟩, by simp [selected, hpos]⟩

theorem range_le {lower upper : Nat} (h : t.range lead = .ok (lower, upper)) :
    upper ≤ t.rows.size := by
  unfold range at h
  split at h
  · cases h
    exact Nat.le_refl _
  split at h
  · cases h
  obtain ⟨lower', hlower, h⟩ := Checked.bind_eq_ok.1 h
  obtain ⟨upper', hupper, h⟩ := Checked.bind_eq_ok.1 h
  cases h
  exact (bisectWithin_mem hupper (bisectWithin_mem hlower (Nat.zero_le _)).2).2

theorem selected_subset {lower upper : Nat} {position : Option Value}
    (hu : upper ≤ t.rows.size) :
    ∀ r ∈ t.selected (lower, upper) position, r ∈ numbered t.rows.toList := by
  have hrow : ∀ i, i < upper → (i, t.rows.getD i []) ∈ numbered t.rows.toList := by
    intro i hi
    rw [mem_numbered, Array.getElem?_toList, Array.getD_eq_getD_getElem?,
      Array.getElem?_eq_getElem (by omega), Option.getD_some]
  intro r hr
  cases position with
  | none =>
    obtain ⟨i, hi, rfl⟩ := List.mem_map.1 hr
    have := List.mem_range'_1.1 hi
    exact hrow i (by omega)
  | some v =>
    rw [selected, Option.mem_toList, Option.map_eq_some_iff] at hr
    obtain ⟨i, hi, rfl⟩ := hr
    unfold positionIn at hi
    split at hi
    · split at hi
      · cases hi
        exact hrow _ (by omega)
      · cases hi
    · cases hi

/-- A table only has its own rows, whatever it is asked for. -/
theorem scan_each (lead : List Value) (position : Option Value) :
    (t.scan lead position).Each (· ∈ numbered t.rows.toList) := by
  cases h : t.range lead with
  | error fault =>
    rw [scan, h]
    trivial
  | ok range => exact (scan_selected h position).1.each (selected_subset (range_le h))

/-- A position in a range selects at most one of its rows. -/
theorem filter_slice_int {lower upper : Nat} (hle : lower ≤ upper) (n : Int) :
    (t.slice (lower, upper)).filter (fun r => Value.eq (.ofNat r.1) (.int n)) =
      ((positionIn (.int n) (lower, upper)).map fun i => (i, t.rows.getD i [])).toList := by
  rw [slice, List.filter_map]
  have hfilter : (List.range' lower (upper - lower)).filter
      ((fun r : StoredRow => Value.eq (.ofNat r.1) (.int n)) ∘ fun i => (i, t.rows.getD i [])) =
      (positionIn (.int n) (lower, upper)).toList := by
    rw [positionIn, Value.int?]
    dsimp only
    split
    · next h =>
      obtain ⟨m, rfl⟩ := Int.eq_ofNat_of_zero_le (a := n) (by omega)
      have hcongr : ∀ i ∈ List.range' lower (upper - lower),
          ((fun r : StoredRow => Value.eq (.ofNat r.1) (.int m)) ∘
            fun i => (i, t.rows.getD i [])) i =
            decide (i = m) := fun i _ => by
        simp only [Function.comp_apply, Value.ofNat, Value.eq_int, Int.ofNat_inj]
      rw [List.filter_congr hcongr, List.filter_eq, (List.nodup_range').count, if_pos]
      · rfl
      · rw [List.mem_range'_1]
        omega
    · next h =>
      refine List.filter_eq_nil_iff.2 fun i hi => ?_
      have := List.mem_range'_1.1 hi
      simp only [Function.comp_apply, Value.ofNat, Value.eq_int, decide_eq_true_eq]
      omega
  rw [hfilter]
  cases positionIn (.int n) (lower, upper) with
  | none => rfl
  | some i => rfl

/-- What tables find the right rows for as positions: integers, and what is not the position of any
row. -/
def Locates (rows : List (List Value)) (v : Value) : Prop := (∃ n, v = .int n) ∨ Misses rows v

theorem filter_slice {lower upper : Nat} {v : Value} (hle : lower ≤ upper)
    (hu : upper ≤ t.rows.size) (hv : Locates t.rows.toList v) :
    (t.slice (lower, upper)).filter (fun r => Value.eq (.ofNat r.1) v) =
      ((positionIn v (lower, upper)).map fun i => (i, t.rows.getD i [])).toList := by
  by_cases hint : ∃ n, v = .int n
  · obtain ⟨n, rfl⟩ := hint
    exact filter_slice_int hle n
  have hnone : positionIn v (lower, upper) = none := by
    cases v <;> first | rfl | exact (hint ⟨_, rfl⟩).elim
  rw [hnone, List.filter_eq_nil_iff.2]
  · rfl
  intro r hr
  obtain ⟨i, hi, rfl⟩ := List.mem_map.1 hr
  have hlt : i < t.rows.toList.length := by
    have := List.mem_range'_1.1 hi
    rw [Array.length_toList]
    omega
  rw [hv.resolve_left hint i hlt]
  exact Bool.false_ne_true

section

variable (H : t.IsRanked R) (hw : ∀ row ∈ t.rows.toList, row.length = width)
  (hk : KeyAt width t.sortKey places)

include H hw hk

section

variable (hl : Searches R.toValueClass places t.rows.toList lead)

include hl

theorem IsRanked.compares_of_searches : t.Compares lead :=
  (H.compares_iff hw hk hl.length_le).2 hl.compares

/-- A lookup yields the rows that it is meant to select, and their number is known before. -/
theorem IsRanked.scan_spec {position : Option Value}
    (hp : ∀ v, position = some v → Locates t.rows.toList v) :
    (t.scan lead position).Yields
        ((numbered t.rows.toList).filter (StoredRow.isAt places lead position)) ∧
      t.estimate lead position =
        .ok ((numbered t.rows.toList).filter (StoredRow.isAt places lead position)).length := by
  obtain ⟨lower, upper, hr, hle, hu, hiff⟩ := H.range_spec hl.all (H.compares_of_searches hw hk hl)
    (Nat.le_trans hl.length_le hk.length_le)
  have hslice := H.filter_isAt hw hk hl.all hl.length_le hle hu hiff
  suffices hs : (numbered t.rows.toList).filter (StoredRow.isAt places lead position) =
      t.selected (lower, upper) position from hs ▸ scan_selected hr position
  cases position with
  | none => exact hslice
  | some v =>
    rw [selected, ← filter_slice hle hu (hp v rfl), ← hslice, List.filter_filter]
    refine List.filter_congr fun r _ => ?_
    simp [StoredRow.isAt, Bool.and_comm]

/-- Whatever a lookup is asked for, it only selects rows that have it, and it knows their number
before. -/
theorem IsRanked.scan_exact (position : Option Value) :
    ∃ found, (t.scan lead position).Yields found ∧ t.estimate lead position = .ok found.length ∧
      ∀ r ∈ found, r ∈ numbered t.rows.toList ∧ r.isAt places lead position = true := by
  obtain ⟨lower, upper, hr, hle, hu, hiff⟩ := H.range_spec hl.all (H.compares_of_searches hw hk hl)
    (Nat.le_trans hl.length_le hk.length_le)
  have hslice := H.filter_isAt hw hk hl.all hl.length_le hle hu hiff
  obtain ⟨hy, hcount⟩ := scan_selected hr position
  refine ⟨_, hy, hcount, fun r hmem => ⟨selected_subset hu r hmem, ?_⟩⟩
  cases position with
  | none =>
    rw [selected, ← hslice] at hmem
    exact List.of_mem_filter hmem
  | some v =>
    -- Only an integer selects a row by its position.
    cases hint : v.int? with
    | none => simp [selected, positionIn, hint] at hmem
    | some n =>
      obtain rfl : v = .int n := by
        cases v <;> cases hint
        rfl
      rw [selected, ← filter_slice_int hle, ← hslice, List.filter_filter] at hmem
      have hat := List.of_mem_filter hmem
      rw [Bool.and_eq_true] at hat
      rw [StoredRow.isAt, Option.all_some, hat.1, Bool.and_true]
      simpa [StoredRow.isAt] using hat.2

end

/-- A table of things in memory selects rows by bisection. -/
theorem IsRanked.serves (hc : t.rows.size < 2 ^ 63) :
    t.handle.Serves R.toValueClass places (Locates t.rows.toList) t.rows.toList where
  scan lead position hl hp := (H.scan_spec hw hk hl hp).1
  estimate lead position hl hp := by
    have he := (H.scan_spec hw hk hl hp).2
    refine ⟨_, _, congrArg (Except.map Value.ofNat) he, Cardinality.ofValue_ofNat ?_⟩
    refine Nat.lt_of_le_of_lt (List.length_filter_le _ _) ?_
    rwa [numbered_eq_range, List.length_map, List.length_range, Array.length_toList]

end

end SortedTable
end JoinOrder
