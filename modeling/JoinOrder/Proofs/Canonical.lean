import JoinOrder.Proofs.Frequencies

/-!
# Canonical tables

Of rows of one width, with values of one ordered type, a table is always built. It holds the rows in
the order of their keys and then of all their values, so that it does not depend on the order in
which they are given, and bisection finds exactly the rows whose keys begin with some values
(`SortedTable.build_canonical`).
-/

namespace JoinOrder

variable {κ : Type} [LinearOrder κ] {R : RankedClass κ}

namespace RankedClass

theorem Total.tuples (hR : R.Total) : R.tuples.Total := by
  rintro _ _ ⟨vs, rfl, hv⟩ ⟨ws, rfl, hw⟩
  rw [Value.lt, Value.precedes]
  exact hR.exists_ltList hv hw

/-- Equal values of the class are the same, as integers are, but not numbers of several types. -/
def Identifies (R : RankedClass κ) : Prop :=
  ∀ {v w}, R.carrier v → R.carrier w → Value.eq v w = true → v = w

theorem Identifies.eq_of_codes (hI : R.Identifies) {vs ws : List Value}
    (hv : ∀ v ∈ vs, R.carrier v) (hw : ∀ w ∈ ws, R.carrier w) (h : vs.map R.code = ws.map R.code) :
    vs = ws := by
  induction vs generalizing ws with
  | nil => exact (List.map_eq_nil_iff.1 h.symm).symm
  | cons v vs ih =>
    obtain ⟨w, ws, rfl, hcode, h⟩ := List.map_eq_cons_iff.1 h.symm
    rw [List.forall_mem_cons] at hv hw
    rw [hI hv.1 hw.1 ((R.eq_iff hv.1 hw.1).2 hcode.symm), ih hv.2 hw.2 h.symm]

end RankedClass

namespace SortedTable

variable {t t' : SortedTable} {rows rows' : List (List Value)} {sortKey : List Value}
  {places : List Nat} {width i : Nat} {row : List Value} {offset : Value}

/-! ## Keys of rows -/

/-- The values of a row at the places of a sort key. -/
def keyAt (places : List Nat) (row : List Value) : List Value := places.filterMap (row[·]?)

theorem keyAt_subset : ∀ v ∈ keyAt places row, v ∈ row := fun v hv => by
  obtain ⟨i, -, hi⟩ := List.mem_filterMap.1 hv
  exact List.mem_of_getElem? hi

theorem resolveOffset_lt {length : Nat} {n : Int} (h : resolveOffset length n = some i) :
    i < length := by
  simp only [resolveOffset, Option.ite_none_right_eq_some, Option.some.injEq] at h
  omega

theorem exists_itemAt (hw : row.length = width)
    (h : offset.integer?.bind (resolveOffset width) = some i) :
    ∃ x, row[i]? = some x ∧ itemAt row offset = .ok x := by
  obtain ⟨n, hn, hi⟩ := Option.bind_eq_some_iff.1 h
  have hlt : i < row.length := hw ▸ resolveOffset_lt hi
  have hrow : row[i]? = some row[i] := List.getElem?_eq_getElem hlt
  refine ⟨_, hrow, ?_⟩
  simp only [itemAt, hn, atOffset, hw, hi, Option.bind_some, hrow]

/-- The key of a row of the right width exists. -/
theorem keyOf_eq (hk : KeyAt width sortKey places) (hlen : places.length = sortKey.length)
    (hw : row.length = width) : keyOf sortKey row = .ok (keyAt places row) := by
  rw [KeyAt, hlen, List.take_length] at hk
  rw [keyOf, Checked.mapM_eq_ok]
  induction hk with
  | nil => exact .nil
  | cons hv _ ih =>
    obtain ⟨x, hx, hitem⟩ := exists_itemAt hw hv
    rw [keyAt, List.filterMap_cons_some hx]
    exact .cons hitem (ih (Nat.succ.inj hlen))

/-- What rows are sorted by: their keys, then all their values. -/
def rank (R : RankedClass κ) (places : List Nat) (row : List Value) : List (List κ) :=
  [(keyAt places row).map R.code, row.map R.code]

/-! ## The order of a table -/

/-- A comparison that always ends and decides an order. -/
theorem ranks_of_iff {α β : Type} [LinearOrder β] {lt : α → α → Checked Bool} {rank : α → β}
    {D : α → Prop}
    (h : ∀ a b, D a → D b → ∃ c, lt a b = .ok c ∧ (c = true ↔ rank a < rank b)) :
    Sorting.Ranks lt rank D := fun a b ha hb => by
  obtain ⟨c, hc, hiff⟩ := h a b ha hb
  rw [hc, Bool.eq_iff_iff.2 (hiff.trans decide_eq_true_iff.symm)]

/-- Keyed rows of one ordered type are compared by the codes of their keys first. -/
theorem ranks_keyedLt (hR : R.Total) : Sorting.Ranks keyedLt
    (fun e : List Value × List Value => [e.1.map R.code, e.2.map R.code])
    fun e => (∀ v ∈ e.1, R.carrier v) ∧ ∀ v ∈ e.2, R.carrier v := by
  have htuples : ∀ e : List Value × List Value, (∀ v ∈ e.1, R.carrier v) ∧
      (∀ v ∈ e.2, R.carrier v) → ∀ v ∈ [Value.tuple e.1, .tuple e.2], R.tuples.carrier v :=
    fun e he => List.forall_mem_cons.2 ⟨⟨_, rfl, he.1⟩, List.forall_mem_singleton.2 ⟨_, rfl, he.2⟩⟩
  refine ranks_of_iff fun a b ha hb => ?_
  obtain ⟨c, hc⟩ := RankedClass.Total.exists_ltList (R := R.tuples) hR.tuples (htuples a ha)
    (htuples b hb)
  exact ⟨c, hc, keyedLt_of_ok ha hb hc⟩

/-- Rows of one width can be sorted, and then stand in the order of their ranks. -/
theorem exists_build (hR : R.Total) (hk : KeyAt width sortKey places)
    (hlen : places.length = sortKey.length) (hw : ∀ row ∈ rows, row.length = width)
    (hr : ∀ row ∈ rows, ∀ v ∈ row, R.carrier v) : ∃ t, build rows sortKey = .ok t ∧
      t.rows.toList.Pairwise fun a b => rank R places a ≤ rank R places b := by
  have hkeyed : rows.mapM (fun row => do return (← keyOf sortKey row, row)) =
      .ok (rows.map fun row => (keyAt places row, row)) :=
    Checked.mapM_of_forall fun row hrow => by rw [keyOf_eq hk hlen (hw row hrow)]; rfl
  have hall : ∀ e ∈ rows.map fun row => (keyAt places row, row),
      (∀ v ∈ e.1, R.carrier v) ∧ ∀ v ∈ e.2, R.carrier v :=
    List.forall_mem_map.2 fun row hrow =>
      ⟨fun v hv => hr row hrow v (keyAt_subset v hv), hr row hrow⟩
  obtain ⟨sorted, hs, hperm, hsorted⟩ := Sorting.sort_spec (ranks_keyedLt hR) hall
  have hkey : ∀ e ∈ sorted, e.1 = keyAt places e.2 := fun e he => by
    obtain ⟨row, -, rfl⟩ := List.mem_map.1 (hperm.mem_iff.1 he)
    rfl
  refine ⟨_, by rw [build, hkeyed, Checked.bind_ok, hs]; rfl, List.pairwise_map.2 ?_⟩
  refine hsorted.imp_of_mem fun ha hb hab => ?_
  rwa [hkey _ ha, hkey _ hb] at hab

/-- Tables of the same rows agree row by row, up to equality of values. -/
theorem map_codes_eq (hp : t'.rows.toList.Perm t.rows.toList)
    (h' : t'.rows.toList.Pairwise fun a b => rank R places a ≤ rank R places b)
    (h : t.rows.toList.Pairwise fun a b => rank R places a ≤ rank R places b) :
    t'.rows.toList.map (·.map R.code) = t.rows.toList.map (·.map R.code) := by
  have hranks : t'.rows.toList.map (rank R places) = t.rows.toList.map (rank R places) :=
    List.Perm.eq_of_pairwise (fun _ _ _ _ => le_antisymm) (List.pairwise_map.2 h')
      (List.pairwise_map.2 h) (hp.map _)
  have hcodes := congrArg (List.map fun ranks => ranks.getD 1 []) hranks
  rw [List.map_map, List.map_map] at hcodes
  exact hcodes

/-- A table is given by its rows. -/
theorem IsRanked.eq_of_rows (H : t.IsRanked R) (H' : t'.IsRanked R) (hkey : t'.sortKey = t.sortKey)
    (hrows : t'.rows.toList = t.rows.toList) : t' = t := by
  have hkeys : Except.ok t'.keys.toList = (.ok t.keys.toList : Checked (List (List Value))) := by
    rw [← Checked.mapM_eq_ok.2 H.keyed, ← Checked.mapM_eq_ok.2 H'.keyed, hkey, hrows]
  obtain ⟨sortKey', rows', keys'⟩ := t'
  obtain ⟨sortKey, rows, keys⟩ := t
  cases hkey
  cases Array.toList_inj.1 hrows
  cases Array.toList_inj.1 (Except.ok.inj hkeys)
  rfl

/-- Tables whose rows agree up to equality of values are the same if equal values are. -/
theorem IsRanked.same_of_codes (H : t.IsRanked R) (H' : t'.IsRanked R)
    (hkey : t'.sortKey = t.sortKey) (hr : ∀ row ∈ t.rows.toList, ∀ v ∈ row, R.carrier v)
    (hr' : ∀ row ∈ t'.rows.toList, ∀ v ∈ row, R.carrier v)
    (hcodes : t'.rows.toList.map (·.map R.code) = t.rows.toList.map (·.map R.code)) :
    List.Forall₂ (fun a b => Value.eqList a b = true) t'.rows.toList t.rows.toList ∧
      (R.Identifies → t' = t) := by
  rw [← List.forall₂_eq_eq_eq, List.forall₂_map_left_iff, List.forall₂_map_right_iff,
    List.forall₂_iff_zip] at hcodes
  obtain ⟨hlength, hcodes⟩ := hcodes
  refine ⟨List.forall₂_iff_zip.2 ⟨hlength, fun hab => ?_⟩, fun hI => H.eq_of_rows H' hkey ?_⟩
  · obtain ⟨ha, hb⟩ := List.of_mem_zip hab
    exact (ValueClass.eqList_iff_map (hr' _ ha) (hr _ hb)).2 (hcodes hab)
  · rw [← List.forall₂_eq_eq_eq]
    refine List.forall₂_iff_zip.2 ⟨hlength, fun hab => ?_⟩
    obtain ⟨ha, hb⟩ := List.of_mem_zip hab
    exact hI.eq_of_codes (hr' _ ha) (hr _ hb) (hcodes hab)

/-! ## Lookups -/

/-- Whether the key of a row begins with some values. -/
def StartsWith (places : List Nat) (lead row : List Value) : Bool :=
  Value.eqList ((keyAt places row).take lead.length) lead

/-- The rows whose keys begin with some values, with their positions, in order. -/
def matching (t : SortedTable) (places : List Nat) (lead : List Value) : List StoredRow :=
  (numbered t.rows.toList).filter fun r => StartsWith places lead r.2

theorem isAt_none {lead : List Value} (hk : KeyAt width sortKey places)
    (hlen : places.length = sortKey.length) (hw : row.length = width)
    (hn : lead.length ≤ places.length) :
    StoredRow.isAt places lead none (i, row) = StartsWith places lead row := by
  rw [StoredRow.isAt, Option.all_none, Bool.and_true, StartsWith,
    hk.take_key hw (keyOf_eq hk hlen hw) hn]

/-- The range of some values consists of the positions of all rows whose keys begin with them. These
rows are found and counted. -/
theorem IsRanked.matching_spec (hR : R.Total) (H : t.IsRanked R) (hk : KeyAt width t.sortKey places)
    (hlen : places.length = t.sortKey.length) (hw : ∀ row ∈ t.rows.toList, row.length = width)
    {lead : List Value} (hn : lead.length ≤ t.sortKey.length) (hl : ∀ v ∈ lead, R.carrier v) :
    ∃ lower upper, t.range lead = .ok (lower, upper) ∧ lower ≤ upper ∧ upper ≤ t.rows.size ∧
      (∀ r ∈ numbered t.rows.toList, lower ≤ r.1 ∧ r.1 < upper ↔ StartsWith places lead r.2) ∧
      (t.scan lead none).Yields (t.matching places lead) ∧
      t.estimate lead none = .ok (t.matching places lead).length := by
  obtain ⟨lower, upper, hrange, hle, hu, hiff⟩ := H.range_spec hl (H.compares hR hl) hn
  rw [← hlen] at hn
  have hat : ∀ r ∈ numbered t.rows.toList,
      StoredRow.isAt places lead none r = StartsWith places lead r.2 := fun r hr =>
    isAt_none hk hlen (hw r.2 (mem_of_mem_numbered hr)) hn
  have hnone : ∀ v, none = some v → Locates t.rows.toList v := nofun
  have hsearches : Searches R.toValueClass places t.rows.toList lead :=
    ⟨hl, hn, (H.compares_iff hw hk hn).1 (H.compares hR hl)⟩
  obtain ⟨hy, hcount⟩ := H.scan_spec hw hk hsearches hnone
  rw [List.filter_congr hat] at hy hcount
  refine ⟨lower, upper, hrange, hle, hu, fun r hr => ?_, hy, hcount⟩
  have hi := (List.getElem?_eq_some_iff.1 (mem_numbered.1 hr)).1
  rw [Array.length_toList] at hi
  rw [hiff r.1 hi, ← H.eqList_iff_keyLead hw hk hl hn hr, ← hat r hr, StoredRow.isAt,
    Option.all_none, Bool.and_true]

/-- Rows of one width with values of one ordered type make a table, which holds them in the order of
their keys and then of all their values. Given in another order they make the same table, up to
equality of values. The range of some values consists of the positions of all rows whose keys begin
with them, and these are the rows that a lookup yields and counts. -/
theorem build_canonical (hR : R.Total) (hk : KeyAt width sortKey places)
    (hlen : places.length = sortKey.length) (hw : ∀ row ∈ rows, row.length = width)
    (hr : ∀ row ∈ rows, ∀ v ∈ row, R.carrier v) :
    ∃ t, build rows sortKey = .ok t ∧ t.rows.toList.Perm rows ∧
      (t.rows.toList.Pairwise fun a b => rank R places a ≤ rank R places b) ∧
      (∀ rows' : List (List Value), rows'.Perm rows → ∃ t', build rows' sortKey = .ok t' ∧
        List.Forall₂ (fun a b => Value.eqList a b = true) t'.rows.toList t.rows.toList ∧
        (R.Identifies → t' = t)) ∧
      ∀ lead : List Value, lead.length ≤ sortKey.length → (∀ v ∈ lead, R.carrier v) →
        ∃ lower upper, t.range lead = .ok (lower, upper) ∧ lower ≤ upper ∧ upper ≤ t.rows.size ∧
          (∀ r ∈ numbered t.rows.toList, lower ≤ r.1 ∧ r.1 < upper ↔ StartsWith places lead r.2) ∧
          (t.scan lead none).Yields (t.matching places lead) ∧
          t.estimate lead none = .ok (t.matching places lead).length := by
  obtain ⟨t, ht, hsorted⟩ := exists_build hR hk hlen hw hr
  obtain ⟨rfl, hperm, H⟩ := build_ranked ht hr
  have hr₁ : ∀ row ∈ t.rows.toList, ∀ v ∈ row, R.carrier v := fun row hrow =>
    hr row (hperm.mem_iff.1 hrow)
  refine ⟨t, ht, hperm, hsorted, fun rows' hp => ?_, fun lead hn hl =>
    H.matching_spec hR hk hlen (fun row hrow => hw row (hperm.mem_iff.1 hrow)) hn hl⟩
  have hr' : ∀ row ∈ rows', ∀ v ∈ row, R.carrier v := fun row hrow =>
    hr row (hp.mem_iff.1 hrow)
  obtain ⟨t', ht', hsorted'⟩ := exists_build hR hk hlen
    (fun row hrow => hw row (hp.mem_iff.1 hrow)) hr'
  obtain ⟨hkey, hperm', H'⟩ := build_ranked ht' hr'
  have hcodes := map_codes_eq (hperm'.trans (hp.trans hperm.symm)) hsorted' hsorted
  exact ⟨t', ht', H.same_of_codes H' hkey hr₁
    (fun row hrow => hr' row (hperm'.mem_iff.1 hrow)) hcodes⟩

/-- The triples make the same table from the last one to the first one, which has two of them that
start at 1. -/
theorem build_canonical_triples :
    OrderedClass.ints.toRanked.Total ∧ KeyAt 3 [.ofNat 0, .ofNat 2] [0, 2] ∧
    build Triples.rows.reverse [.ofNat 0, .ofNat 2] = .ok Triples.table ∧
    (Triples.table.scan [.int 1] none).Yields (Triples.table.matching [0, 2] [.int 1]) ∧
    (Triples.table.matching [0, 2] [.int 1]).length = 2 := by
  have htotal : OrderedClass.ints.toRanked.Total := OrderedClass.total_toRanked _
  have hkey : KeyAt 3 [.ofNat 0, .ofNat 2] [0, 2] := .cons rfl (.cons rfl .nil)
  have hints : ∀ row ∈ Triples.rows, ∀ v ∈ row, OrderedClass.ints.toRanked.carrier v := by
    simp [Triples.rows, OrderedClass.toRanked, OrderedClass.ints]
  have hidentifies : OrderedClass.ints.toRanked.Identifies := by
    rintro _ _ ⟨m, rfl⟩ ⟨n, rfl⟩ h
    rw [Value.eq_int, decide_eq_true_iff] at h
    rw [h]
  obtain ⟨t, ht, -, -, hsame, hlookup⟩ := build_canonical htotal hkey rfl
    (by decide : ∀ row ∈ Triples.rows, row.length = 3) hints
  have hbuild : build Triples.rows [.ofNat 0, .ofNat 2] = .ok Triples.table := rfl
  cases ht.symm.trans hbuild
  obtain ⟨t', ht', -, heq⟩ := hsame _ (List.reverse_perm _)
  rw [heq hidentifies] at ht'
  obtain ⟨lower, upper, -, -, -, -, hy, -⟩ := hlookup [.int 1] (by decide)
    (List.forall_mem_singleton.2 ⟨1, rfl⟩)
  exact ⟨htotal, hkey, ht', hy, rfl⟩

end SortedTable
end JoinOrder
