import JoinOrder.Proofs.Source
import JoinOrder.Proofs.Table

/-!
# Statistics of sources

What a source announces is no less than what it finds: the size of a range of rows
(`Source.Serves.bounds_estimate`), and the size of the largest group of rows that agree on a part of
the sort key (`Source.Serves.bounds_maxFrequency`).
-/

namespace JoinOrder

namespace SortedTable

variable {κ : Type} [LinearOrder κ] {R : RankedClass κ} {t : SortedTable}
  {best size n width : Nat} {current lead : List Value} {xs : List (List Value)} {places : List Nat}

/-! ## Groups of equal keys -/

theorem max_le_largestGroup {same : List Value → List Value → Bool} :
    max best size ≤ largestGroup same best size current xs := by
  induction xs generalizing best size current with
  | nil => exact Nat.le_refl _
  | cons x xs ih =>
    rw [largestGroup]
    split
    · exact Nat.le_trans (by omega) ih
    · exact Nat.le_trans (by omega) ih

/-- No group is larger than the table. -/
theorem largestGroup_le {same : List Value → List Value → Bool} :
    largestGroup same best size current xs ≤ max best (size + xs.length) := by
  induction xs generalizing best size current with
  | nil => exact Nat.le_refl _
  | cons x xs ih =>
    rw [largestGroup, List.length_cons]
    split
    · exact Nat.le_trans ih (by omega)
    · exact Nat.le_trans ih (by omega)

/-- Some items have as many with their codes as the largest group has members, if no group before
was larger. -/
theorem largestGroup_le_countP (best size : Nat) (hc : ∀ v ∈ current, R.carrier v)
    (hx : ∀ x ∈ xs, ∀ v ∈ x, R.carrier v) :
    largestGroup Value.eqList best size current xs ≤ best ∨ ∃ y ∈ current :: xs,
      largestGroup Value.eqList best size current xs ≤
        (if current.map R.code = y.map R.code then size else 0) +
          xs.countP (·.map R.code = y.map R.code) := by
  induction xs generalizing best size current with
  | nil =>
    rw [largestGroup]
    rcases Nat.le_total size best with h | h
    · exact .inl (by omega)
    · exact .inr ⟨current, List.mem_cons_self, by simp; omega⟩
  | cons x xs ih =>
    rw [List.forall_mem_cons] at hx
    rw [largestGroup]
    split
    · next he =>
      rw [ValueClass.eqList_iff_map hc hx.1] at he
      refine (ih best (size + 1) hc hx.2).imp_right fun ⟨y, hy, hle⟩ => ⟨y, ?_, ?_⟩
      · rcases List.mem_cons.1 hy with rfl | hy
        · exact List.mem_cons_self
        · exact List.mem_cons_of_mem _ (List.mem_cons_of_mem _ hy)
      · rw [List.countP_cons, ← he]
        by_cases h : current.map R.code = y.map R.code
        · simp only [h, if_true, decide_true] at hle ⊢
          omega
        · simpa [h] using hle
    · rcases ih (max best size) 1 hx.1 hx.2 with hle | ⟨y, hy, hle⟩
      · rcases Nat.le_total size best with h | h
        · exact .inl (by omega)
        · refine .inr ⟨current, List.mem_cons_self, ?_⟩
          rw [if_pos rfl]
          omega
      · refine .inr ⟨y, List.mem_cons_of_mem _ hy, ?_⟩
        rw [List.countP_cons]
        simp only [decide_eq_true_eq]
        omega

/-- Of sorted items, those with the same codes are neighbours and form a group. -/
theorem countP_le_largestGroup (best size : Nat) (hc : ∀ v ∈ current, R.carrier v)
    (hx : ∀ x ∈ xs, ∀ v ∈ x, R.carrier v)
    (hs : (current :: xs).Pairwise fun x y => x.map R.code ≤ y.map R.code) (cs : List κ) :
    (if current.map R.code = cs then size else 0) + xs.countP (·.map R.code = cs) ≤
      largestGroup Value.eqList best size current xs := by
  induction xs generalizing best size current with
  | nil =>
    rw [largestGroup, List.countP_nil]
    split
    · exact Nat.le_max_right ..
    · exact Nat.zero_le _
  | cons x xs ih =>
    rw [List.forall_mem_cons] at hx
    rw [List.pairwise_cons] at hs
    have hle := List.forall_mem_cons.1 hs.1
    rw [largestGroup, List.countP_cons]
    by_cases he : current.map R.code = x.map R.code
    · have hcurrent : (current :: xs).Pairwise fun x y => x.map R.code ≤ y.map R.code :=
        List.pairwise_cons.2 ⟨hle.2, (List.pairwise_cons.1 hs.2).2⟩
      have hrest := ih best (size + 1) hc hx.2 hcurrent
      rw [if_pos ((ValueClass.eqList_iff_map hc hx.1).2 he)]
      refine Nat.le_trans (Nat.le_of_eq ?_) hrest
      by_cases hcs : x.map R.code = cs
      · simp [he, hcs]
        omega
      · simp [he, hcs]
    · rw [if_neg (mt (ValueClass.eqList_iff_map hc hx.1).1 he)]
      have hrest := ih (max best size) 1 hx.1 hx.2 hs.2
      by_cases hcs : current.map R.code = cs
      · -- All items behind the group are greater.
        have hgreater : ∀ y ∈ x :: xs, y.map R.code ≠ cs := by
          intro y hy
          have hxy : x.map R.code ≤ y.map R.code := by
            rcases List.mem_cons.1 hy with rfl | hy
            · exact le_refl _
            · exact (List.pairwise_cons.1 hs.2).1 y hy
          exact ne_of_gt (hcs ▸ lt_of_lt_of_le (lt_of_le_of_ne hle.1 he) hxy)
        have hnone : xs.countP (·.map R.code = cs) = 0 := by
          rw [List.countP_eq_zero]
          exact fun y hy => by simpa using hgreater y (List.mem_cons_of_mem _ hy)
        have hbest : max (max best size) 1 ≤ largestGroup Value.eqList (max best size) 1 x xs :=
          max_le_largestGroup
        simp only [hcs, if_true, hnone, hgreater x List.mem_cons_self, decide_false,
          Bool.false_eq_true, if_false]
        omega
      · refine Nat.le_trans (Nat.le_of_eq ?_) hrest
        simp [hcs, Nat.add_comm]

/-- How many keys begin with values that have some codes. -/
def countKeys (R : RankedClass κ) (t : SortedTable) (cs : List κ) : Nat :=
  t.keys.toList.countP fun key => (key.take cs.length).map R.code = cs

theorem IsRanked.keys_eq_range (H : t.IsRanked R) :
    t.keys.toList = (List.range t.rows.size).map fun i => t.keys.getD i [] := by
  refine List.ext_getElem (by simp [H.length_eq]) fun i hi _ => ?_
  rw [List.getElem_map, List.getElem_range, Array.getD_eq_getD_getElem?, ← Array.getElem?_toList,
    List.getElem?_eq_getElem hi, Option.getD_some]

theorem IsRanked.countKeys_eq (H : t.IsRanked R) (cs : List κ) : t.countKeys R cs =
    (List.range t.rows.size).countP fun i => (t.keyLead cs.length i).map R.code = cs := by
  rw [countKeys, H.keys_eq_range, List.countP_map]
  rfl

/-- The beginnings of the keys are sorted as well. -/
theorem IsRanked.sorted_take (H : t.IsRanked R) (n : Nat) :
    (t.keys.toList.map (·.take n)).Pairwise fun x y => x.map R.code ≤ y.map R.code := by
  refine List.pairwise_map.2 (H.sorted.imp fun hab => ?_)
  rw [List.map_take, List.map_take]
  exact take_le_take hab _

theorem IsRanked.all_take (H : t.IsRanked R) (n : Nat) :
    ∀ x ∈ t.keys.toList.map (·.take n), ∀ v ∈ x, R.carrier v := by
  intro x hx v hv
  obtain ⟨key, hkey, rfl⟩ := List.mem_map.1 hx
  exact H.all key hkey v (List.mem_of_mem_take hv)

theorem countKeys_take (cs : List κ) : t.countKeys R cs =
    (t.keys.toList.map (·.take cs.length)).countP (·.map R.code = cs) := by
  rw [List.countP_map]
  rfl

/-- No more keys begin with some values than the largest group has. -/
theorem IsRanked.countKeys_le (H : t.IsRanked R) (cs : List κ) :
    t.countKeys R cs ≤ t.maxFrequency cs.length := by
  rw [maxFrequency]
  split
  · exact Nat.le_trans List.countP_le_length (Nat.le_of_eq H.length_eq)
  have hsorted := H.sorted_take cs.length
  have hall := H.all_take cs.length
  rw [countKeys_take]
  split
  · next hnil => rw [hnil, List.countP_nil]
  · next x xs hcons =>
    rw [hcons] at hsorted hall ⊢
    rw [List.forall_mem_cons] at hall
    have hgroup := countP_le_largestGroup 0 1 hall.1 hall.2 hsorted cs
    rw [List.countP_cons]
    simp only [decide_eq_true_eq]
    omega

/-- No more rows begin with some key values than the largest group has. -/
theorem IsRanked.countP_isAt_le (H : t.IsRanked R)
    (hw : ∀ row ∈ t.rows.toList, row.length = width) (hk : KeyAt width t.sortKey places)
    (hl : ∀ v ∈ lead, R.carrier v) (hn : lead.length ≤ places.length) :
    (numbered t.rows.toList).countP (StoredRow.isAt places lead none) ≤
      t.maxFrequency lead.length := by
  have hcount := H.countKeys_le (lead.map R.code)
  rw [H.countKeys_eq, List.length_map] at hcount
  refine Nat.le_trans (Nat.le_of_eq ?_) hcount
  have hcongr : ∀ r ∈ numbered t.rows.toList, StoredRow.isAt places lead none r = true ↔
      decide ((t.keyLead lead.length r.1).map R.code = lead.map R.code) = true := fun r hr => by
    rw [StoredRow.isAt, Option.all_none, Bool.and_true, decide_eq_true_iff,
      H.eqList_iff_keyLead hw hk hl hn hr]
  rw [List.countP_congr hcongr, numbered_eq_range, List.countP_map, Array.length_toList]
  rfl

theorem frequency_eq (h : n ≤ t.sortKey.length) :
    t.frequency (.ofNat n) = .ok (t.maxFrequency n) := by
  have hfits : Value.le (.ofNat n) (.ofNat t.sortKey.length) = .ok true :=
    (Value.le_int ..).trans (congrArg _ (decide_eq_true (Int.ofNat_le.2 h)))
  have hpositive : Value.le (.int 0) (.ofNat n) = .ok true :=
    (Value.le_int ..).trans (congrArg _ (decide_eq_true (Int.natCast_nonneg n)))
  rw [frequency, hpositive, Checked.bind_ok]
  simp only [if_true, hfits, Checked.bind_ok, Bool.not_true, Bool.false_eq_true, if_false]
  rfl

theorem IsRanked.maxFrequency_le (H : t.IsRanked R) (n : Nat) : t.maxFrequency n ≤ t.rows.size := by
  rw [maxFrequency]
  split
  · exact Nat.le_refl _
  have hlen : (t.keys.toList.map (·.take n)).length = t.rows.size := by
    rw [List.length_map, H.length_eq]
  split
  · exact Nat.zero_le _
  · next x xs hcons =>
    rw [hcons, List.length_cons] at hlen
    exact Nat.le_trans largestGroup_le (by omega)

section

variable (H : t.IsRanked R) (hw : ∀ row ∈ t.rows.toList, row.length = width)
  (hk : KeyAt width t.sortKey places)

include H hw hk

/-- A sorted table counts the rows that it selects. -/
theorem IsRanked.estimate_handle (hl : Searches R.toValueClass places t.rows.toList lead)
    {position : Option Value} (hp : ∀ v, position = some v → ∃ n, v = .int n) :
    t.handle.estimate lead position =
      .ok (.ofNat ((numbered t.rows.toList).countP (StoredRow.isAt places lead position))) := by
  rw [List.countP_eq_length_filter]
  exact congrArg (Except.map Value.ofNat) (H.scan_spec hw hk hl fun v hv => .inl (hp v hv)).2

/-- What a sorted table of things in memory announces are bounds. -/
theorem IsRanked.announces (hc : t.rows.size < 2 ^ 63) :
    t.handle.Announces R.toValueClass places t.rows.toList where
  estimate lead position hl hp := by
    refine ⟨_, _, H.estimate_handle hw hk hl hp, Cardinality.ofValue_ofNat ?_,
      .inr ⟨_, rfl, Nat.le_refl _⟩⟩
    refine Nat.lt_of_le_of_lt List.countP_le_length ?_
    rwa [numbered_eq_range, List.length_map, List.length_range, Array.length_toList]
  frequency := by
    rintro _ ⟨⟩ length hlength
    refine ⟨t.maxFrequency length, ?_, ?_, ?_⟩
    · exact congrArg (Except.map Value.ofNat) (frequency_eq (Nat.le_trans hlength hk.length_le))
    · exact Cardinality.ofValue_ofNat (Nat.lt_of_le_of_lt (H.maxFrequency_le length) hc)
    · rintro lead hl rfl
      exact H.countP_isAt_le hw hk hl hlength

end

end SortedTable

/-! ## Sources -/

namespace Source

/-- The handle of a source announces bounds. -/
def Announces {κ : Type} (K : ValueClass κ) (s : Source) (rows : List (List Value)) : Prop :=
  ∀ h, s.handle = some h → h.Announces K s.keyPlaces rows

variable {κ : Type} {K : ValueClass κ} {s : Source} {asks : Value → Prop} {rows : List (List Value)}
  {binding : NamedValues} {lead : List Value} {position : Option Value}
  (H : s.Serves K asks rows)

namespace Serves

include H

/-- All tuples with some values are among the rows that the handle is asked for. -/
theorem countP_holds_le (T : s.Terms binding lead position) :
    (s.tuples rows).countP (binding.holds s.columns) ≤
      (numbered rows).countP (StoredRow.isAt s.keyPlaces lead position) := by
  rw [tuples, List.countP_map]
  exact List.countP_mono_left fun r hr h => isAt_of_holds H.wellFormed (H.fits hr) T h

/-- At most one tuple stands at a position. -/
theorem countP_position_le {p : Name} {n : Int} (hp : s.position = some p)
    (hn : binding.lookup p = some (.int n)) :
    (s.tuples rows).countP (binding.holds s.columns) ≤ 1 := by
  have hat : ∀ r ∈ numbered rows, binding.holds s.columns (s.present r) = true →
      decide ((r.1 : Int) = n) = true := by
    intro r _ h
    obtain ⟨x, hx, he⟩ := NamedValues.holds_iff.1 h _ (NamedValues.mem_of_lookup hn)
    cases (H.wellFormed.present_position hp).symm.trans hx
    rwa [Value.ofNat, Value.eq_int] at he
  rw [tuples, List.countP_map]
  refine Nat.le_trans (List.countP_mono_left hat) ?_
  rw [numbered_eq_range, List.countP_map]
  by_cases h0 : 0 ≤ n
  · obtain ⟨m, rfl⟩ := Int.eq_ofNat_of_zero_le h0
    have hcount := List.nodup_iff_count_le_one.1 (List.nodup_range (n := rows.length)) m
    refine Nat.le_trans (Nat.le_of_eq ?_) hcount
    refine List.countP_congr fun i _ => ?_
    simp
  · rw [List.countP_eq_zero.2 fun i _ => ?_]
    · exact Nat.zero_le _
    · simp
      omega

variable (A : s.Announces K rows)

include A

/-- The number of tuples that a source announces is a bound. -/
theorem bounds_estimate (hb : s.Admits K rows binding)
    (hp : ∀ e ∈ binding, s.position = some e.1 → ∃ n, e.2 = .int n) :
    ∃ v size, s.estimate binding = .ok v ∧ Cardinality.ofValue v = .ok size ∧
      size.Bounds ((s.tuples rows).countP (binding.holds s.columns)) := by
  obtain ⟨lead, position, hterms, T, -⟩ := searchTerms_spec H.wellFormed hb.columns
  obtain ⟨handle, hhandle, -⟩ := H.handle
  obtain ⟨v, size, hv, hsize, hbound⟩ :=
    (A handle hhandle).estimate lead position (hb.searches T) (T.asks_position hp)
  refine ⟨v, size, ?_, hsize, hbound.mono (H.countP_holds_le T)⟩
  simp only [Source.estimate, hterms, requireHandle, hhandle, Checked.bind_ok, hv]

/-- So is what the statistics say about a key, for all lookups that bind it. -/
theorem bounds_maxFrequency (key : List Name) : ∃ o, s.maxFrequency key = .ok o ∧
    ∀ v, o = some v → ∃ n, Cardinality.ofValue v = .ok (.known n) ∧ ∀ binding : NamedValues,
      (∀ e ∈ binding, e.1 ∈ s.attributes → K.carrier e.2) →
      (∀ e ∈ binding, s.position = some e.1 → ∃ n, e.2 = .int n) →
      (∀ name ∈ key, name ∈ binding.names) →
      (s.tuples rows).countP (binding.holds s.columns) ≤ n := by
  unfold Source.maxFrequency
  split
  · next hpos =>
    rw [Bool.and_eq_true, Option.isSome_iff_exists, decide_eq_true_iff] at hpos
    obtain ⟨⟨p, hpos⟩, hlast⟩ := hpos
    refine ⟨_, rfl, ?_⟩
    rintro _ ⟨⟩
    refine ⟨1, Cardinality.ofValue_ofNat (by decide), fun binding _ hp hkey => ?_⟩
    obtain ⟨w, hw⟩ := NamedValues.exists_lookup (hkey p (List.mem_of_getLast? (hlast.trans hpos)))
    obtain ⟨n, rfl⟩ : ∃ n, w = .int n := hp _ (NamedValues.mem_of_lookup hw) hpos
    exact H.countP_position_le hpos hw
  split
  · exact ⟨none, rfl, fun _ h => (Option.some_ne_none _ h.symm).elim⟩
  next hlead =>
  rw [not_not] at hlead
  obtain ⟨handle, hhandle, -⟩ := H.handle
  rw [hhandle, Option.bind_some]
  split
  · exact ⟨none, rfl, fun _ h => (Option.some_ne_none _ h.symm).elim⟩
  next frequency hf =>
  have hle : key.length ≤ s.sortKey.length := by
    have hlen := congrArg List.length hlead
    rw [List.length_take] at hlen
    omega
  obtain ⟨n, hn, hsize, hcount⟩ := (A handle hhandle).frequency frequency hf key.length
    (by rwa [keyPlaces, List.length_map])
  refine ⟨some (.ofNat n), by rw [hn]; rfl, ?_⟩
  rintro _ ⟨⟩
  refine ⟨n, hsize, fun binding hk hp hkey => ?_⟩
  obtain ⟨lead, -, hvs⟩ := NamedValues.mapM_get hkey
  have T : s.Terms binding lead none := .of_take hle (hlead ▸ hvs) (.inl rfl)
  have hl : K.All lead := T.all_lead fun e he hm => hk e he (sortKey_subset e.1 hm)
  exact Nat.le_trans (H.countP_holds_le T) (hcount lead hl hvs.length_eq.symm)

end Serves
end Source
end JoinOrder
