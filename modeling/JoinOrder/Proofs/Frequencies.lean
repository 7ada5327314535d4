import Mathlib.Order.Bounds.Basic
import JoinOrder.Proofs.Reordered
import JoinOrder.Proofs.Statistics

/-!
# Statistics of sorted tables

What a lookup announces is how many keys begin with the values that it asks for
(`IsRanked.estimate_eq`). The statistics of a table are the largest of these numbers, for each part
of the sort key (`SortedTable.frequency_isGreatest`).
-/

namespace JoinOrder
namespace SortedTable

variable {κ : Type} [LinearOrder κ] {R : RankedClass κ} {t : SortedTable}
  {rows : List (List Value)} {sortKey lead key : List Value} {n : Nat}

/-! ## Sizes of lookups -/

theorem IsRanked.length_key (H : t.IsRanked R) (hk : key ∈ t.keys.toList) :
    key.length = t.sortKey.length := by
  obtain ⟨row, -, hof⟩ := exists_of_forall₂ H.keyed hk
  exact (Checked.mapM_eq_ok.1 hof).length_eq.symm

/-- A lookup yields as many rows as there are keys that begin with the given values, and their
number is known before. -/
theorem IsRanked.estimate_eq (H : t.IsRanked R) (hl : ∀ v ∈ lead, R.carrier v)
    (hc : t.Compares lead) (hn : lead.length ≤ t.sortKey.length) :
    ∃ found, (t.scan lead none).Yields found ∧ t.estimate lead none = .ok found.length ∧
      found.length = t.countKeys R (lead.map R.code) := by
  obtain ⟨lower, upper, hr, hle, hu, hiff⟩ := H.range_spec hl hc hn
  obtain ⟨hy, hcount⟩ := scan_selected hr none
  refine ⟨_, hy, hcount, ?_⟩
  have hcongr : ∀ i ∈ List.range t.rows.size,
      decide (lower ≤ i ∧ i < upper) = true ↔
        decide ((t.keyLead (lead.map R.code).length i).map R.code = lead.map R.code) = true := by
    intro i hi
    rw [decide_eq_true_iff, decide_eq_true_iff, List.length_map]
    exact hiff i (List.mem_range.1 hi)
  rw [H.countKeys_eq, ← List.countP_congr hcongr, List.countP_eq_length_filter, filter_range hle hu,
    selected, slice, List.length_map]

/-! ## The largest group -/

/-- The keys of a table that is not empty have a part that is as frequent as the statistics say. -/
theorem IsRanked.exists_countKeys (H : t.IsRanked R) (hn : n ≤ t.sortKey.length)
    (hsize : t.rows.size ≠ 0) :
    ∃ key ∈ t.keys.toList, t.maxFrequency n ≤ t.countKeys R ((key.take n).map R.code) := by
  have hlen : t.keys.toList.length ≠ 0 := H.length_eq ▸ hsize
  have htake : ∀ key ∈ t.keys.toList, ((key.take n).map R.code).length = n := by
    intro key hkey
    rw [List.length_map, List.length_take, H.length_key hkey, Nat.min_eq_left hn]
  rw [maxFrequency]
  split
  · next hzero =>
    subst hzero
    obtain ⟨key, hkey⟩ := List.exists_mem_of_ne_nil _ (List.length_pos_iff.1
      (Nat.pos_of_ne_zero hlen))
    refine ⟨key, hkey, ?_⟩
    rw [List.take_zero, List.map_nil, countKeys, ← H.length_eq]
    simp
  have hall := H.all_take n
  split
  · next hnil => exact (hlen (by simpa using congrArg List.length hnil)).elim
  · next x xs hcons =>
    rw [hcons, List.forall_mem_cons] at hall
    have hgroup := largestGroup_le_countP 0 1 hall.1 hall.2
    have hpos : max 0 1 ≤ largestGroup Value.eqList 0 1 x xs := max_le_largestGroup
    obtain ⟨y, hy, hle⟩ := hgroup.resolve_left (by omega)
    rw [← hcons] at hy
    obtain ⟨key, hkey, rfl⟩ := List.mem_map.1 hy
    refine ⟨key, hkey, ?_⟩
    rw [countKeys_take, htake key hkey, hcons, List.countP_cons]
    simp only [decide_eq_true_eq]
    omega

/-- Keys that agree on more values agree on fewer. -/
theorem countKeys_take_le (cs : List κ) (m : Nat) :
    t.countKeys R cs ≤ t.countKeys R (cs.take m) := by
  refine List.countP_mono_left fun key _ h => ?_
  have hkey : (key.take cs.length).map R.code = cs := of_decide_eq_true h
  refine decide_eq_true ?_
  have htake := congrArg (List.take m) hkey
  rwa [← List.map_take, List.take_take, ← List.length_take] at htake

/-- A longer part of the sort key is no more frequent than a shorter one. -/
theorem IsRanked.maxFrequency_antitone (H : t.IsRanked R) {m : Nat} (hmn : m ≤ n)
    (hn : n ≤ t.sortKey.length) : t.maxFrequency n ≤ t.maxFrequency m := by
  by_cases hsize : t.rows.size = 0
  · have hkeys : t.keys.toList = [] := List.length_eq_zero_iff.1 (H.length_eq.trans hsize)
    rw [maxFrequency, hkeys]
    simp [hsize]
  obtain ⟨key, hkey, hle⟩ := H.exists_countKeys hn hsize
  have hlen : (((key.take n).map R.code).take m).length = m := by
    rw [List.length_take, List.length_map, List.length_take, H.length_key hkey]
    omega
  calc t.maxFrequency n ≤ t.countKeys R ((key.take n).map R.code) := hle
    _ ≤ t.countKeys R (((key.take n).map R.code).take m) := countKeys_take_le _ m
    _ ≤ t.maxFrequency m := by
      have hbound := H.countKeys_le (((key.take n).map R.code).take m)
      rwa [hlen] at hbound

/-! ## Statistics -/

/-- The sizes that a table announces for `n` values of a class. -/
def sizes (R : RankedClass κ) (t : SortedTable) (n : Nat) : Set Nat :=
  {size | ∃ lead : List Value, lead.length = n ∧ (∀ v ∈ lead, R.carrier v) ∧
    t.estimate lead none = .ok size}

/-- The statistics of a table of values of one ordered type are the largest number of rows that any
lookup announces and finds, and zero if there are no rows. They do not grow with the part of the
sort key. -/
theorem frequency_isGreatest (hR : R.Total) (hb : build rows sortKey = .ok t)
    (hr : ∀ row ∈ rows, ∀ v ∈ row, R.carrier v) (hn : n ≤ sortKey.length) :
    ∃ most, t.frequency (.ofNat n) = .ok most ∧
      (rows = [] → most = 0) ∧ (rows ≠ [] → IsGreatest (t.sizes R n) most) ∧
      (∀ lead : List Value, lead.length = n → (∀ v ∈ lead, R.carrier v) →
        ∃ found, (t.scan lead none).Yields found ∧ t.estimate lead none = .ok found.length ∧
          found.length ≤ most) ∧
      ∀ m ≤ n, ∃ more, t.frequency (.ofNat m) = .ok more ∧ most ≤ more := by
  obtain ⟨rfl, hperm, H⟩ := build_ranked hb hr
  have hsize : t.rows.size = rows.length := Array.length_toList.symm.trans hperm.length_eq
  have hlookup : ∀ lead : List Value, lead.length = n → (∀ v ∈ lead, R.carrier v) →
      ∃ found, (t.scan lead none).Yields found ∧ t.estimate lead none = .ok found.length ∧
        found.length = t.countKeys R (lead.map R.code) := fun lead hlen hl =>
    H.estimate_eq hl (H.compares hR hl) (hlen ▸ hn)
  have hbound : ∀ lead : List Value, lead.length = n →
      t.countKeys R (lead.map R.code) ≤ t.maxFrequency n := fun lead hlen => by
    have hle := H.countKeys_le (lead.map R.code)
    rwa [List.length_map, hlen] at hle
  refine ⟨t.maxFrequency n, frequency_eq hn, ?_, fun hrows => ⟨?_, ?_⟩, ?_, fun m hm => ?_⟩
  · rintro rfl
    exact Nat.le_zero.1 (Nat.le_trans (H.maxFrequency_antitone (Nat.zero_le n) hn)
      (Nat.le_of_eq hsize))
  · obtain ⟨key, hkey, hle⟩ := H.exists_countKeys hn
      (hsize ▸ (List.length_pos_iff.2 hrows).ne')
    have hlen : (key.take n).length = n := by
      rw [List.length_take, H.length_key hkey, Nat.min_eq_left hn]
    have hl : ∀ v ∈ key.take n, R.carrier v := fun v hv =>
      H.all key hkey v (List.mem_of_mem_take hv)
    obtain ⟨found, -, hestimate, hcount⟩ := hlookup _ hlen hl
    refine ⟨key.take n, hlen, hl, hestimate.trans (congrArg _ ?_)⟩
    exact le_antisymm (hcount ▸ hbound _ hlen) (hcount ▸ hle)
  · rintro size ⟨lead, hlen, hl, hestimate⟩
    obtain ⟨found, -, hestimate', hcount⟩ := hlookup lead hlen hl
    cases hestimate.symm.trans hestimate'
    exact hcount ▸ hbound lead hlen
  · intro lead hlen hl
    obtain ⟨found, hy, hestimate, hcount⟩ := hlookup lead hlen hl
    exact ⟨found, hy, hestimate, hcount ▸ hbound lead hlen⟩
  · exact ⟨_, frequency_eq (Nat.le_trans hm hn), H.maxFrequency_antitone hm hn⟩

/-- Two of the triples start at 1, and no more at any other node. -/
theorem frequency_isGreatest_triples :
    build Triples.rows [.ofNat 0, .ofNat 2] = .ok Triples.table ∧
    OrderedClass.ints.toRanked.Total ∧
    Triples.table.frequency (.ofNat 1) = .ok 2 ∧
    IsGreatest (Triples.table.sizes OrderedClass.ints.toRanked 1) 2 := by
  have hbuild : build Triples.rows [.ofNat 0, .ofNat 2] = .ok Triples.table := rfl
  have hints : ∀ row ∈ Triples.rows, ∀ v ∈ row, OrderedClass.ints.toRanked.carrier v := by
    simp [Triples.rows, OrderedClass.toRanked, OrderedClass.ints]
  have htotal : OrderedClass.ints.toRanked.Total := OrderedClass.total_toRanked _
  obtain ⟨most, hmost, -, hgreatest, -⟩ := frequency_isGreatest htotal hbuild hints (n := 1)
    (by decide)
  have htwo : Triples.table.frequency (.ofNat 1) = .ok 2 := rfl
  cases hmost.symm.trans htwo
  exact ⟨hbuild, htotal, htwo, hgreatest (by simp [Triples.rows])⟩

end SortedTable
end JoinOrder
