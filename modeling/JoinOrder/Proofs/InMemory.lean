import JoinOrder.Proofs.Source
import JoinOrder.Proofs.Stream
import JoinOrder.Proofs.Table

/-!
# Sources in memory

A source in memory is a sorted table or a stream. It serves lookups of all values that it can be
searched for, and finds the right rows for some positions (`Source.Locates`).
-/

namespace JoinOrder

variable {κ : Type} [LinearOrder κ] {R : RankedClass κ}

/-- The order in which a table is sorted does not matter for what it holds. -/
theorem SortedTable.build_perm {rows : List (List Value)} {sortKey : List Value} {t : SortedTable}
    (h : build rows sortKey = .ok t) : t.rows.toList.Perm rows := by
  obtain ⟨keyed, hk, h⟩ := Checked.bind_eq_ok.1 h
  obtain ⟨sorted, hs, h⟩ := Checked.bind_eq_ok.1 h
  cases h
  exact ((Sorting.sort_perm hs).map _).trans (.of_eq (map_snd_keyed hk))

namespace Source

variable {s : Source} {rows : List (List Value)}

/-- A sorted table, whose sort key begins with the declared one. -/
def IsTable (s : Source) (rows : List (List Value)) : Prop :=
  ∃ given sortKey t, SortedTable.build given sortKey = .ok t ∧ t.rows.toList = rows ∧
    SortedTable.KeyAt s.stored.length sortKey s.keyPlaces ∧ s.handle = some t.handle

/-- A table that is sorted by its key, which begins with the declared one. -/
def IsRankedTable (R : RankedClass κ) (s : Source) (rows : List (List Value)) : Prop :=
  ∃ t : SortedTable, t.IsRanked R ∧ t.rows.toList = rows ∧
    SortedTable.KeyAt s.stored.length t.sortKey s.keyPlaces ∧ s.handle = some t.handle

/-- A stream, which is not sorted. -/
def IsStream (s : Source) (rows : List (List Value)) : Prop :=
  ∃ stream : RowStream, stream.IsOver rows ∧ s.sortKey = [] ∧ s.handle = some stream.handle

theorem IsTable.exists_handle (h : s.IsTable rows) :
    ∃ t : SortedTable, s.handle = some t.handle := by
  obtain ⟨_, _, t, -, -, -, ht⟩ := h
  exact ⟨t, ht⟩

/-- Unlike a stream, a table keeps statistics. -/
theorem IsTable.not_isStream (h : s.IsTable rows) {others : List (List Value)} :
    ¬s.IsStream others := by
  obtain ⟨t, ht⟩ := h.exists_handle
  rintro ⟨stream, -, -, hs⟩
  cases congrArg Handle.frequency (Option.some.inj (ht.symm.trans hs))

/-- A table that has been built from values of a class is sorted by its key. -/
theorem IsTable.ranked (h : s.IsTable rows) (hr : ∀ row ∈ rows, ∀ v ∈ row, R.carrier v) :
    s.IsRankedTable R rows := by
  obtain ⟨given, sortKey, t, hb, rfl, hk, hh⟩ := h
  obtain ⟨rfl, -, hranked⟩ := SortedTable.build_ranked hb fun row hrow =>
    hr row ((SortedTable.build_perm hb).mem_iff.2 hrow)
  exact ⟨t, hranked, rfl, hk, hh⟩

/-- A source over rows of values of a class, no more of them than a list in memory can have. -/
structure InMemory (R : RankedClass κ) (s : Source) (rows : List (List Value)) : Prop where
  columns_nodup : s.columns.Nodup
  stored_perm : s.stored.Perm s.attributes
  width : ∀ row ∈ rows, row.length = s.stored.length
  all : ∀ row ∈ rows, R.All row
  countable : rows.length < 2 ^ 63
  kept : s.IsTable rows ∨ s.IsStream rows

theorem IsRankedTable.serves (h : s.IsRankedTable R rows)
    (hw : ∀ row ∈ rows, row.length = s.stored.length) (hc : rows.length < 2 ^ 63) :
    ∃ handle, s.handle = some handle ∧
      handle.Serves R.toValueClass s.keyPlaces (SortedTable.Locates rows) rows := by
  obtain ⟨t, hranked, rfl, hk, hh⟩ := h
  exact ⟨_, hh, hranked.serves hw hk (Array.length_toList ▸ hc)⟩

/-- What a source finds the right rows for as positions. -/
def Locates (s : Source) (rows : List (List Value)) (v : Value) : Prop :=
  (s.IsTable rows → SortedTable.Locates rows v) ∧ (s.IsStream rows → RowStream.Locates rows v)

/-- Tables find integers, and streams those that fit into a word. -/
theorem locates_int {n : Int} (h : s.IsStream rows → RowStream.Asks n) : s.Locates rows (.int n) :=
  ⟨fun _ => .inl ⟨n, rfl⟩, fun hs => .inl ⟨n, rfl, h hs⟩⟩

theorem InMemory.serves (H : s.InMemory R rows) :
    s.Serves R.toValueClass (s.Locates rows) rows := by
  refine ⟨H.columns_nodup, H.stored_perm, H.width, H.all, ?_⟩
  rcases H.kept with h | h
  · obtain ⟨handle, hh, hserves⟩ := (h.ranked H.all).serves H.width H.countable
    exact ⟨handle, hh, hserves.mono fun v hv => hv.1 h⟩
  · obtain ⟨stream, hover, hkey, hh⟩ := id h
    refine ⟨_, hh, ?_⟩
    rw [keyPlaces, hkey]
    exact hover.serves.mono fun v hv => hv.2 h

/-- The positions of its rows are among what a source can be asked for. -/
theorem InMemory.locates (H : s.InMemory R rows) {i : Nat} (hi : i < rows.length) :
    s.Locates rows (.ofNat i) := by
  refine locates_int fun _ => ?_
  have := H.countable
  rw [RowStream.Asks]
  omega

end Source
end JoinOrder
