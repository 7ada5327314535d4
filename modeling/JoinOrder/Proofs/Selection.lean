import JoinOrder.Proofs.Consistent
import JoinOrder.Proofs.IndexKeys
import JoinOrder.Proofs.Reordered

/-!
# Selections

A scan for some values is the full scan, filtered by these values (`Source.scan_filter`). It finds
as many tuples as the source announces, if the values are those of an index key and the position is
not null (`Source.estimate_exact`).

What is asked of a table is only that it is sorted by its key, and that the bound values can be
compared with those of the key. The other columns may have any values.
-/

namespace JoinOrder
namespace Source

variable {κ : Type} [LinearOrder κ] {R : RankedClass κ} {s v : Source}
  {rows : List (List Value)} {binding : NamedValues} {lead : List Value}
  {position : Option Value}

/-- A source over rows in memory: a table that is sorted by its key, or a stream. -/
structure Ranked (R : RankedClass κ) (s : Source) (rows : List (List Value)) : Prop where
  wellFormed : s.WellFormed
  width : ∀ row ∈ rows, row.length = s.stored.length
  kept : s.IsRankedTable R rows ∨ s.IsStream rows

/-- The key values of the rows are of the class. -/
theorem IsRankedTable.carrier_key (h : s.IsRankedTable R rows)
    (hw : ∀ row ∈ rows, row.length = s.stored.length) {row : List Value} (hr : row ∈ rows) :
    ∀ x ∈ s.keyPlaces.filterMap (row[·]?), R.carrier x := by
  obtain ⟨t, hranked, rfl, hplaces, -⟩ := h
  obtain ⟨key, hkey, hof⟩ := exists_of_forall₂ hranked.keyed.flip hr
  intro x hx
  rw [← hplaces.keyOf (hw row hr) hof] at hx
  exact hranked.all key hkey x (List.mem_of_mem_take hx)

theorem InMemory.ranked (H : s.InMemory R rows) : s.Ranked R rows where
  wellFormed := ⟨H.columns_nodup, H.stored_perm⟩
  width := H.width
  kept := H.kept.imp_left fun h => h.ranked H.all

namespace Ranked

variable (H : s.Ranked R rows)

include H

theorem fits {r : StoredRow} (hr : r ∈ numbered rows) : s.Fits r :=
  H.width _ (mem_of_mem_numbered hr)

/-- Whatever its handle is asked for, it only has rows that fit. -/
theorem scan_each {handle : Handle} (h : s.handle = some handle) (lead : List Value)
    (position : Option Value) : (handle.scan lead position).Each s.Fits := by
  rcases H.kept with ⟨t, -, rfl, -, hh⟩ | ⟨stream, hover, -, hh⟩
  · cases h.symm.trans hh
    exact (SortedTable.scan_each lead position).mono fun r hr => H.fits hr
  · cases h.symm.trans hh
    exact (hover.scan_each lead position).mono fun r hr => H.fits hr

theorem reordered {order : List Name} (h : s.reordered order = .ok v) : v.Ranked R rows where
  wellFormed := wellFormed_reordered h H.wellFormed
  width := stored_reordered h ▸ H.width
  kept := by
    rw [IsRankedTable, IsStream, keyPlaces, stored_reordered h, handle_reordered h,
      sortKey_reordered h]
    exact H.kept

theorem presents {order : List Name} (h : s.reordered order = .ok v) : v.Presents s :=
  presents_reordered h H.wellFormed fun _ hh => H.scan_each hh

theorem reorderedAll {chain : List (List Name)} (h : chain.foldlM Source.reordered s = .ok v) :
    v.Ranked R rows ∧ v.sortKey = s.sortKey ∧ v.keyPlaces = s.keyPlaces := by
  induction chain generalizing s with
  | nil =>
    cases h
    exact ⟨H, rfl, rfl⟩
  | cons order chain ih =>
    obtain ⟨w, hw, h⟩ := Checked.bind_eq_ok.1 h
    obtain ⟨hv, hkey, hplaces⟩ := ih (H.reordered hw) h
    refine ⟨hv, hkey.trans (sortKey_reordered hw), hplaces.trans ?_⟩
    rw [keyPlaces, keyPlaces, sortKey_reordered hw, stored_reordered hw]

/-- Values of one ordered type can all be compared. -/
theorem compares (hR : R.Total) (hk : ∀ e ∈ binding, e.1 ∈ s.sortKey → R.carrier e.2) :
    s.Compares rows binding := by
  intro lead hn hl row hrow
  have hlead : ∀ v ∈ lead, R.carrier v := Terms.all_lead ⟨hn, hl, .inl rfl⟩ hk
  refine hR.comparable (fun v hv => ?_) hlead
  rcases H.kept with h | ⟨-, -, hkey, -⟩
  · exact h.carrier_key H.width hrow v ((List.take_sublist ..).filterMap _ |>.subset hv)
  · rw [keyPlaces, hkey] at hv
    simp at hv

end Ranked

/-! ## Scans -/

section

variable (hk : ∀ e ∈ binding, e.1 ∈ s.sortKey → R.carrier e.2)
  (hcompare : s.Compares rows binding)

include hk hcompare

theorem IsRankedTable.scan_spec (h : s.IsRankedTable R rows)
    (hw : ∀ row ∈ rows, row.length = s.stored.length) (T : s.Terms binding lead position) :
    ∃ handle found, s.handle = some handle ∧ (handle.scan lead position).Yields found ∧
      handle.estimate lead position = .ok (.ofNat found.length) ∧
      (∀ r ∈ found, r ∈ numbered rows ∧ r.isAt s.keyPlaces lead position = true) ∧
      ((∀ v, position = some v → ∃ n, v = .int n) →
        found = (numbered rows).filter (StoredRow.isAt s.keyPlaces lead position)) := by
  obtain ⟨t, hranked, rfl, hplaces, hh⟩ := h
  have hl : Searches R.toValueClass s.keyPlaces t.rows.toList lead :=
    ⟨T.all_lead hk, T.length_le_keyPlaces, hcompare lead T.length_le T.lead⟩
  obtain ⟨found, hy, hcount, hfound⟩ := hranked.scan_exact hw hplaces hl position
  refine ⟨_, found, hh, hy, congrArg (Except.map Value.ofNat) hcount, hfound, fun hp => ?_⟩
  exact hy.unique (hranked.scan_spec hw hplaces hl fun v hv => .inl (hp v hv)).1

/-- A scan is the full scan, filtered by the bound values. A position is null, which no tuple has,
or an integer that streams can be asked for. -/
theorem Ranked.scan_spec (H : s.Ranked R rows) (hn : binding.names.Nodup)
    (hc : ∀ name ∈ binding.names, name ∈ s.columns)
    (hp : ∀ e ∈ binding, s.position = some e.1 →
      e.2 = .null ∨ ∃ n, e.2 = .int n ∧ RowStream.Asks n) :
    (s.scan binding).Yields ((s.tuples rows).filter (binding.holds s.columns)) := by
  obtain ⟨lead, position, hterms, T, -⟩ := searchTerms_spec H.wellFormed hc
  have hposition : ∀ v, position = some v → ∃ n, v = .int n ∧ RowStream.Asks n := fun v hv => by
    obtain ⟨p, hpos, hmem, hne⟩ := T.asked_position hv
    exact (hp _ hmem hpos).resolve_left hne
  rcases H.kept with h | ⟨stream, hover, hkey, hh⟩
  · obtain ⟨handle, found, hh, hy, -, -, hfound⟩ := h.scan_spec hk hcompare H.width T
    rw [hfound fun v hv => (hposition v hv).imp fun _ => And.left] at hy
    exact scan_of_found H.wellFormed hn hc hterms hh (fun r hr => H.fits hr) T hy
  · have hlead : lead = [] := List.length_eq_zero_iff.1 <| by
      have := T.length_le
      rw [hkey] at this
      exact Nat.le_zero.1 this
    cases hlead
    refine scan_of_found H.wellFormed hn hc hterms hh (fun r hr => H.fits hr) T ?_
    rw [keyPlaces, hkey]
    refine hover.scan_spec fun v hv => ?_
    obtain ⟨n, rfl, ha⟩ := hposition v hv
    exact .inl ⟨n, rfl, ha⟩

end

/-- For a source and its views, whatever index a scan uses, it yields the tuples of the full scan
that have the bound values, in the same order and each as often. -/
theorem scan_filter (H : s.Ranked R rows) {chain : List (List Name)}
    (hv : chain.foldlM reordered s = .ok v) (hn : binding.names.Nodup)
    (hc : ∀ name ∈ binding.names, name ∈ v.columns)
    (hk : ∀ e ∈ binding, e.1 ∈ s.sortKey → R.carrier e.2) (hcompare : s.Compares rows binding)
    (hp : ∀ e ∈ binding, v.position = some e.1 →
      e.2 = .null ∨ ∃ n, e.2 = .int n ∧ n < 2 ^ 63 - 1) :
    ∃ all, (v.scan []).Yields all ∧
      (v.scan binding).Yields (all.filter (binding.holds v.columns)) := by
  obtain ⟨Hv, hkey, hplaces⟩ := H.reorderedAll hv
  have hcompare' : ∀ b : NamedValues, s.Compares rows b → v.Compares rows b := fun b h => by
    rw [Compares, hkey, hplaces]
    exact h
  have hempty : s.Compares rows [] := by
    rintro (_ | ⟨v, lead⟩) _ hl row _
    · exact ⟨⟨_, rfl⟩, ⟨_, rfl⟩⟩
    · obtain ⟨name, -, hname⟩ := exists_of_forall₂ hl List.mem_cons_self
      cases hname
  have hall : (v.scan []).Yields ((v.tuples rows).filter (NamedValues.holds v.columns [])) :=
    Hv.scan_spec nofun (hcompare' _ hempty) List.nodup_nil nofun nofun
  rw [NamedValues.filter_holds_nil] at hall
  refine ⟨_, hall, Hv.scan_spec (hkey ▸ hk) (hcompare' _ hcompare) hn hc fun e he hpos => ?_⟩
  refine (hp e he hpos).imp_right fun ⟨n, hint, hlt⟩ => ⟨n, hint, ?_⟩
  rw [RowStream.Asks]
  omega

end Source

namespace Triples

theorem source_ranked : source.Ranked OrderedClass.ints.toRanked rows := by
  have hschema : schema.WellFormed := ⟨by decide, by simp [Schema.columns, schema],
    by simp [schema], by simp [schema]⟩
  have hbuild : SortedTable.build rows [.ofNat 0, .ofNat 2] = .ok table := rfl
  have hmemory : source.InMemory OrderedClass.ints.toRanked rows :=
    Source.inMemory_table hschema (Edges.all_numbers [[1, 7, 1], [1, 5, 2], [2, 6, 1]])
      (by simp [Edges.numbers, schema]) (by simp [Edges.numbers]) hbuild rfl
  exact hmemory.ranked

theorem source_rankedTable : source.IsRankedTable OrderedClass.ints.toRanked rows :=
  source_ranked.kept.resolve_right fun ⟨_, _, hkey, _⟩ => nomatch hkey

end Triples

/-- A triple from 1 at the position 1 is found by both, and found to have a 5 in its middle. -/
theorem Source.scan_filter_triples :
    Triples.source.Ranked OrderedClass.ints.toRanked Triples.rows ∧
    Triples.source.Compares Triples.rows
      [(.text "b", .int 5), (.text "a", .int 1), (.text "p", .int 1)] ∧
    (Triples.view.scan [(.text "b", .int 5), (.text "a", .int 1), (.text "p", .int 1)]).Yields
      [[.int 1, .int 2, .int 5, .int 1]] := by
  have hk : ∀ e ∈ [(Name.text "b", Value.int 5), (.text "a", .int 1), (.text "p", .int 1)],
      e.1 ∈ Triples.source.sortKey → OrderedClass.ints.carrier e.2 := by
    simp [OrderedClass.ints]
  have hcompare := Triples.source_ranked.compares OrderedClass.ints.total_toRanked hk
  obtain ⟨all, hall, hy⟩ := Source.scan_filter Triples.source_ranked Triples.reordered_view
    (by decide) (by decide) hk hcompare (by simp [Triples.view])
  have hrows : (Triples.view.scan []).Yields
      [[.int 1, .int 1, .int 7, .int 0], [.int 1, .int 2, .int 5, .int 1],
        [.int 2, .int 1, .int 6, .int 2]] := rfl
  cases hall.unique hrows
  exact ⟨Triples.source_ranked, hcompare, hy⟩

namespace Source

variable {κ : Type} [LinearOrder κ] {R : RankedClass κ} {s : Source} {rows : List (List Value)}
  {binding : NamedValues}

/-! ## Sizes -/

/-- A table announces exactly as many tuples as it has with the bound values, if the bound columns
are those of an index key, for all positions but null. -/
theorem estimate_exact (H : s.IsRankedTable R rows) (W : s.WellFormed)
    (hw : ∀ row ∈ rows, row.length = s.stored.length) {key : List Name} (hkey : key ∈ s.indexKeys)
    (hn : binding.names.Nodup) (hset : ∀ name, name ∈ binding.names ↔ name ∈ key)
    (hk : ∀ e ∈ binding, e.1 ∈ s.sortKey → R.carrier e.2) (hcompare : s.Compares rows binding)
    (hp : ∀ e ∈ binding, s.position = some e.1 → e.2 ≠ .null) :
    ∃ out, (s.scan binding).Yields out ∧ s.estimate binding = .ok (.ofNat out.length) := by
  have hc : ∀ name ∈ binding.names, name ∈ s.columns := fun name hname =>
    indexKeys_subset hkey name ((hset name).1 hname)
  obtain ⟨m, hm, he⟩ : ∃ m, s.bestMatch binding.names = some m ∧ m.exact = true := by
    rw [← Option.any_eq_true]
    exact (bestAmong_exact rfl).2 ⟨key, hkey, NameSet.agree_iff.2 fun name => (hset name).symm⟩
  obtain ⟨lead, position, hterms, T, hasks⟩ := searchTerms_spec W hc
  obtain ⟨handle, found, hh, hy, hcount, hfound, -⟩ := H.scan_spec hk hcompare hw T
  -- Nothing is left to be checked for the rows that the handle selects.
  have hall : ∀ r ∈ found, binding.holds s.columns (s.present r) = true := by
    intro r hr
    obtain ⟨hmem, hat⟩ := hfound r hr
    refine holds_of_isAt W (hw _ (mem_of_mem_numbered hmem)) T hn
      (fun name hname => hasks m hm name (bestMatch_covers hm he name hname)) ?_ hp hat
    intro name hname x hx
    have hcarrier : R.carrier x := H.carrier_key hw (mem_of_mem_numbered hmem) x
      (List.mem_filterMap.2 ⟨_, List.mem_map_of_mem hname, hx⟩)
    exact (R.eq_iff hcarrier hcarrier).2 rfl
  have hscan := scan_yields W hn hc hterms hh
    (fun r hr => hw _ (mem_of_mem_numbered (hfound r hr).1)) hy
  rw [List.filter_eq_self.2 (List.forall_mem_map.2 hall)] at hscan
  refine ⟨found.map s.present, hscan, ?_⟩
  rw [List.length_map, estimate, hterms, Checked.bind_ok, requireHandle, hh]
  exact hcount

end Source

/-- The triple at a position, found by its ends and its position. -/
theorem Source.estimate_exact_triples :
    Triples.source.IsRankedTable OrderedClass.ints.toRanked Triples.rows ∧
    ∃ out, (Triples.source.scan [(.text "c", .int 1), (.text "p", .int 0),
        (.text "a", .int 1)]).Yields out ∧
      Triples.source.estimate [(.text "c", .int 1), (.text "p", .int 0), (.text "a", .int 1)] =
        .ok (.ofNat out.length) := by
  have hk : ∀ e ∈ [(Name.text "c", Value.int 1), (.text "p", .int 0), (.text "a", .int 1)],
      e.1 ∈ Triples.source.sortKey → OrderedClass.ints.carrier e.2 := by
    simp [OrderedClass.ints]
  have hkey : [.text "a", .text "c", .text "p"] ∈ Triples.source.indexKeys := by decide
  refine ⟨Triples.source_rankedTable, Source.estimate_exact Triples.source_rankedTable
    Triples.source_wellFormed Triples.source_ranked.width hkey (by decide) (fun name => ?_) hk
    (Triples.source_ranked.compares OrderedClass.ints.total_toRanked hk) (by simp)⟩
  simp [or_comm, or_left_comm]

/-- Null stands for no position where the handle is asked, so that all tuples are counted for it. -/
theorem Source.not_estimate_exact : ¬∀ (κ : Type) (_ : LinearOrder κ) (R : RankedClass κ)
    (s : Source) (rows : List (List Value)) (key : List Name) (binding : NamedValues),
    s.IsRankedTable R rows → s.WellFormed → (∀ row ∈ rows, row.length = s.stored.length) →
    key ∈ s.indexKeys → binding.names.Nodup → (∀ name, name ∈ binding.names ↔ name ∈ key) →
    (∀ e ∈ binding, e.1 ∈ s.sortKey → R.carrier e.2) → s.Compares rows binding →
    ∃ out, (s.scan binding).Yields out ∧ s.estimate binding = .ok (.ofNat out.length) := by
  intro h
  have hk : ∀ e ∈ [(Name.text "p", Value.null)],
      e.1 ∈ Triples.source.sortKey → OrderedClass.ints.carrier e.2 := by
    intro e he hkey
    cases List.mem_singleton.1 he
    exact absurd hkey (by decide)
  obtain ⟨out, hy, hcount⟩ := h Int _ OrderedClass.ints.toRanked Triples.source Triples.rows
    [.text "p"] [(.text "p", .null)] Triples.source_rankedTable Triples.source_wellFormed
    Triples.source_ranked.width
    (by decide) (by decide) (fun name => Iff.rfl) hk
    (Triples.source_ranked.compares OrderedClass.ints.total_toRanked hk)
  have hnone : (Triples.source.scan [(.text "p", .null)]).Yields [] := rfl
  cases hy.unique hnone
  have hthree : Triples.source.estimate [(.text "p", .null)] = .ok (.int 3) := rfl
  cases hthree.symm.trans hcount

end JoinOrder
