import JoinOrder.Proofs.Consistent
import JoinOrder.Proofs.Counts
import JoinOrder.Proofs.IndexKeys

/-!
# Exact sizes

A table knows how many rows begin with some values of its sort key. Where these are all bound
values, this is the number of tuples that a lookup finds; otherwise some of the rows do not pass
the other checks. The statistics of a key bound the number for any of its values
(`StoredRelation.lookup_cardinality`).
-/

namespace JoinOrder

namespace Source

variable {κ : Type} [LinearOrder κ] {R : RankedClass κ} {s : Source} {rows : List (List Value)}

/-- A table announces how many rows it selects. They are as many as the tuples with the bound
values, if these are exactly the values of an index key. -/
theorem IsTable.estimate_spec {asks : Value → Prop} {binding : NamedValues} (ht : s.IsTable rows)
    (H : s.InMemory R rows) (hserves : s.Serves R.toValueClass asks rows)
    (hb : s.Admits R.toValueClass rows binding) (hd : binding.names.Nodup)
    (hp : ∀ e ∈ binding, s.position = some e.1 → ∃ n, e.2 = .int n) :
    ∃ n, s.estimate binding = .ok (.ofNat n) ∧ Cardinality.ofValue (.ofNat n) = .ok (.known n) ∧
      (s.tuples rows).countP (binding.holds s.columns) ≤ n ∧
      ∀ m, s.bestMatch binding.names = some m → m.exact = true →
        (s.tuples rows).countP (binding.holds s.columns) = n := by
  obtain ⟨lead, position, hterms, T, hasks⟩ := searchTerms_spec hserves.wellFormed hb.columns
  obtain ⟨t, hranked, rfl, hkey, hhandle⟩ := ht.ranked H.all
  have hestimate := hranked.estimate_handle H.width hkey (hb.searches T) (T.asks_position hp)
  refine ⟨(numbered t.rows.toList).countP (StoredRow.isAt s.keyPlaces lead position), ?_,
    Cardinality.ofValue_ofNat ?_, hserves.countP_holds_le T, fun m hm he => ?_⟩
  · simp only [Source.estimate, hterms, requireHandle, hhandle, Checked.bind_ok, hestimate]
  · refine Nat.lt_of_le_of_lt List.countP_le_length ?_
    rw [numbered_eq_range, List.length_map, List.length_range]
    exact H.countable
  · rw [tuples, List.countP_map]
    refine List.countP_congr fun r hr => ⟨isAt_of_holds hserves.wellFormed (hserves.fits hr) T, ?_⟩
    refine holds_of_isAt hserves.wellFormed (hserves.fits hr) T hd
      (fun name hname => hasks m hm name (bestMatch_covers hm he name hname)) ?_ ?_
    · intro name hname x hx
      obtain ⟨y, hy, hc⟩ := hserves.get_stored hr (sortKey_subset name hname)
      cases hx.symm.trans hy
      exact ValueClass.eq_self hc
    · intro e he hpos hnull
      obtain ⟨n, hn⟩ := hp e he hpos
      cases hn.symm.trans hnull

end Source

namespace StoredRelation

variable {κ : Type} [LinearOrder κ] {R : RankedClass κ} {r : StoredRelation} {s : Source}
  {rows : List (List Value)} {binding : NamedValues}

/-- The source of an exact match has all bound attributes, and one of its keys consists of them. -/
theorem selectSource_exact {bound key : List Name}
    (h : r.selectSource bound = (s, some ⟨key, true⟩)) : (∀ name ∈ bound, name ∈ s.columns) ∧
      s.bestMatch (bound.filter (· ∈ s.columns)) = some ⟨key, true⟩ := by
  have hm : sourceMatch bound s = some ⟨key, true⟩ := (selectAmong_match h).resolve_left nofun
  obtain ⟨m, hbest, hmatch⟩ := Option.map_eq_some_iff.1 hm
  rw [IndexMatch.mk.injEq, Bool.and_eq_true, NameSet.agree_iff] at hmatch
  obtain ⟨rfl, he, hagree⟩ := hmatch
  refine ⟨fun name hn => ?_, hbest.trans (congrArg some (he ▸ rfl))⟩
  exact of_decide_eq_true (List.mem_filter.1 ((hagree name).2 hn)).2

section

variable (H : r.Consistent R rows) (ht : ∀ s ∈ r.sources, ∃ others, s.IsTable others)

include H ht

theorem Consistent.table (hs : s ∈ r.sources) : ∃ others, s.IsTable others ∧
    s.InMemory R others ∧ r.Mirrors R.toValueClass s (s.Locates others) rows others := by
  obtain ⟨_, htable⟩ := ht s hs
  obtain ⟨others, hm, M⟩ := H.source hs
  exact ⟨others, hm.kept.resolve_right htable.not_isStream, hm, M⟩

/-- A lookup announces no fewer tuples than it finds, and as many if its index is exact. -/
theorem Consistent.lookup_size (hb : r.Binds R binding) :
    ∃ found n, r.lookup binding = .ok found ∧ found.cardinality = .known n ∧
      r.tuples.countP (binding.holds r.attributes) ≤ n ∧
      ∀ key, r.indexMatch binding.names = some ⟨key, true⟩ →
        r.tuples.countP (binding.holds r.attributes) = n := by
  have hs : (r.selectSource binding.names).1 ∈ r.sources := selectSource_mem
  obtain ⟨others, htable, hm, M⟩ := H.table ht hs
  have hK := R.toValueClass.withIntegers_includes
  have hkeeps := H.keeps hK
  have hk := hb.typed.included H.wellFormed hK
  obtain ⟨n, hv, hsize, hle, hexact⟩ := htable.estimate_spec hm M.serves
    (admits_restrict hb.takes hs M.serves) (NamedValues.nodup_restrict hb.nodup)
    (hb.typed.position_int hs)
  refine ⟨_, n, lookup_selected hb.attributes hv hsize, rfl,
    Nat.le_trans (hkeeps.countP_holds_le M hb.attributes hk) hle, fun key hkey => ?_⟩
  obtain ⟨hcols, hbest⟩ := selectSource_exact (Prod.ext rfl hkey)
  rw [← hkeeps.countP_holds_eq M hb.attributes hk hcols]
  exact hexact _ (NamedValues.names_restrict_eq ▸ hbest) rfl

omit H ht in
/-- Statistics are only kept for exact matches. -/
theorem indexMatch_of_keyFrequency {bound : List Name} {size : Cardinality}
    (h : r.keyFrequency bound = .ok (some size)) :
    ∃ key, r.indexMatch bound = some ⟨key, true⟩ := by
  unfold StoredRelation.keyFrequency at h
  split at h
  · next s key hselect => exact ⟨key, congrArg Prod.snd hselect⟩
  · cases h

/-- A lookup announces at least as many tuples as it finds, and exactly as many if the bound
attributes are an index key. The statistics of the bound attributes, if there are any, are no less
than what is announced for any of their values. -/
theorem lookup_cardinality (hb : r.Binds R binding) : ∃ found out n, r.lookup binding = .ok found ∧
    (found.rows ()).Yields out ∧ found.cardinality = .known n ∧ out.length ≤ n ∧
    (∀ key, r.indexMatch binding.names = some ⟨key, true⟩ → out.length = n) ∧
    ∃ o, r.keyFrequency binding.names = .ok o ∧
      ∀ size, o = some size → ∃ most, size = .known most ∧ n ≤ most := by
  have hK := R.toValueClass.withIntegers_includes
  obtain ⟨found, out, hl, hy, -, hperm⟩ := H.lookup_spec hK (hb.located H.wellFormed hK)
  obtain ⟨found', n, hl', hn, hle, hexact⟩ := H.lookup_size ht hb
  cases hl.symm.trans hl'
  obtain ⟨o, ho, hfrequency⟩ := (H.announces (measured_of_tables ht) hK).frequency binding.names
  have hlen : out.length = r.tuples.countP (binding.holds r.attributes) := by
    rw [List.countP_eq_length_filter]
    simpa using hperm.length_eq
  refine ⟨found, out, n, hl, hy, hn, hlen ▸ hle, fun key hkey => hlen ▸ hexact key hkey, o, ho,
    fun size hsize => ?_⟩
  obtain ⟨key, hkey⟩ := indexMatch_of_keyFrequency (ho.trans (congrArg _ hsize))
  obtain ⟨most, hmost, hbound⟩ := hfrequency size hsize
  exact ⟨most, hmost, hexact key hkey ▸ hbound binding
    ⟨hb.attributes, hb.typed.included H.wellFormed hK⟩ fun _ h => h⟩

end

end StoredRelation

/-- The number of edges that end at the node 2 is known from the table of ends. -/
theorem StoredRelation.lookup_cardinality_edges :
    Edges.relation.Consistent OrderedClass.ints.toRanked (Edges.numbers [[1, 2], [2, 2], [2, 3]]) ∧
    (∀ s ∈ Edges.relation.sources, ∃ others, s.IsTable others) ∧
    Edges.relation.Binds OrderedClass.ints.toRanked [(.text "b", .int 2)] ∧
    ∃ found out, Edges.relation.lookup [(.text "b", .int 2)] = .ok found ∧
      (found.rows ()).Yields out ∧ found.cardinality = .known 2 ∧ out.length = 2 := by
  obtain ⟨found, out, n, hl, hy, hn, -, hexact, -⟩ := StoredRelation.lookup_cardinality
    Edges.relation_consistent Edges.relation_isTable (Edges.relation_binds 2)
  have hsize : (Edges.relation.lookup [(.text "b", .int 2)]).map LookupResult.cardinality =
      .ok (.known 2) := rfl
  rw [hl] at hsize
  have hfound : found.cardinality = .known 2 := Except.ok.inj hsize
  cases hn.symm.trans hfound
  exact ⟨Edges.relation_consistent, Edges.relation_isTable, Edges.relation_binds 2, found, out, hl,
    hy, hfound, hexact [.text "b"] rfl⟩

end JoinOrder
