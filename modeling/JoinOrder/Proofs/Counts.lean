import JoinOrder.Proofs.Cardinality
import JoinOrder.Proofs.Consistent
import JoinOrder.Proofs.Statistics

/-!
# What relations announce

A consistent relation never announces fewer tuples than it finds (`Consistent.announces`), be it for
a lookup or for all values of some attributes, and its views do not either. A relation over
sorted tables moreover announces known sizes (`StoredRelation.lookup_known`).
-/

namespace JoinOrder

/-- Of matched lists, no more on the right than on the left have a property that carries over. -/
theorem countP_le_of_forall₂ {α β : Type} {R : α → β → Prop} {p : α → Bool} {q : β → Bool}
    {xs : List α} {ys : List β} (H : List.Forall₂ R xs ys)
    (h : ∀ x ∈ xs, ∀ y ∈ ys, R x y → q y = true → p x = true) : ys.countP q ≤ xs.countP p := by
  induction H with
  | nil => exact Nat.le_refl _
  | @cons x y xs ys hxy _ ih =>
    have hrest := ih fun x hx y hy =>
      h x (List.mem_cons_of_mem _ hx) y (List.mem_cons_of_mem _ hy)
    have hhead := h x List.mem_cons_self y List.mem_cons_self hxy
    rw [List.countP_cons, List.countP_cons]
    by_cases hq : q y = true
    · rw [if_pos hq, if_pos (hhead hq)]
      omega
    · rw [if_neg hq]
      omega

/-- A binding of some attributes to values of the class. -/
structure ValueClass.Binds {κ : Type} (K : ValueClass κ) (attributes : List Name)
    (binding : NamedValues) : Prop where
  attributes : ∀ name ∈ binding.names, name ∈ attributes
  carrier : ∀ e ∈ binding, K.carrier e.2

namespace Relation

variable {κ : Type} {K : ValueClass κ}

/-- The sizes that a relation announces are bounds: those of lookups of some kind for what these
find, and those of some attributes for any values that the attributes may be bound to. -/
structure Announces (K : ValueClass κ) (binds : NamedValues → Prop) (relation : Relation)
    (tuples : List (List Value)) : Prop where
  lookup : ∀ binding, binds binding → ∃ found, relation.lookup binding = .ok found ∧
    found.cardinality.Bounds (tuples.countP (binding.holds relation.attributes))
  frequency : ∀ bound, ∃ o, relation.keyFrequency bound = .ok o ∧ ∀ size, o = some size →
    ∃ n, size = .known n ∧ ∀ binding, K.Binds relation.attributes binding →
      (∀ name ∈ bound, name ∈ binding.names) →
      tuples.countP (binding.holds relation.attributes) ≤ n

/-- The sizes that a relation announces are known bounds. -/
structure Counts (K : ValueClass κ) (binds : NamedValues → Prop) (relation : Relation)
    (tuples : List (List Value)) : Prop extends relation.Announces K binds tuples where
  known : ∀ binding found, relation.lookup binding = .ok found →
    ∃ n, found.cardinality = .known n

variable {binds fewer : NamedValues → Prop} {relation : Relation} {tuples : List (List Value)}
  {binding : NamedValues} {found : LookupResult} {r : StoredRelation}

theorem Announces.mono (H : relation.Announces K binds tuples)
    (h : ∀ binding, fewer binding → binds binding) : relation.Announces K fewer tuples where
  lookup binding hb := H.lookup binding (h binding hb)
  frequency := H.frequency

theorem Counts.lookup_le (H : relation.Counts K binds tuples) (hb : binds binding)
    (hl : relation.lookup binding = .ok found) : ∃ n, found.cardinality = .known n ∧
      tuples.countP (binding.holds relation.attributes) ≤ n := by
  obtain ⟨found', hfound, hbound⟩ := H.lookup binding hb
  cases hl.symm.trans hfound
  obtain ⟨n, hn⟩ := H.known binding found hl
  rw [hn] at hbound
  obtain ⟨m, hm, hle⟩ := hbound.resolve_left Cardinality.noConfusion
  cases hm
  exact ⟨n, hn, hle⟩

/-- The number of all tuples. -/
theorem Counts.extent {c : Cardinality} (H : relation.Counts K binds tuples) (hb : binds [])
    (h : relation.extent = .ok c) : ∃ n, c = .known n ∧ tuples.length ≤ n := by
  obtain ⟨found, hl, h⟩ := Checked.bind_eq_ok.1 h
  cases h
  obtain ⟨n, hn, hle⟩ := H.lookup_le hb hl
  refine ⟨n, hn, ?_⟩
  rwa [List.countP_eq_length_filter, NamedValues.filter_holds_nil] at hle

/-! ## Views -/

/-- A view has as many tuples with some values as its relation. -/
theorem countP_permute {attributes : List Name}
    (h : attributes.Perm r.attributes) (hfits : ∀ t ∈ r.tuples, K.Fits r.attributes t)
    (hn : ∀ name ∈ binding.names, name ∈ r.attributes) :
    (r.tuples.map (ReorderedView.permute ⟨r, attributes⟩)).countP (binding.holds attributes) =
      r.tuples.countP (binding.holds r.attributes) := by
  rw [List.countP_map]
  exact List.countP_congr fun t ht => Bool.eq_iff_iff.1
    (ReorderedView.holds_permute (v := ⟨r, attributes⟩) h (hfits t ht)
      fun name hname => h.mem_iff.2 (hn name hname))

/-- What a view announces is what its relation announces. -/
theorem Shows.announces (h : relation.Shows r)
    (hfits : ∀ t ∈ r.tuples, K.Fits r.attributes t)
    (hbinds : ∀ binding, binds binding → ∀ name ∈ binding.names, name ∈ r.attributes)
    (H : (Relation.stored r).Announces K binds r.tuples) :
    relation.Announces K binds relation.tuples := by
  cases h with
  | stored => exact H
  | @view attributes h =>
    constructor
    · intro binding hb
      obtain ⟨found, hfound, hbound⟩ := H.lookup binding hb
      have hnames : ∀ name ∈ binding.names, name ∈ attributes := fun name hn =>
        h.mem_iff.2 (hbinds binding hb name hn)
      exact ⟨_, ReorderedView.lookup_eq (v := ⟨r, attributes⟩) hnames hfound,
        (countP_permute h hfits (hbinds binding hb)).symm ▸ hbound⟩
    · intro bound
      obtain ⟨o, ho, hsize⟩ := H.frequency bound
      refine ⟨o, ho, fun size hs => ?_⟩
      obtain ⟨n, hn, hle⟩ := hsize size hs
      refine ⟨n, hn, fun binding hb hbound => ?_⟩
      have hnames : ∀ name ∈ binding.names, name ∈ r.attributes := fun name hn =>
        h.mem_iff.1 (hb.attributes name hn)
      exact (countP_permute h hfits hnames).symm ▸ hle binding ⟨hnames, hb.carrier⟩ hbound

theorem Shows.known (h : relation.Shows r)
    (H : ∀ binding found, r.lookup binding = .ok found → ∃ n, found.cardinality = .known n)
    (binding : NamedValues) (found : LookupResult) (hl : relation.lookup binding = .ok found) :
    ∃ n, found.cardinality = .known n := by
  cases h with
  | stored => exact H binding found hl
  | view h =>
    obtain ⟨⟨⟩, -, hl⟩ := Checked.bind_eq_ok.1 hl
    obtain ⟨base, hbase, hl⟩ := Checked.bind_eq_ok.1 hl
    cases hl
    exact H binding base hbase

end Relation

/-! ## Sources in memory -/

namespace Source

variable {s : Source} {rows : List (List Value)} {count : Nat}

/-- A source other than a stream whose declared length is wrong. -/
def Measured (s : Source) (count : Nat) : Prop :=
  (∃ t : SortedTable, s.handle = some t.handle) ∨ ∃ stream : RowStream,
    s.handle = some stream.handle ∧ ∀ length, stream.length = some length → length = .ofNat count

theorem InMemory.announces {κ : Type} [LinearOrder κ] {R : RankedClass κ} (H : s.InMemory R rows)
    (hm : s.Measured rows.length) : s.Announces R.toValueClass rows := by
  intro h hh
  rcases H.kept with htable | ⟨stream, -, hkey, hhandle⟩
  · obtain ⟨t, hranked, rfl, hk, hhandle⟩ := htable.ranked H.all
    cases hh.symm.trans hhandle
    exact hranked.announces H.width hk (Array.length_toList ▸ H.countable)
  · rw [keyPlaces, hkey]
    rcases hm with ⟨t, ht⟩ | ⟨stream', hstream, hlength⟩
    · -- Unlike a stream, a table keeps statistics.
      cases congrArg Handle.frequency (Option.some.inj (ht.symm.trans hhandle))
    · cases hh.symm.trans hstream
      exact RowStream.announces hlength

/-- A table announces a known number of rows. -/
theorem IsTable.estimate_eq {binding : NamedValues} {v : Value} (h : s.IsTable rows)
    (hv : s.estimate binding = .ok v) : ∃ n, v = .ofNat n := by
  obtain ⟨_, _, t, -, -, -, hhandle⟩ := h
  obtain ⟨⟨lead, position⟩, -, hv⟩ := Checked.bind_eq_ok.1 hv
  obtain ⟨handle, hh, hv⟩ := Checked.bind_eq_ok.1 hv
  rw [requireHandle, hhandle] at hh
  cases hh
  obtain ⟨n, -, rfl⟩ := Checked.map_eq_ok.1 hv
  exact ⟨n, rfl⟩

namespace Serves

variable {σ κ : Type} {S : ValueClass σ} {K : ValueClass κ} {asks : Value → Prop}
  {binding : NamedValues} {t u : List Value} (H : s.Serves S asks rows)

include H

theorem carrier_valuesIn (ht : t ∈ s.tuples rows) :
    ∀ e ∈ binding.valuesIn s.columns t, e.1 ∈ s.attributes → S.carrier e.2 := by
  intro _ he hname
  obtain ⟨e, -, rfl⟩ := List.mem_map.1 he
  obtain ⟨r, hr, rfl⟩ := List.mem_map.1 ht
  obtain ⟨v, hv, hc⟩ := H.get_stored hr hname
  dsimp only
  rwa [(H.fits hr).present_attribute H.wellFormed hname, hv, Option.getD_some]

theorem int_valuesIn (ht : t ∈ s.tuples rows) :
    ∀ e ∈ binding.valuesIn s.columns t, s.position = some e.1 → ∃ n, e.2 = .int n := by
  intro _ he hp
  obtain ⟨e, -, rfl⟩ := List.mem_map.1 he
  obtain ⟨r, -, rfl⟩ := List.mem_map.1 ht
  dsimp only
  rw [H.wellFormed.present_position hp, Option.getD_some]
  exact ⟨r.1, rfl⟩

variable (hK : K.IncludesIntegers S)

include hK

/-- Two tuples that have the bound values have those of one another. -/
theorem holds_valuesIn (hb : K.Binds s.columns binding) (ht : t ∈ s.tuples rows)
    (hu : u ∈ s.tuples rows) (hht : binding.holds s.columns t = true)
    (hhu : binding.holds s.columns u = true) :
    (binding.valuesIn s.columns t).holds s.columns u = true := by
  refine NamedValues.holds_iff.2 fun _ hmem => ?_
  obtain ⟨e, he, rfl⟩ := List.mem_map.1 hmem
  have hcol := hb.attributes e.1 (List.mem_map_of_mem he)
  obtain ⟨x, hx, hcx⟩ := H.included hK hu hcol
  obtain ⟨y, hy, hcy⟩ := H.included hK ht hcol
  obtain ⟨x', hx', hxe⟩ := NamedValues.holds_iff.1 hhu e he
  obtain ⟨y', hy', hye⟩ := NamedValues.holds_iff.1 hht e he
  cases hx.symm.trans hx'
  cases hy.symm.trans hy'
  refine ⟨x, hx, ?_⟩
  dsimp only
  rw [hy, Option.getD_some, K.eq_iff hcx hcy]
  rw [K.eq_iff hcx (hb.carrier e he)] at hxe
  rw [K.eq_iff hcy (hb.carrier e he)] at hye
  exact hxe.trans hye.symm

/-- The statistics of a key bound the tuples with any values of it, be they stored or not. -/
theorem bounds_frequency (A : s.Announces S rows) (key : List Name) :
    ∃ o, s.maxFrequency key = .ok o ∧ ∀ v, o = some v →
      ∃ n, Cardinality.ofValue v = .ok (.known n) ∧ ∀ binding : NamedValues,
        K.Binds s.columns binding → (∀ name ∈ key, name ∈ binding.names) →
        (s.tuples rows).countP (binding.holds s.columns) ≤ n := by
  obtain ⟨o, ho, hcount⟩ := H.bounds_maxFrequency A key
  refine ⟨o, ho, fun v hv => ?_⟩
  obtain ⟨n, hn, hle⟩ := hcount v hv
  refine ⟨n, hn, fun binding hb hkey => ?_⟩
  by_cases hholds : ∃ t ∈ s.tuples rows, binding.holds s.columns t = true
  · -- The values of such a tuple are stored, and count the same tuples.
    obtain ⟨t, ht, hht⟩ := hholds
    refine Nat.le_trans (List.countP_mono_left fun u hu => H.holds_valuesIn hK hb ht hu hht) ?_
    refine hle (binding.valuesIn s.columns t) (H.carrier_valuesIn ht) (H.int_valuesIn ht) ?_
    rwa [NamedValues.names_valuesIn]
  · rw [List.countP_eq_zero.2 fun t ht hh => hholds ⟨t, ht, hh⟩]
    exact Nat.zero_le n

end Serves
end Source

namespace StoredRelation

/-! ## The source of a lookup -/

variable {bound : List Name} {best : Source × Option IndexMatch} {sources : List Source}
  {s : Source} {m : IndexMatch}

theorem selectAmong_match (h : selectAmong bound best sources = (s, some m)) :
    best = (s, some m) ∨ sourceMatch bound s = some m := by
  induction sources generalizing best with
  | nil => exact .inl h
  | cons source rest ih =>
    rw [selectAmong] at h
    split at h
    · exact ih h
    next hm =>
    split at h
    · cases h
      exact .inr hm
    split at h
    · rcases ih h with h | h
      · cases h
        exact .inr hm
      · exact .inr h
    · exact ih h

/-- A binding of all attributes asks the selected source for all of its key. -/
theorem selectSource_key {r : StoredRelation} {binding : NamedValues}
    (h : r.selectSource bound = (s, some m)) (hb : ∀ name ∈ bound, name ∈ binding.names) :
    ∀ name ∈ m.key, name ∈ (binding.restrict s.columns).names := by
  have hm : sourceMatch bound s = some m := (selectAmong_match h).resolve_left nofun
  obtain ⟨m', hbest, rfl⟩ := Option.map_eq_some_iff.1 hm
  intro name hn
  have hmem := (Source.bestMatch_mem hbest).2 name hn
  rw [List.mem_filter, decide_eq_true_iff] at hmem
  obtain ⟨e, he, rfl⟩ := List.mem_map.1 (hb name hmem.1)
  exact List.mem_map_of_mem (NamedValues.mem_restrict.2 ⟨he, hmem.2⟩)

/-! ## Consistent relations -/

variable {σ κ : Type} {S : ValueClass σ} {K : ValueClass κ} {r : StoredRelation}
  {rows others : List (List Value)} {asks : Value → Prop} {binding : NamedValues}

/-- A source has a tuple for each tuple of the relation with some values. -/
theorem Keeps.countP_holds_le (H : r.Keeps S K rows)
    (M : r.Mirrors S s asks rows others) (hb : ∀ name ∈ binding.names, name ∈ r.attributes)
    (hk : ∀ e ∈ binding, K.carrier e.2) : r.tuples.countP (binding.holds r.attributes) ≤
      (s.tuples others).countP ((binding.restrict s.columns).holds s.columns) := by
  obtain ⟨matched, hperm, hmatch⟩ := M.corresponds
  rw [H.tuples_eq, List.countP_map, ← hperm.countP_eq]
  refine countP_le_of_forall₂ hmatch fun t ht u hu hm hh => ?_
  exact H.holds_of_project M ht (hperm.mem_iff.1 hu) hm hb hk hh

/-- A source that can have all bound values has them in as many tuples as the relation. -/
theorem Keeps.countP_holds_eq (H : r.Keeps S K rows)
    (M : r.Mirrors S s asks rows others) (hb : ∀ name ∈ binding.names, name ∈ r.attributes)
    (hk : ∀ e ∈ binding, K.carrier e.2) (hc : ∀ name ∈ binding.names, name ∈ s.columns) :
    (s.tuples others).countP ((binding.restrict s.columns).holds s.columns) =
      r.tuples.countP (binding.holds r.attributes) := by
  refine Nat.le_antisymm ?_ (H.countP_holds_le M hb hk)
  obtain ⟨matched, hperm, hmatch⟩ := M.corresponds
  rw [H.tuples_eq, List.countP_map, ← hperm.countP_eq]
  refine countP_le_of_forall₂ hmatch.flip fun u hu t ht hm hh => ?_
  exact H.project_of_holds M ht (hperm.mem_iff.1 hu) hm hb hk hc hh

/-- The declared lengths of streams are the number of tuples. -/
def Measured (r : StoredRelation) : Prop := ∀ s ∈ r.sources, s.Measured r.tuples.length

/-- The source of a lookup is asked for integers as positions. -/
theorem Typed.position_int [LinearOrder σ] {R : RankedClass σ} (hb : r.Typed R binding)
    (hs : s ∈ r.sources) :
    ∀ e ∈ binding.restrict s.columns, s.position = some e.1 → ∃ n, e.2 = .int n :=
  fun e he hp => hb.integers e (NamedValues.mem_restrict.1 he).1 s hs hp

namespace Consistent

variable [LinearOrder σ] {R : RankedClass σ} (H : r.Consistent R rows)

include H

section

variable (hm : r.Measured)

include hm

/-- Each source announces bounds for rows that correspond to those of the primary source. -/
theorem source_announces (hs : s ∈ r.sources) : ∃ others,
    r.Mirrors R.toValueClass s (s.Locates others) rows others ∧
      s.Announces R.toValueClass others := by
  have hkeeps := H.keeps R.toValueClass.withIntegers_includes
  have hlen : r.tuples.length = rows.length := by
    rw [hkeeps.tuples_eq, List.length_map, Source.tuples, List.length_map, numbered_eq_range,
      List.length_map, List.length_range]
  obtain ⟨others, hmem, M⟩ := H.source hs
  have hmeasured := hm s hs
  rw [hlen, ← M.corresponds.length_eq] at hmeasured
  exact ⟨others, M, hmem.announces hmeasured⟩

theorem lookup_announced (hb : r.Typed R binding) : ∃ found, r.lookup binding = .ok found ∧
    found.cardinality.Bounds (r.tuples.countP (binding.holds r.attributes)) := by
  have hK := R.toValueClass.withIntegers_includes
  have hs : (r.selectSource binding.names).1 ∈ r.sources := selectSource_mem
  obtain ⟨others, M, hannounces⟩ := H.source_announces hm hs
  obtain ⟨v, size, hv, hsize, hbound⟩ := M.serves.bounds_estimate hannounces
    (admits_restrict hb.takes hs M.serves) (hb.position_int hs)
  exact ⟨_, lookup_selected hb.attributes hv hsize,
    hbound.mono ((H.keeps hK).countP_holds_le M hb.attributes (hb.included H.wellFormed hK))⟩

/-- The statistics of the selected source bound the tuples with any values of its key. -/
theorem frequency_announced (hK : K.IncludesIntegers R.toValueClass) (bound : List Name) :
    ∃ o, r.keyFrequency bound = .ok o ∧ ∀ size, o = some size →
      ∃ n, size = .known n ∧ ∀ binding, K.Binds r.attributes binding →
        (∀ name ∈ bound, name ∈ binding.names) →
        r.tuples.countP (binding.holds r.attributes) ≤ n := by
  unfold StoredRelation.keyFrequency
  split
  swap
  · exact ⟨none, rfl, fun _ h => (Option.some_ne_none _ h.symm).elim⟩
  next s key hselect =>
  have hs : s ∈ r.sources := by
    have hmem : (r.selectSource bound).1 ∈ r.sources := selectSource_mem
    rwa [hselect] at hmem
  obtain ⟨others, M, hannounces⟩ := H.source_announces hm hs
  obtain ⟨o, ho, hcount⟩ := M.serves.bounds_frequency hK hannounces key
  rw [ho, Checked.bind_ok]
  cases o with
  | none => exact ⟨none, rfl, fun _ h => (Option.some_ne_none _ h.symm).elim⟩
  | some v =>
    obtain ⟨n, hsize, hn⟩ := hcount v rfl
    refine ⟨some (.known n), by simp only [hsize]; rfl, ?_⟩
    rintro _ ⟨⟩
    refine ⟨n, rfl, fun binding hb hbound => ?_⟩
    have hrestrict : K.Binds s.columns (binding.restrict s.columns) :=
      ⟨NamedValues.names_restrict, fun e he => hb.carrier e (NamedValues.mem_restrict.1 he).1⟩
    exact Nat.le_trans ((H.keeps hK).countP_holds_le M hb.attributes hb.carrier)
      (hn _ hrestrict (selectSource_key hselect hbound))

/-- A consistent relation never announces fewer tuples than it finds. -/
theorem announces (hK : K.IncludesIntegers R.toValueClass) :
    (Relation.stored r).Announces K (r.Typed R) r.tuples where
  lookup _ hb := H.lookup_announced hm hb
  frequency bound := H.frequency_announced hm hK bound

end

end Consistent

/-! ## Relations over tables -/

section

variable (ht : ∀ s ∈ r.sources, ∃ others, s.IsTable others)

include ht

theorem measured_of_tables : r.Measured := fun s hs => by
  obtain ⟨_, htable⟩ := ht s hs
  exact .inl htable.exists_handle

/-- The sizes that are announced for tables are known. -/
theorem lookup_known (binding : NamedValues) (found : LookupResult)
    (h : r.lookup binding = .ok found) : ∃ n, found.cardinality = .known n := by
  simp only [StoredRelation.lookup, Checked.bind_eq_ok, Checked.pure_def] at h
  obtain ⟨⟨⟩, -, v, hv, size, hsize, h⟩ := h
  cases h
  have hs : (r.selectSource binding.names).1 ∈ r.sources := selectSource_mem
  obtain ⟨others, htable⟩ := ht _ hs
  obtain ⟨n, rfl⟩ := htable.estimate_eq hv
  exact ⟨n, Cardinality.ofValue_eq_known hsize⟩

end

end StoredRelation
end JoinOrder
