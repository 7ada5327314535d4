import JoinOrder.Proofs.Declared
import JoinOrder.Proofs.Numbers

/-!
# Consistent relations

The sources of a consistent relation are sorted tables or streams in memory, whose rows correspond
to those of the primary source. Whichever source a lookup uses, and whether it fetches the other
attributes by position or not, it finds the tuples of a full scan that have the bound values
(`StoredRelation.lookup_filter`).
-/

namespace JoinOrder

/-- Rows with the same codes have equal items, in another order. -/
theorem ValueClass.exists_perm_of_codes {κ : Type} {K : ValueClass κ} {xs ys : List (List Value)}
    (hx : ∀ x ∈ xs, K.All x) (hy : ∀ y ∈ ys, K.All y)
    (h : (xs.map K.codes).Perm (ys.map K.codes)) :
    ∃ ts, ts.Perm ys ∧ List.Forall₂ (fun x t => Value.eqList x t = true) xs ts := by
  obtain ⟨ts, hcodes, hperm⟩ :
      Relation.Comp (· = List.map K.codes ·) List.Perm (xs.map K.codes) ys := by
    rw [List.eq_map_comp_perm]
    exact h
  refine ⟨ts, hperm, ?_⟩
  have ht : ∀ t ∈ ts, K.All t := fun t ht => hy t (hperm.mem_iff.1 ht)
  rw [← List.forall₂_eq_eq_eq, List.forall₂_map_left_iff, List.forall₂_map_right_iff] at hcodes
  have hright := ((List.forall₂_and_left ts xs).2 ⟨ht, hcodes.flip⟩).flip
  refine ((List.forall₂_and_left xs ts).2 ⟨hx, hright⟩).imp ?_
  rintro x t ⟨hx, ht, he⟩
  exact (eqList_iff hx ht).2 he

namespace StoredRelation

variable {κ μ : Type} [LinearOrder κ] {R : RankedClass κ} {K : ValueClass μ} {r : StoredRelation}
  {s : Source} {rows others : List (List Value)} {asks : Value → Prop} {binding : NamedValues}
  {name : Name} {v : Value}

/-- Sources in memory whose rows correspond to those of the primary source, and that refer to them
by integers. -/
structure Consistent (R : RankedClass κ) (r : StoredRelation) (rows : List (List Value)) :
    Prop where
  wellFormed : r.WellFormed
  primary : r.primary.InMemory R rows
  auxiliaries : ∀ s ∈ r.auxiliaries, ∃ others, s.InMemory R others ∧
    r.Corresponds s rows others ∧ r.Refers s others

/-! ## What may be looked up -/

/-- What may be looked up under a name: a value of the class that has an order beside all values
which a source is sorted by under this name. -/
structure Takes (R : RankedClass κ) (r : StoredRelation) (name : Name) (v : Value) : Prop where
  carrier : ∀ s ∈ r.sources, name ∈ s.attributes → R.carrier v
  hasOrder : ∀ s ∈ r.sources, name ∈ s.sortKey → ∀ x, s.Stores name x → Value.HasOrder x v

/-- As a position only an integer is asked for. -/
def AsksInteger (r : StoredRelation) (name : Name) (v : Value) : Prop :=
  ∀ s ∈ r.sources, s.position = some name → ∃ n, v = .int n

/-- What the sources may be asked for under a name: as a position only an integer, which has to fit
into a word where it is that of a stream. -/
def Asks (r : StoredRelation) (name : Name) (v : Value) : Prop :=
  ∀ s ∈ r.sources, s.position = some name →
    ∃ n, v = .int n ∧ ((∃ rows, s.IsStream rows) → RowStream.Asks n)

/-- A source that a lookup by an attribute may use. -/
def MayUse (r : StoredRelation) (name : Name) (s : Source) : Prop :=
  ∃ bound : List Name, bound.Nodup ∧ (∀ name ∈ bound, name ∈ r.attributes) ∧ name ∈ bound ∧
    (r.selectSource bound).1 = s

theorem MayUse.mem (h : r.MayUse name s) : s ∈ r.sources := by
  obtain ⟨_, -, -, -, rfl⟩ := h
  exact selectSource_mem

/-- What the sources find the right rows for under a name, if a lookup by it may use them. -/
def Locates (r : StoredRelation) (name : Name) (v : Value) : Prop :=
  ∀ s, r.MayUse name s → s.position = some name → ∀ others, s.Locates others v

/-- A binding of attributes to values that may be looked up under them, which are integers where the
attributes are positions. -/
structure Typed (R : RankedClass κ) (r : StoredRelation) (binding : NamedValues) : Prop where
  attributes : ∀ name ∈ binding.names, name ∈ r.attributes
  takes : ∀ e ∈ binding, r.Takes R e.1 e.2
  integers : ∀ e ∈ binding, r.AsksInteger e.1 e.2

/-- A binding of attributes to values that may be looked up under them, and which the sources may be
asked for. -/
structure Binds (R : RankedClass κ) (r : StoredRelation) (binding : NamedValues) : Prop where
  nodup : binding.names.Nodup
  attributes : ∀ name ∈ binding.names, name ∈ r.attributes
  takes : ∀ e ∈ binding, r.Takes R e.1 e.2
  asks : ∀ e ∈ binding, r.Asks e.1 e.2

/-- A binding of attributes to values that may be looked up under them, and for which the sources
find the right rows. -/
structure BindsLocated (R : RankedClass κ) (K : ValueClass μ) (r : StoredRelation)
    (binding : NamedValues) : Prop where
  nodup : binding.names.Nodup
  attributes : ∀ name ∈ binding.names, name ∈ r.attributes
  included : ∀ e ∈ binding, K.carrier e.2
  takes : ∀ e ∈ binding, r.Takes R e.1 e.2
  locates : ∀ e ∈ binding, r.Locates e.1 e.2

theorem Asks.integer (h : r.Asks name v) : r.AsksInteger name v := fun s hs hp => by
  obtain ⟨n, hn, -⟩ := h s hs hp
  exact ⟨n, hn⟩

theorem Asks.locates (h : r.Asks name v) : r.Locates name v := by
  intro s hs hp others
  obtain ⟨n, rfl, hstream⟩ := h s hs.mem hp
  exact Source.locates_int fun hs => hstream ⟨others, hs⟩

theorem Binds.typed (hb : r.Binds R binding) : r.Typed R binding where
  attributes := hb.attributes
  takes := hb.takes
  integers e he := (hb.asks e he).integer

/-- All attributes are those of the primary source, or its position. -/
theorem Typed.included (hb : r.Typed R binding) (hw : r.WellFormed)
    (hK : K.IncludesIntegers R.toValueClass) : ∀ e ∈ binding, K.carrier e.2 := by
  intro e he
  have hcol := hw.attributes_mem e.1 (hb.attributes e.1 (List.mem_map_of_mem he))
  rw [Source.columns_eq, List.mem_append, Option.mem_toList] at hcol
  rcases hcol with hcol | hcol
  · exact hK.carrier _ ((hb.takes e he).carrier r.primary List.mem_cons_self hcol)
  · obtain ⟨n, hn⟩ := hb.integers e he r.primary List.mem_cons_self hcol
    exact hn ▸ hK.int n

theorem Binds.located (hb : r.Binds R binding) (hw : r.WellFormed)
    (hK : K.IncludesIntegers R.toValueClass) : r.BindsLocated R K binding where
  nodup := hb.nodup
  attributes := hb.attributes
  included := hb.typed.included hw hK
  takes := hb.takes
  locates e he := (hb.asks e he).locates

/-- What a source is asked for can be compared with what it is sorted by. -/
theorem admits_restrict (ht : ∀ e ∈ binding, r.Takes R e.1 e.2) (hs : s ∈ r.sources)
    (H : s.Serves R.toValueClass asks others) :
    s.Admits R.toValueClass others (binding.restrict s.columns) where
  columns := NamedValues.names_restrict
  carrier e he := (ht e (NamedValues.mem_restrict.1 he).1).carrier s hs
  compares := Source.compares_of_hasOrder H.wellFormed H.width fun e he hkey _ hrow x hx =>
    (ht e (NamedValues.mem_restrict.1 he).1).hasOrder s hs hkey x
      (H.stores hrow (Source.sortKey_subset _ hkey) hx)

/-! ## Lookups -/

theorem Consistent.keeps (H : r.Consistent R rows) (hK : K.IncludesIntegers R.toValueClass) :
    r.Keeps R.toValueClass K rows where
  wellFormed := H.wellFormed
  includes := hK
  primary := ⟨_, H.primary.serves, fun _ => H.primary.locates⟩

/-- Every source serves lookups over rows that correspond to those of the primary source. -/
theorem Consistent.source (H : r.Consistent R rows) (hs : s ∈ r.sources) :
    ∃ others, s.InMemory R others ∧ r.Mirrors R.toValueClass s (s.Locates others) rows others := by
  rcases List.mem_cons.1 hs with rfl | ha
  · refine ⟨rows, H.primary, H.primary.serves, ?_, fun hcov => ?_⟩
    · exact (H.keeps R.toValueClass.withIntegers_includes).corresponds_primary
    · rw [H.wellFormed.covers_primary] at hcov
      cases hcov
  · obtain ⟨others, hm, hcor, href⟩ := H.auxiliaries s ha
    exact ⟨others, hm, hm.serves, hcor, href⟩

/-- What the sources have belongs to a class with all integers. -/
theorem Consistent.included (H : r.Consistent R rows) (hK : K.IncludesIntegers R.toValueClass)
    (h : r.Stores name v) : K.carrier v := by
  obtain ⟨s, hs, hv⟩ := h
  obtain ⟨others, hm, -⟩ := H.source hs
  obtain ⟨-, hc | ⟨-, i, -, rfl⟩⟩ := hm.serves.of_stores hv
  · exact hK.carrier v hc
  · exact hK.int i

/-- Values of one ordered type may be looked up under all names. -/
theorem Consistent.takes (H : r.Consistent R rows) (hR : R.Total) (hv : R.carrier v) :
    r.Takes R name v where
  carrier _ _ _ := hv
  hasOrder s hs hkey x hx := by
    obtain ⟨others, hm, -⟩ := H.source hs
    obtain ⟨-, hc⟩ := hm.serves.of_stores hx
    refine hR.hasOrder (hc.resolve_right fun ⟨hp, _⟩ => ?_) hv
    exact hm.serves.wellFormed.position_not_mem hp (Source.sortKey_subset _ hkey)

/-- A lookup announces what the selected source announces, and produces its tuples. -/
theorem lookup_selected {size : Cardinality} (hb : ∀ name ∈ binding.names, name ∈ r.attributes)
    (hv : (r.selectSource binding.names).1.estimate
      (binding.restrict (r.selectSource binding.names).1.columns) = .ok v)
    (hsize : Cardinality.ofValue v = .ok size) :
    r.lookup binding = .ok ⟨size, (r.selectSource binding.names).1.isFinite,
      fun _ => r.produce (r.selectSource binding.names).1 binding⟩ := by
  simp only [StoredRelation.lookup, requireAttributes_ok hb, hv, hsize, Checked.bind_ok,
    Checked.pure_def]

/-- The source that a lookup uses is asked for values for which it finds the right rows. -/
theorem Consistent.selected_spec (H : r.Consistent R rows) (hb : r.BindsLocated R K binding)
    (hs : (r.selectSource binding.names).1 = s) : ∃ others found,
      r.Mirrors R.toValueClass s (s.Locates others) rows others ∧
      (s.scan (binding.restrict s.columns)).Yields
        ((s.tuples others).filter ((binding.restrict s.columns).holds s.columns)) ∧
      r.lookup binding = .ok found ∧ found.rows () = r.produce s binding := by
  subst hs
  have hs : (r.selectSource binding.names).1 ∈ r.sources := selectSource_mem
  obtain ⟨others, -, M⟩ := H.source hs
  have hadmits := admits_restrict hb.takes hs M.serves
  have hposition : ∀ e ∈ binding.restrict (r.selectSource binding.names).1.columns,
      (r.selectSource binding.names).1.position = some e.1 →
        (r.selectSource binding.names).1.Locates others e.2 := fun e he hp =>
    have hmem := (NamedValues.mem_restrict.1 he).1
    hb.locates e hmem _
      ⟨_, hb.nodup, hb.attributes, List.mem_map_of_mem hmem, rfl⟩ hp others
  have hscan := Source.scan_spec M.serves hadmits hposition (NamedValues.nodup_restrict hb.nodup)
  obtain ⟨v, size, hv, hsize⟩ := Source.estimate_spec M.serves hadmits hposition
  exact ⟨others, _, M, hscan, lookup_selected hb.attributes hv hsize, rfl⟩

/-- A lookup finds the tuples of the relation that have the bound values, up to equality. -/
theorem Consistent.lookup_spec (H : r.Consistent R rows) (hK : K.IncludesIntegers R.toValueClass)
    (hb : r.BindsLocated R K binding) : ∃ found out, r.lookup binding = .ok found ∧
      (found.rows ()).Yields out ∧
      (∀ x ∈ out, K.Fits r.attributes x ∧ r.StoresAll r.attributes x) ∧
      (out.map K.codes).Perm ((r.tuples.filter (binding.holds r.attributes)).map K.codes) := by
  obtain ⟨others, found, M, hscan, hl, hrows⟩ := H.selected_spec hb rfl
  obtain ⟨out, hy, hfit, hperm⟩ :=
    (H.keeps hK).produce_spec selectSource_mem M hb.attributes hb.included hscan
  exact ⟨found, out, hl, hrows ▸ hy, hfit, hperm⟩

/-- A relation without auxiliary sources finds these tuples as they are, and in their order. -/
theorem Consistent.lookup_single (H : r.Consistent R rows) (hK : K.IncludesIntegers R.toValueClass)
    (ha : r.auxiliaries = []) (hb : r.BindsLocated R K binding) : ∃ found,
      r.lookup binding = .ok found ∧
      (found.rows ()).Yields (r.tuples.filter (binding.holds r.attributes)) := by
  have hs : (r.selectSource binding.names).1 = r.primary := by
    have hmem : (r.selectSource binding.names).1 ∈ r.sources := selectSource_mem
    rwa [sources, ha, List.mem_singleton] at hmem
  obtain ⟨others, found, M, hscan, hl, hrows⟩ := H.selected_spec hb hs
  have hkeeps := H.keeps hK
  have htuples : r.primary.tuples others = r.primary.tuples rows :=
    (Source.scan_all M.serves).unique hkeeps.yields_primary
  refine ⟨found, hl, hrows ▸ hkeeps.produce_primary hb.attributes ?_⟩
  rwa [htuples] at hscan

/-- A lookup is a filter of the full scan of the primary source, whatever index it uses: it finds
the tuples with the bound values, each as often as there are such rows. -/
theorem lookup_filter (H : r.Consistent R rows) (hb : r.Binds R binding) :
    ∃ scanned found out, (r.primary.scan []).Yields scanned ∧ r.lookup binding = .ok found ∧
      (found.rows ()).Yields out ∧ ∃ tuples, tuples.Perm ((scanned.map r.project).filter
        (binding.holds r.attributes)) ∧
        List.Forall₂ (fun x t => Value.eqList x t = true) out tuples := by
  have hK := R.toValueClass.withIntegers_includes
  have hkeeps := H.keeps hK
  obtain ⟨found, out, hl, hy, hfit, hperm⟩ := H.lookup_spec hK (hb.located H.wellFormed hK)
  refine ⟨_, found, out, hkeeps.yields_primary, hl, hy, ?_⟩
  rw [← hkeeps.tuples_eq]
  exact ValueClass.exists_perm_of_codes (fun x hx => (hfit x hx).1.2)
    (fun t ht => (hkeeps.fits (List.mem_of_mem_filter ht)).2) hperm

end StoredRelation

/-! ## Edges -/

namespace Edges

def numbers (rows : List (List Int)) : List (List Value) := rows.map (·.map .int)

/-- A table of numbers that is sorted already. -/
def table (offset : Nat) (rows : List (List Int)) : SortedTable where
  sortKey := [.ofNat offset]
  rows := (numbers rows).toArray
  keys := ((numbers rows).map fun row => [row.getD offset .null]).toArray

/-- Edges, sorted by where they begin. -/
def primary : Source :=
  .ofSchema ⟨.table, [.text "a", .text "b"], some (.text "p"), [0]⟩
    (some (table 0 [[1, 2], [2, 2], [2, 3]]).handle)

/-- Where edges end, with the positions of the edges. -/
def ends : Source :=
  .ofSchema ⟨.table, [.text "b", .text "p"], none, [0]⟩
    (some (table 0 [[2, 0], [2, 1], [3, 2]]).handle)

def relation : StoredRelation :=
  ⟨.text "R", [.text "a", .text "b"], [.text "int", .text "int"], primary, [ends], []⟩

theorem all_numbers (rows : List (List Int)) :
    ∀ row ∈ numbers rows, OrderedClass.ints.toRanked.All row := by
  intro row hrow v hv
  obtain ⟨row, -, rfl⟩ := List.mem_map.1 hrow
  obtain ⟨n, -, rfl⟩ := List.mem_map.1 hv
  exact ⟨n, rfl⟩

theorem build_primary : SortedTable.build (numbers [[1, 2], [2, 2], [2, 3]]) [.ofNat 0] =
    .ok (table 0 [[1, 2], [2, 2], [2, 3]]) := rfl

theorem build_ends : SortedTable.build (numbers [[2, 0], [2, 1], [3, 2]]) [.ofNat 0] =
    .ok (table 0 [[2, 0], [2, 1], [3, 2]]) := rfl

theorem primary_inMemory :
    primary.InMemory OrderedClass.ints.toRanked (numbers [[1, 2], [2, 2], [2, 3]]) :=
  Source.inMemory_table ⟨by decide, by simp [Schema.columns], by simp, by simp⟩ (all_numbers _)
    (by simp [numbers]) (by simp [numbers]) build_primary rfl

theorem ends_inMemory :
    ends.InMemory OrderedClass.ints.toRanked (numbers [[2, 0], [2, 1], [3, 2]]) :=
  Source.inMemory_table ⟨by decide, by simp [Schema.columns], by simp, by simp⟩ (all_numbers _)
    (by simp [numbers]) (by simp [numbers]) build_ends rfl

theorem ends_corresponds : relation.Corresponds ends (numbers [[1, 2], [2, 2], [2, 3]])
    (numbers [[2, 0], [2, 1], [3, 2]]) := by
  have hname : ∀ name, relation.Uses ends name → name = .text "b" ∨ name = .text "p" := by
    rintro name ⟨hc, -⟩
    simpa [ends, Source.ofSchema, Source.columns, Schema.columns] using hc
  refine ⟨_, .refl _, .cons ?_ (.cons ?_ (.cons ?_ .nil))⟩
  all_goals
    intro name hu
    rcases hname name hu with rfl | rfl <;> exact ⟨_, _, rfl, rfl, rfl⟩

theorem relation_wellFormed : relation.WellFormed :=
  ⟨by simp [relation], by simp [relation, primary, Source.ofSchema, Source.columns,
    Schema.columns], by decide⟩

theorem relation_consistent : relation.Consistent OrderedClass.ints.toRanked
    (numbers [[1, 2], [2, 2], [2, 3]]) where
  wellFormed := relation_wellFormed
  primary := primary_inMemory
  auxiliaries s hs := by
    cases List.mem_singleton.1 hs
    exact ⟨_, ends_inMemory, ends_corresponds, StoredRelation.refers_of_integers relation_wellFormed
      (by simp [StoredRelation.sources, relation]) ends_inMemory.serves fun _ h => h⟩

theorem relation_isTable : ∀ s ∈ relation.sources, ∃ others, s.IsTable others := by
  intro s hs
  simp only [StoredRelation.sources, relation, List.mem_cons, List.not_mem_nil, or_false] at hs
  rcases hs with rfl | rfl
  · exact ⟨_, Source.isTable_ofSchema ⟨by decide, by simp [Schema.columns], by simp, by simp⟩
      build_primary rfl⟩
  · exact ⟨_, Source.isTable_ofSchema ⟨by decide, by simp [Schema.columns], by simp, by simp⟩
      build_ends rfl⟩

theorem relation_takes (name : Name) (node : Int) :
    relation.Takes OrderedClass.ints.toRanked name (.int node) :=
  relation_consistent.takes OrderedClass.ints.total_toRanked ⟨node, rfl⟩

theorem relation_binds (node : Int) :
    relation.Binds OrderedClass.ints.toRanked [(.text "b", .int node)] where
  nodup := List.nodup_singleton _
  attributes := by simp [relation]
  takes e he := by
    cases List.mem_singleton.1 he
    exact relation_takes _ node
  asks e he s hs hp := by
    cases List.mem_singleton.1 he
    exact ⟨node, rfl, fun ⟨rows, _, _, hkey, _⟩ => by
      simp only [StoredRelation.sources, relation, List.mem_cons, List.not_mem_nil, or_false] at hs
      rcases hs with rfl | rfl <;> cases hkey⟩

end Edges

/-! ## Roads -/

namespace Roads

def towns (rows : List (List String)) : List (List Value) := rows.map (·.map .text)

/-- Roads, sorted by the towns where they begin. -/
def primary : Source :=
  .ofSchema ⟨.table, [.text "a", .text "b"], some (.text "p"), [0]⟩
    (some (SortedTable.handle ⟨[.ofNat 0], (towns [["x", "y"], ["y", "y"], ["y", "z"]]).toArray,
      (towns [["x"], ["y"], ["y"]]).toArray⟩))

/-- The towns where roads end, with the positions of the roads. -/
def endings : List (List Value) :=
  [[.text "y", .int 0], [.text "y", .int 1], [.text "z", .int 2]]

def ends : Source :=
  .ofSchema ⟨.table, [.text "b", .text "p"], none, [0]⟩
    (some (SortedTable.handle ⟨[.ofNat 0], endings.toArray,
      (towns [["y"], ["y"], ["z"]]).toArray⟩))

def relation : StoredRelation :=
  ⟨.text "R", [.text "a", .text "b"], [.text "str", .text "str"], primary, [ends], []⟩

theorem primary_inMemory : primary.InMemory RankedClass.textsAndInts
    (towns [["x", "y"], ["y", "y"], ["y", "z"]]) := by
  have hschema : Schema.WellFormed ⟨.table, [.text "a", .text "b"], some (.text "p"), [0]⟩ :=
    ⟨by decide, by simp [Schema.columns], by simp, by simp⟩
  have hbuild : SortedTable.build (towns [["x", "y"], ["y", "y"], ["y", "z"]]) [.ofNat 0] =
    .ok ⟨[.ofNat 0], (towns [["x", "y"], ["y", "y"], ["y", "z"]]).toArray,
      (towns [["x"], ["y"], ["y"]]).toArray⟩ := rfl
  refine Source.inMemory_table hschema (fun row hrow v hv => ?_) (by simp [towns])
    (by simp [towns]) hbuild rfl
  obtain ⟨row, -, rfl⟩ := List.mem_map.1 hrow
  obtain ⟨t, -, rfl⟩ := List.mem_map.1 hv
  exact .inl ⟨t, rfl⟩

theorem ends_inMemory : ends.InMemory RankedClass.textsAndInts endings := by
  have hschema : Schema.WellFormed ⟨.table, [.text "b", .text "p"], none, [0]⟩ :=
    ⟨by decide, by simp [Schema.columns], by simp, by simp⟩
  have hbuild : SortedTable.build endings [.ofNat 0] =
    .ok ⟨[.ofNat 0], endings.toArray, (towns [["y"], ["y"], ["z"]]).toArray⟩ := rfl
  refine Source.inMemory_table hschema ?_ (by simp [endings]) (by simp [endings]) hbuild rfl
  simp [endings, ValueClass.All, RankedClass.textsAndInts]

theorem relation_consistent : relation.Consistent RankedClass.textsAndInts
    (towns [["x", "y"], ["y", "y"], ["y", "z"]]) where
  wellFormed := ⟨by simp [relation], by simp [relation, primary, Source.ofSchema, Source.columns,
    Schema.columns], by decide⟩
  primary := primary_inMemory
  auxiliaries s hs := by
    cases List.mem_singleton.1 hs
    refine ⟨_, ends_inMemory, ⟨_, .refl _, .cons ?_ (.cons ?_ (.cons ?_ .nil))⟩, ?_⟩
    case refine_4 =>
      rintro - p hp t ht
      cases hp
      obtain ⟨r, hr, rfl⟩ := List.mem_map.1 ht
      have hmem := mem_of_mem_numbered hr
      simp only [endings, List.mem_cons, List.not_mem_nil, or_false] at hmem
      rcases hmem with hrow | hrow | hrow
      all_goals exact ⟨_, by simp [Source.present, hrow]; rfl⟩
    all_goals
      rintro name ⟨hc, -⟩
      have hname : name = .text "b" ∨ name = .text "p" := by
        simpa [ends, Source.ofSchema, Source.columns, Schema.columns] using hc
      rcases hname with rfl | rfl <;> exact ⟨_, _, rfl, rfl, rfl⟩

theorem hasOrder_text (t u : String) : Value.HasOrder (.text t) (.text u) := by
  simp only [Value.HasOrder, Value.lt, Value.precedes]
  exact ⟨⟨_, rfl⟩, ⟨_, rfl⟩⟩

/-- Only towns are stored where roads end. They have an order beside each other, which positions
have not. -/
theorem hasOrder_ends {x : Value} {town : String} (h : ends.Stores (.text "b") x) :
    Value.HasOrder x (.text town) := by
  have hrows : (ends.scan []).Yields endings := rfl
  obtain ⟨scanned, hy, t, ht, hx⟩ := h
  cases hy.unique hrows
  simp only [endings, List.mem_cons, List.not_mem_nil, or_false] at ht
  rcases ht with rfl | rfl | rfl
  all_goals
    cases hx
    exact hasOrder_text _ _

theorem relation_binds (town : String) :
    relation.Binds RankedClass.textsAndInts [(.text "b", .text town)] where
  nodup := List.nodup_singleton _
  attributes := by simp [relation]
  takes e he := by
    cases List.mem_singleton.1 he
    refine ⟨fun _ _ _ => .inl ⟨town, rfl⟩, fun s hs hkey x hx => ?_⟩
    simp only [StoredRelation.sources, relation, List.mem_cons, List.not_mem_nil, or_false] at hs
    rcases hs with rfl | rfl
    · exact absurd hkey (by decide : Name.text "b" ∉ primary.sortKey)
    · exact hasOrder_ends hx
  asks e he s hs hp := by
    cases List.mem_singleton.1 he
    simp only [StoredRelation.sources, relation, List.mem_cons, List.not_mem_nil, or_false] at hs
    rcases hs with rfl | rfl
    · exact absurd hp (by decide : primary.position ≠ some (.text "b"))
    · exact absurd hp (by decide : ends.position ≠ some (.text "b"))

end Roads

/-- The roads that end at a town are found by their ends and fetched by position. -/
theorem StoredRelation.lookup_filter_roads :
    Roads.relation.Consistent RankedClass.textsAndInts
      (Roads.towns [["x", "y"], ["y", "y"], ["y", "z"]]) ∧
    Roads.relation.Binds RankedClass.textsAndInts [(.text "b", .text "y")] ∧
    (Roads.relation.selectSource [.text "b"]).1.columns = [.text "b", .text "p"] ∧
    ∃ found out, Roads.relation.lookup [(.text "b", .text "y")] = .ok found ∧
      (found.rows ()).Yields out ∧ out.length = 2 := by
  obtain ⟨scanned, found, out, hscanned, hl, hy, tuples, hperm, hout⟩ :=
    StoredRelation.lookup_filter Roads.relation_consistent (Roads.relation_binds "y")
  refine ⟨Roads.relation_consistent, Roads.relation_binds "y", rfl, found, out, hl, hy, ?_⟩
  have hrows : (Roads.relation.primary.scan []).Yields
      [[.text "x", .text "y", .int 0], [.text "y", .text "y", .int 1],
        [.text "y", .text "z", .int 2]] := rfl
  cases hscanned.unique hrows
  rw [hout.length_eq, hperm.length_eq]
  rfl

end JoinOrder
