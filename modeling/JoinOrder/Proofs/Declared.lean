import JoinOrder.Proofs.Binding
import JoinOrder.Proofs.InMemory
import JoinOrder.Proofs.Relation
import JoinOrder.Proofs.Schemas

/-!
# Declarations

What is declared is well-formed: sources over rows in memory, stored relations and views. Rows are
only asked to fit the declared attributes. A stored relation can be declared again from what it
exposes (`StoredRelation.Checks.redeclare`).
-/

namespace JoinOrder

/-! ## Schemas -/

namespace Schema

variable {s : Schema} {kind attributes position sorted : Value}

/-- What checking a declaration makes sure of. -/
structure WellFormed (s : Schema) : Prop where
  columns_nodup : s.columns.Nodup
  texts : ∀ name ∈ s.columns, ∃ t, name = .text t
  offsets_lt : ∀ i ∈ s.sortOffsets, i < s.attributes.length
  stream : s.kind = .stream → s.sortOffsets = []

theorem declare?_spec (h : declare? kind attributes position sorted = .ok s) :
    s.WellFormed ∧ parseKind kind = .ok s.kind ∧ s.sortOffsets.Pairwise (· < ·) := by
  rw [declare?_eq] at h
  obtain ⟨k, hk, h⟩ := Checked.bind_eq_ok.1 h
  obtain ⟨items, -, h⟩ := Checked.bind_eq_ok.1 h
  obtain ⟨names, hnames, h⟩ := Checked.bind_eq_ok.1 h
  obtain ⟨column, hcolumn, h⟩ := Checked.bind_eq_ok.1 h
  obtain ⟨hdistinct, offsets, hoffsets, hstream, rfl⟩ := complete_eq_ok.1 h
  obtain ⟨hitems, rfl⟩ := parseNames_eq_ok.1 hnames
  obtain ⟨hposition, rfl⟩ := parsePosition_eq_ok.1 hcolumn
  refine ⟨⟨hdistinct, fun name hname => ?_, hoffsets.lt, hstream⟩, hk, hoffsets.increasing⟩
  rw [columns, ← map_columnsGiven] at hname
  obtain ⟨v, hv, rfl⟩ := List.mem_map.1 hname
  exact (forall_mem_columnsGiven.2 ⟨hitems, hposition⟩ v hv).text

end Schema

/-! ## Sources -/

namespace Source

variable {κ : Type} [LinearOrder κ] {R : RankedClass κ} {s s' : Source} {schema : Schema}
  {handle : Option Handle} {rows : List (List Value)}

theorem keyPlaces_ofSchema (h : schema.WellFormed) :
    (ofSchema schema handle).keyPlaces = schema.sortOffsets := by
  have hd : schema.attributes.Nodup := (List.nodup_append.1 h.columns_nodup).1
  have hkey : ∀ offsets : List Nat, (∀ i ∈ offsets, i < schema.attributes.length) →
      (offsets.filterMap (schema.attributes[·]?)).map (schema.attributes.idxOf ·) = offsets := by
    intro offsets hlt
    induction offsets with
    | nil => rfl
    | cons i offsets ih =>
      rw [List.forall_mem_cons] at hlt
      rw [List.filterMap_cons_some (List.getElem?_eq_getElem hlt.1), List.map_cons, ih hlt.2,
        hd.idxOf_getElem]
  exact hkey _ h.offsets_lt

/-- Sources as they are made: from a declaration, or as a view of another source. -/
inductive Declared : Source → Prop
  | schema {kind attributes position sorted : Value} {schema : Schema} (handle : Option Handle)
      (h : Schema.declare? kind attributes position sorted = .ok schema) :
      Declared (ofSchema schema handle)
  | view {s v : Source} {order : List Name} (H : Declared s) (h : s.reordered order = .ok v) :
      Declared v

theorem declared_of_declare {kind attributes position sorted : Value}
    (h : declare? kind handle attributes position sorted = .ok s) : s.Declared := by
  obtain ⟨schema, hs, h⟩ := Checked.bind_eq_ok.1 h
  cases h
  exact .schema handle hs

theorem declared_of_table {given attributes position sorted : Value}
    (h : ofTable? given attributes position sorted = .ok s) : s.Declared := by
  obtain ⟨schema, hs, h⟩ := Checked.bind_eq_ok.1 h
  obtain ⟨items, -, h⟩ := Checked.bind_eq_ok.1 h
  obtain ⟨given, -, h⟩ := Checked.bind_eq_ok.1 h
  obtain ⟨t, -, h⟩ := Checked.bind_eq_ok.1 h
  cases h
  exact .schema _ hs

theorem declared_of_stream {given length attributes position : Value}
    (h : ofStream? given length attributes position = .ok s) : s.Declared := by
  obtain ⟨schema, hs, h⟩ := Checked.bind_eq_ok.1 h
  cases h
  exact .schema _ hs

theorem Declared.wellFormed (H : s.Declared) : s.WellFormed := by
  induction H with
  | schema handle h => exact ⟨(Schema.declare?_spec h).1.columns_nodup, .refl _⟩
  | view _ h ih => exact wellFormed_reordered h ih

/-- The sort key has its attributes in their order, and so each of them once. -/
theorem Declared.sortKey_sublist (H : s.Declared) : s.sortKey.Sublist s.attributes := by
  cases H with
  | @schema _ _ _ _ schema handle h =>
    obtain ⟨hs, -, hincreasing⟩ := Schema.declare?_spec h
    have hplaces : (ofSchema schema handle).keyPlaces = schema.sortOffsets := keyPlaces_ofSchema hs
    have hsub : ∀ name ∈ (ofSchema schema handle).sortKey, name ∈ schema.attributes :=
      sortKey_subset
    refine (increasing_idxOf_iff (List.nodup_append.1 hs.columns_nodup).1 hsub).1
      (strictlyIncreasing_iff.2 ?_)
    exact Eq.subst (motive := List.Pairwise (· < ·)) hplaces.symm hincreasing
  | view H h =>
    rw [sortKey_reordered h, attributes_reordered h]
    exact ((exists_reordered_iff H.wellFormed).1 ⟨_, h⟩).2

/-- Columns go by texts. -/
theorem Declared.texts (H : s.Declared) : ∀ name ∈ s.columns, ∃ t, name = .text t := by
  induction H with
  | schema handle h => exact (Schema.declare?_spec h).1.texts
  | view _ h ih => exact fun name hn => ih name ((mem_columns_reordered h).1 hn)

/-- A table is bisected by the declared sort key. -/
theorem keyAt_offsets {width : Nat} {offsets : List Nat} (h : ∀ i ∈ offsets, i < width) :
    SortedTable.KeyAt width (offsets.map Value.ofNat) offsets := by
  rw [SortedTable.KeyAt, List.take_of_length_le (by rw [List.length_map]),
    List.forall₂_map_right_iff, List.forall₂_same]
  intro i hi
  have hn : ¬(i : Int) < 0 := by omega
  have hlt := h i hi
  simp [Value.ofNat, Value.integer?, Value.number?, resolveOffset, hn, hlt]

theorem isTable_ofSchema (hs : schema.WellFormed) {given : List (List Value)} {t : SortedTable}
    (h : SortedTable.build given (schema.sortOffsets.map Value.ofNat) = .ok t)
    (ht : t.rows.toList = rows) : (ofSchema schema (some t.handle)).IsTable rows := by
  refine ⟨given, _, t, h, ht, ?_, rfl⟩
  rw [keyPlaces_ofSchema hs]
  exact keyAt_offsets hs.offsets_lt

section

variable (hs : schema.WellFormed) (hr : ∀ row ∈ rows, R.All row)
  (hw : ∀ row ∈ rows, row.length = schema.attributes.length) (hc : rows.length < 2 ^ 63)

include hs hr hw hc

theorem inMemory_table {given : List (List Value)} {t : SortedTable}
    (h : SortedTable.build given (schema.sortOffsets.map Value.ofNat) = .ok t)
    (ht : t.rows.toList = rows) : (ofSchema schema (some t.handle)).InMemory R rows where
  columns_nodup := hs.columns_nodup
  stored_perm := .refl _
  width := hw
  all := hr
  countable := hc
  kept := .inl (isTable_ofSchema hs h ht)

theorem inMemory_stream {stream : RowStream} (h : stream.IsOver rows)
    (hk : schema.sortOffsets = []) : (ofSchema schema (some stream.handle)).InMemory R rows where
  columns_nodup := hs.columns_nodup
  stored_perm := .refl _
  width := hw
  all := hr
  countable := hc
  kept := .inr ⟨stream, h, by
    rw [sortKey, Schema.sortKey]
    exact hk ▸ rfl, rfl⟩

end

/-- A declared table holds the given rows in the order of its sort key. -/
theorem ofTable?_inMemory {given attributes position sorted : Value}
    (h : ofTable? given attributes position sorted = .ok s)
    (hg : (do (← given.elements).mapM Value.elements) = .ok rows)
    (hr : ∀ row ∈ rows, R.All row) (hw : ∀ row ∈ rows, row.length = s.attributes.length)
    (hc : rows.length < 2 ^ 63) : ∃ stored, stored.Perm rows ∧ s.InMemory R stored := by
  obtain ⟨schema, hs, h⟩ := Checked.bind_eq_ok.1 h
  obtain ⟨items, hi, h⟩ := Checked.bind_eq_ok.1 h
  obtain ⟨rows', hr', h⟩ := Checked.bind_eq_ok.1 h
  obtain ⟨t, ht, h⟩ := Checked.bind_eq_ok.1 h
  cases h
  rw [hi, Checked.bind_ok, hr'] at hg
  cases hg
  have hperm := SortedTable.build_perm ht
  refine ⟨t.rows.toList, hperm, inMemory_table (Schema.declare?_spec hs).1 ?_ ?_ ?_ ht rfl⟩
  · exact fun row hrow => hr row (hperm.mem_iff.1 hrow)
  · exact fun row hrow => hw row (hperm.mem_iff.1 hrow)
  · exact hperm.length_eq ▸ hc

/-- A declared stream has the given rows, as long as its length is a number if it is given. -/
theorem ofStream?_inMemory {given length attributes position : Value}
    (h : ofStream? given length attributes position = .ok s)
    (hg : (do (← given.elements).mapM Value.elements) = .ok rows)
    (hl : length = .null ∨ ∃ n, length = .int n) (hr : ∀ row ∈ rows, R.All row)
    (hw : ∀ row ∈ rows, row.length = s.attributes.length) (hc : rows.length < 2 ^ 63) :
    s.InMemory R rows := by
  obtain ⟨schema, hs, h⟩ := Checked.bind_eq_ok.1 h
  cases h
  obtain ⟨hschema, hkind, -⟩ := Schema.declare?_spec hs
  obtain ⟨items, hi, hg⟩ := Checked.bind_eq_ok.1 hg
  refine inMemory_stream hschema hr hw hc ⟨⟨items, hi, hg⟩, ?_⟩ (hschema.stream ?_)
  · rcases hl with rfl | ⟨n, rfl⟩
    · nofun
    · rintro _ ⟨⟩
      exact ⟨n, rfl⟩
  · exact (Except.ok.inj hkind).symm

/-- Another order of the attributes is another view of the same rows. -/
theorem reordered_inMemory {attributes : List Name} (h : s.reordered attributes = .ok s')
    (H : s.InMemory R rows) : s'.InMemory R rows := by
  obtain ⟨hcolumns, hstored⟩ := wellFormed_reordered h ⟨H.columns_nodup, H.stored_perm⟩
  refine ⟨hcolumns, hstored, stored_reordered h ▸ H.width, H.all, H.countable, ?_⟩
  rw [IsTable, IsStream, keyPlaces, stored_reordered h, handle_reordered h, sortKey_reordered h]
  exact H.kept

end Source

/-! ## Constraints -/

namespace Value

theorem toName_eq_text {v : Value} {t : String} (h : v.toName = .text t) : v = .text t := by
  unfold toName at h
  split at h
  · cases h
    rfl
  · cases h

theorem map_toName_ofName {names : List Name} (h : ∀ name ∈ names, ∃ t, name = .text t) :
    names.map (toName ∘ ofName) = names := by
  refine (List.map_congr_left fun name hn => ?_).trans (List.map_id names)
  obtain ⟨t, rfl⟩ := h name hn
  rfl

theorem eq_text_of_same {v : Value} {t : String} (h : same (.text t) v = true) : v = .text t := by
  cases v <;> simp_all [same, isOne, eq]

section

variable {found xs : List Value} {x y z : Value}

/-- One step of collecting distinct values. -/
def keep (found : List Value) (x : Value) : List Value :=
  if found.any (same · x) then found else x :: found

theorem mem_keep_iff : y ∈ keep found z ↔ y ∈ found ∨ y = z ∧ found.any (same · z) = false := by
  unfold keep
  split
  · next h => simp [h]
  · next h => simp [h, or_comm]

theorem mem_foldl_keep (h : x ∈ found) : x ∈ xs.foldl keep found := by
  induction xs generalizing found with
  | nil => exact h
  | cons z xs ih => exact ih (mem_keep_iff.2 (.inl h))

theorem of_mem_foldl_keep (h : y ∈ xs.foldl keep found) : y ∈ found ∨ y ∈ xs := by
  induction xs generalizing found with
  | nil => exact .inl h
  | cons z xs ih =>
    rcases ih h with hf | hx
    · rcases mem_keep_iff.1 hf with hf | ⟨rfl, -⟩
      · exact .inl hf
      · exact .inr List.mem_cons_self
    · exact .inr (List.mem_cons_of_mem z hx)

theorem exists_foldl_keep (h : x ∈ xs) : ∃ y ∈ xs.foldl keep found, y = x ∨ y.same x = true := by
  induction xs generalizing found with
  | nil => cases h
  | cons z xs ih =>
    rw [List.foldl_cons]
    rcases List.mem_cons.1 h with rfl | h
    · by_cases hany : found.any (same · x) = true
      · obtain ⟨y, hy, hsame⟩ := List.any_eq_true.1 hany
        exact ⟨y, mem_foldl_keep (mem_keep_iff.2 (.inl hy)), .inr hsame⟩
      · refine ⟨x, mem_foldl_keep (mem_keep_iff.2 (.inr ⟨rfl, ?_⟩)), .inl rfl⟩
        exact Bool.eq_false_iff.2 hany
    · exact ih h

end

theorem mem_of_mem_distinct {xs : List Value} {y : Value} (h : y ∈ distinct xs) : y ∈ xs :=
  (of_mem_foldl_keep (List.mem_reverse.1 h)).resolve_left List.not_mem_nil

/-- Each value is kept, or one that is the same. -/
theorem exists_distinct {xs : List Value} {x : Value} (h : x ∈ xs) :
    ∃ y ∈ distinct xs, y = x ∨ y.same x = true := by
  obtain ⟨y, hy, hsame⟩ := @exists_foldl_keep [] xs x h
  exact ⟨y, List.mem_reverse.2 hy, hsame⟩

end Value

namespace DegreeConstraint

variable {c : DegreeConstraint} {attributes : List Name}

/-- The constraint as it is declared. -/
def draft (c : DegreeConstraint) : ConstraintDraft :=
  ⟨c.lower, c.upper, c.domain.map .ofName, c.range.map .ofName⟩

/-- A constraint on some attributes, which go in order. -/
structure Over (attributes : List Name) (c : DegreeConstraint) : Prop where
  domain : c.domain.Pairwise (· < ·)
  range : c.range.Pairwise (· < ·)
  mem : ∀ name ∈ c.domain ++ c.range, name ∈ attributes

/-- A constraint that a relation accepts is one on its attributes. -/
theorem over_of_parse {d : ConstraintDraft} (ht : ∀ name ∈ attributes, ∃ t, name = .text t)
    (h : StoredRelation.parseConstraint attributes d = .ok c) : c.Over attributes := by
  unfold StoredRelation.parseConstraint at h
  dsimp only at h
  by_cases hforeign : (d.foreign attributes).isEmpty
  · rw [hforeign] at h
    cases h
    have hmem : ∀ v ∈ d.domain ++ d.range, v.toName ∈ attributes := fun v hv => by
      obtain ⟨w, hw, hsame⟩ := Value.exists_distinct hv
      have hname : w.toName ∈ attributes := by
        have hnil := List.filter_eq_nil_iff.1 (List.isEmpty_iff.1 hforeign) w hw
        simpa using hnil
      rcases hsame with rfl | hsame
      · exact hname
      · obtain ⟨t, htext⟩ := ht _ hname
        obtain rfl := Value.toName_eq_text htext
        obtain rfl := Value.eq_text_of_same hsame
        exact hname
    refine ⟨NameSet.pairwise_ofList, NameSet.pairwise_ofList, fun name hn => ?_⟩
    have hn : name ∈ (d.domain ++ d.range).map Value.toName := by
      rw [List.map_append, List.mem_append]
      exact (List.mem_append.1 hn).imp NameSet.mem_ofList.1 NameSet.mem_ofList.1
    obtain ⟨v, hv, rfl⟩ := List.mem_map.1 hn
    exact hmem v hv
  · rw [Bool.eq_false_iff.2 hforeign] at h
    obtain ⟨faulty, -, h⟩ := Checked.bind_eq_ok.1 h
    cases h

/-- A constraint on the attributes of a relation is accepted as it is. -/
theorem parse_draft (ht : ∀ name ∈ attributes, ∃ t, name = .text t) (H : c.Over attributes) :
    StoredRelation.parseConstraint attributes c.draft = .ok c := by
  have htexts : ∀ name ∈ c.domain ++ c.range, ∃ t, name = .text t := fun name hn =>
    ht name (H.mem name hn)
  have hforeign : c.draft.foreign attributes = [] := by
    rw [ConstraintDraft.foreign, List.filter_eq_nil_iff]
    intro v hv
    have hv := Value.mem_of_mem_distinct hv
    rw [draft, ← List.map_append] at hv
    obtain ⟨name, hn, rfl⟩ := List.mem_map.1 hv
    obtain ⟨t, rfl⟩ := htexts name hn
    exact fun hnot => of_decide_eq_true hnot (H.mem _ hn)
  have hresolve : c.draft.resolve = c := by
    rw [List.forall_mem_append] at htexts
    rw [ConstraintDraft.resolve, draft, List.map_map, List.map_map,
      Value.map_toName_ofName htexts.1, Value.map_toName_ofName htexts.2,
      NameSet.ofList_eq_self H.domain, NameSet.ofList_eq_self H.range]
  rw [StoredRelation.parseConstraint, hforeign, hresolve]
  rfl

end DegreeConstraint

/-! ## Relations -/

namespace StoredRelation

/-- Texts that have been found to be different are. -/
theorem nodup_of_firstRepeatedKey {seen names : List Value}
    (h : firstRepeatedKey seen names = .ok none) (ht : ∀ v ∈ names, ∃ t, v = .text t) :
    (names.map Value.toName).Nodup ∧ ∀ v ∈ names, v ∉ seen := by
  induction names generalizing seen with
  | nil => exact ⟨List.nodup_nil, nofun⟩
  | cons v rest ih =>
    rw [List.forall_mem_cons] at ht
    obtain ⟨t, rfl⟩ := ht.1
    obtain ⟨⟨⟩, -, h⟩ := Checked.bind_eq_ok.1 h
    split at h
    · cases h
    next hs =>
    obtain ⟨⟨⟩, -, h⟩ := Checked.bind_eq_ok.1 h
    obtain ⟨hd, hseen⟩ := ih h ht.2
    rw [List.map_cons, List.nodup_cons, List.forall_mem_cons]
    refine ⟨⟨fun hm => ?_, hd⟩, fun hm => hs ?_, fun w hw hm =>
      hseen w hw (List.mem_cons_of_mem _ hm)⟩
    · obtain ⟨w, hw, hname⟩ := List.mem_map.1 hm
      exact hseen w hw (Value.toName_eq_text hname ▸ List.mem_cons_self)
    · exact List.any_eq_true.2 ⟨_, hm, by simp [Value.same, Value.isOne, Value.eq]⟩

/-- Different texts are found to be different. -/
theorem firstRepeatedKey_texts {seen names : List Name} (h : (seen ++ names).Nodup)
    (ht : ∀ name ∈ seen ++ names, ∃ t, name = .text t) :
    firstRepeatedKey (seen.map .ofName) (names.map .ofName) = .ok none := by
  induction names generalizing seen with
  | nil => rfl
  | cons name rest ih =>
    have hmoved : (seen ++ name :: rest).Perm ((name :: seen) ++ rest) := List.perm_middle
    have hnot : name ∉ seen := fun hm =>
      (List.nodup_append.1 h).2.2 name hm name List.mem_cons_self rfl
    obtain ⟨t, rfl⟩ := ht name (by simp)
    have hseen : (seen.map Value.ofName).any (Value.same · (.ofName (.text t))) = false := by
      rw [List.any_eq_false]
      intro v hv hsame
      obtain ⟨other, ho, rfl⟩ := List.mem_map.1 hv
      obtain ⟨t', rfl⟩ := ht other (List.mem_append_left _ ho)
      cases Value.eq_text_of_same hsame
      exact hnot ho
    rw [List.map_cons, firstRepeatedKey]
    have hrest := ih (hmoved.nodup_iff.1 h) fun name hn => ht name (hmoved.mem_iff.2 hn)
    simp only [hseen, Bool.false_eq_true, if_false]
    exact hrest

/-- What is checked of a declared relation. -/
structure Checks (r : StoredRelation) : Prop extends r.WellFormed where
  typed : r.attributes.length = r.types.length
  texts : ∀ name ∈ r.attributes, ∃ t, name = .text t
  closed : ∀ c ∈ r.constraints, c.Over r.attributes

/-- A declared relation has been checked, if the columns of its sources go by texts. -/
theorem declare?_spec {name : Value} {attributes types : List Value} {sources : List Source}
    {constraints : List ConstraintDraft} {r : StoredRelation}
    (h : declare? name attributes types sources constraints = .ok r)
    (ht : ∀ s ∈ sources, ∀ name ∈ s.columns, ∃ t, name = .text t) :
    r.Checks ∧ r.sources = sources := by
  unfold declare? at h
  rw [Checked.guard_eq_ok] at h
  obtain ⟨htyped, h⟩ := h
  obtain ⟨repeated, hrepeat, h⟩ := Checked.bind_eq_ok.1 h
  cases repeated with
  | some _ => cases h
  | none =>
  cases sources with
  | nil => cases h
  | cons primary auxiliaries =>
  simp only [Checked.guard_eq_ok, Bool.not_eq_true', Bool.not_eq_false, List.isEmpty_iff,
    List.filter_eq_nil_iff, decide_eq_true_eq, not_not] at h
  obtain ⟨hmem, h⟩ := h
  have htexts : ∀ v ∈ attributes, ∃ t, v = .text t := fun v hv => by
    obtain ⟨t, hname⟩ := ht primary List.mem_cons_self _ (hmem v hv)
    exact ⟨t, Value.toName_eq_text hname⟩
  have hnames : ∀ name ∈ attributes.map Value.toName, ∃ t, name = .text t := fun name hname => by
    obtain ⟨v, hv, rfl⟩ := List.mem_map.1 hname
    obtain ⟨t, rfl⟩ := htexts v hv
    exact ⟨t, rfl⟩
  split at h
  · cases h
  next hfind =>
  obtain ⟨constraints', hconstraints, h⟩ := Checked.bind_eq_ok.1 h
  cases h
  refine ⟨⟨⟨?_, fun name hname => ?_, fun s hs => ?_⟩, ?_, hnames, fun c hc => ?_⟩, rfl⟩
  · exact (nodup_of_firstRepeatedKey hrepeat htexts).1
  · obtain ⟨v, hv, rfl⟩ := List.mem_map.1 hname
    exact hmem v hv
  · simpa using List.find?_eq_none.1 hfind s hs
  · rw [List.length_map]
    exact not_not.1 htyped
  · obtain ⟨draft, -, hdraft⟩ := Checked.exists_of_mem_mapM hconstraints hc
    exact DegreeConstraint.over_of_parse hnames hdraft

/-- A declared relation is well-formed, if the columns of its sources go by texts. -/
theorem declare?_wellFormed {name : Value} {attributes types : List Value} {sources : List Source}
    {constraints : List ConstraintDraft} {r : StoredRelation}
    (h : declare? name attributes types sources constraints = .ok r)
    (ht : ∀ s ∈ sources, ∀ name ∈ s.columns, ∃ t, name = .text t) : r.WellFormed :=
  (declare?_spec h ht).1.toWellFormed

/-- A relation that has been checked can be declared from what it exposes. -/
theorem Checks.redeclare {r : StoredRelation} (H : r.Checks) :
    declare? r.name (r.attributes.map .ofName) r.types r.sources (r.constraints.map (·.draft)) =
      .ok r := by
  have hback : (r.attributes.map Value.ofName).map Value.toName = r.attributes := by
    rw [List.map_map]
    exact Value.map_toName_ofName H.texts
  have htyped : ¬(r.attributes.map Value.ofName).length ≠ r.types.length := by
    rw [List.length_map]
    exact not_not.2 H.typed
  have hrepeat : firstRepeatedKey [] (r.attributes.map .ofName) = .ok none :=
    @firstRepeatedKey_texts [] r.attributes H.attributes_nodup H.texts
  have hmissing : (r.attributes.map Value.ofName).filter
      (fun x => x.toName ∉ r.primary.columns) = [] := by
    rw [List.filter_eq_nil_iff]
    intro v hv
    have hn : v.toName ∈ r.attributes := hback ▸ List.mem_map_of_mem hv
    simpa using H.attributes_mem _ hn
  have husable : r.auxiliaries.find? (!isUsable r.attributes r.primary ·) = none :=
    List.find?_eq_none.2 fun s hs => by simpa using H.usable s hs
  have hconstraints : (r.constraints.map (·.draft)).mapM (parseConstraint r.attributes) =
      .ok r.constraints := by
    rw [List.mapM_map, Checked.mapM_of_forall (g := id), List.map_id]
    exact fun c hc => DegreeConstraint.parse_draft H.texts (H.closed c hc)
  unfold declare?
  rw [if_neg htyped]
  simp only [sources, hrepeat, hmissing, hback, husable, hconstraints, List.isEmpty_nil,
    Bool.not_true, Bool.false_eq_true, if_false, Checked.pure_def, Checked.bind_ok]

end StoredRelation

/-- A declared view has the attributes of its relation. -/
theorem ReorderedView.declare?_perm {base : StoredRelation} {attributes : List Name}
    {v : ReorderedView} (h : declare? base attributes = .ok v) :
    v.attributes.Perm v.base.attributes := by
  unfold declare? at h
  split at h
  · next hperm =>
    cases h
    rw [Bool.and_eq_true, List.isPerm_iff] at hperm
    exact hperm.1
  · cases h

end JoinOrder
