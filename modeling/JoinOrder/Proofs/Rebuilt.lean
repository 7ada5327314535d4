import JoinOrder.Proofs.AccessPath
import JoinOrder.Proofs.Declared
import JoinOrder.Proofs.Relation

/-!
# Relations rebuilt from views

A view exposes the sources of its relation, arranged in its own order. A relation that is declared
over these sources answers as the view does (`Relation.rebuilt_faithful`): it uses the
corresponding source for each lookup, and where the view rearranges the tuples of the relation, the
rebuilt relation reads rearranged tuples of the sources. For this the stored rows must have exactly
one value for each attribute.
-/

namespace JoinOrder

/-- A relation that is declared from what another one exposes. -/
def Relation.rebuild? (r : Relation) : Checked StoredRelation := do
  StoredRelation.declare? r.name (r.attributes.map .ofName) r.types (← r.sources)
    (r.constraints.map (·.draft))

/-! ## Rearranged tuples -/

namespace Source

variable {columns others : List Name} {t : List Value} {name : Name} {s v : Source}
  {binding : NamedValues}

theorem rearrange_length : (rearrange columns others t).length = others.length := List.length_map ..

theorem rearrange_self (hd : columns.Nodup) (ht : t.length = columns.length) :
    rearrange columns columns t = t := by
  refine List.ext_getElem (rearrange_length.trans ht.symm) fun i hi hi' => ?_
  simp only [rearrange, List.getElem_map]
  rw [hd.idxOf_getElem, List.getD_eq_getElem?_getD, List.getElem?_eq_getElem hi', Option.getD_some]

/-- The names keep their values. -/
theorem lookup_zip_rearrange (ht : t.length = columns.length)
    (hmem : ∀ name, name ∈ others ↔ name ∈ columns) (name : Name) :
    List.lookup name (others.zip (rearrange columns others t)) =
      List.lookup name (columns.zip t) := by
  by_cases hn : name ∈ columns
  · have hi : columns.idxOf name < t.length := ht ▸ List.idxOf_lt_length_iff.2 hn
    have ho := (hmem name).2 hn
    rw [NamedValues.lookup_zip ho, NamedValues.lookup_zip hn, rearrange_get ho hi]
  · rw [NamedValues.lookup_zip_eq_none hn, NamedValues.lookup_zip_eq_none (mt (hmem name).1 hn)]

/-- Each row that the handle selects has one value for each attribute. -/
def Regular (s : Source) : Prop :=
  ∀ handle, s.handle = some handle → ∀ lead position, (handle.scan lead position).Each s.Fits

/-- Scanned tuples have a value for each column. -/
theorem Regular.scan_length (hf : s.Regular) (W : s.WellFormed) (hn : binding.names.Nodup)
    (hb : ∀ name ∈ binding.names, name ∈ s.columns) :
    (s.scan binding).Each fun t => t.length = s.columns.length := by
  rw [scan]
  cases s.searchTerms binding with
  | error fault => trivial
  | ok terms =>
    cases hh : s.handle with
    | none =>
      rw [requireHandle, hh]
      trivial
    | some handle =>
      rw [requireHandle, hh]
      refine (hf handle hh terms.1 terms.2).filterMap fun r hr t ht => ?_
      have hrow := (checked_row W hr hn hb).symm.trans ht
      split at hrow
      · cases hrow
        exact present_length
      · cases hrow

/-! ## Sources that answer for others -/

/-- What a lookup asks of the one source before it reads tuples is answered as by the other. -/
structure Resembles (v s : Source) : Prop where
  columns : ∀ name, name ∈ v.columns ↔ name ∈ s.columns
  position : v.position = s.position
  bestMatch : ∀ bound, v.bestMatch bound = s.bestMatch bound
  maxFrequency : ∀ key, v.maxFrequency key = s.maxFrequency key
  estimate : ∀ binding : NamedValues, (∀ name ∈ binding.names, name ∈ s.columns) →
    v.estimate binding = s.estimate binding
  isFinite : v.isFinite = s.isFinite

theorem Resembles.refl (s : Source) : s.Resembles s where
  columns _ := .rfl
  position := rfl
  bestMatch _ := rfl
  maxFrequency _ := rfl
  estimate _ _ := rfl
  isFinite := rfl

theorem resembles_reordered {order : List Name} (h : s.reordered order = .ok v) :
    v.Resembles s where
  columns _ := mem_columns_reordered h
  position := position_reordered h
  bestMatch := bestMatch_reordered h
  maxFrequency := maxFrequency_reordered h
  estimate _ := estimate_reordered h
  isFinite := by
    obtain ⟨-, -, rfl⟩ := reordered_eq_ok.1 h
    rfl

section

variable (H : v.Resembles s)

include H

theorem Resembles.covers (names : List Name) :
    NameSet.covers v.columns names = NameSet.covers s.columns names := by
  rw [Bool.eq_iff_iff, StoredRelation.covers_iff, StoredRelation.covers_iff]
  exact forall₂_congr fun name _ => H.columns name

theorem Resembles.restrict (b : NamedValues) : b.restrict v.columns = b.restrict s.columns :=
  List.filter_congr fun e _ => decide_eq_decide.2 (H.columns e.1)

theorem Resembles.sourceMatch (bound : List Name) :
    StoredRelation.sourceMatch bound v = StoredRelation.sourceMatch bound s := by
  have hshared : bound.filter (· ∈ v.columns) = bound.filter (· ∈ s.columns) := by
    simp only [H.columns]
  rw [StoredRelation.sourceMatch, StoredRelation.sourceMatch, hshared, H.bestMatch]

end

end Source

/-! ## The sources of a view -/

namespace ReorderedView

variable {v : ReorderedView} {s : Source} {bound : List Name} {binding : NamedValues}
  {t : List Value}

/-- A source as the view exposes it. -/
def arranged (v : ReorderedView) (s : Source) : Source :=
  let order := v.sourceOrder s
  let sortOffsets := s.sortKey.map (order.idxOf ·)
  if strictlyIncreasing sortOffsets then
    { s with schema := { s.schema with attributes := order, sortOffsets } }
  else s

/-- The relation over the sources that the view exposes. -/
def rebuilt (v : ReorderedView) : StoredRelation where
  name := v.base.name
  attributes := v.attributes
  types := v.types
  primary := v.arranged v.base.primary
  auxiliaries := v.base.auxiliaries.map v.arranged
  constraints := v.base.constraints

@[simp] theorem attributes_rebuilt : v.rebuilt.attributes = v.attributes := rfl

@[simp] theorem primary_rebuilt : v.rebuilt.primary = v.arranged v.base.primary := rfl

theorem sourceOrder_perm (hv : v.attributes.Nodup) (hs : s.attributes.Nodup) :
    (v.sourceOrder s).Perm s.attributes := by
  have hshown : (v.attributes.filter (· ∈ s.attributes)).Nodup := hv.filter _
  have hmem : ∀ name, name ∈ v.sourceOrder s ↔ name ∈ s.attributes := by
    intro name
    simp only [sourceOrder, List.mem_append, List.mem_filter, decide_eq_true_eq]
    tauto
  have hnodup : (v.sourceOrder s).Nodup := by
    refine List.nodup_append.2 ⟨hshown, hs.filter _, fun a ha b hb heq => ?_⟩
    have hnot := (List.mem_filter.1 hb).2
    exact of_decide_eq_true hnot (heq ▸ ha)
  exact (List.perm_ext_iff_of_nodup hnodup hs).2 hmem

section

variable (hv : v.attributes.Nodup) (W : s.WellFormed)

include hv W

theorem arranged_cases :
    v.arranged s = s ∨ s.reordered (v.sourceOrder s) = .ok (v.arranged s) := by
  by_cases hi : strictlyIncreasing (s.sortKey.map ((v.sourceOrder s).idxOf ·)) = true
  · right
    rw [Source.reordered_eq_ok]
    exact ⟨sourceOrder_perm hv W.attributes_nodup, hi, if_pos hi⟩
  · exact .inl (if_neg hi)

/-- Every source can be arranged. -/
theorem arrangeSource_eq : v.arrangeSource s = .ok (v.arranged s) := by
  by_cases hi : strictlyIncreasing (s.sortKey.map ((v.sourceOrder s).idxOf ·)) = true
  · rw [arrangeSource, if_pos hi, Source.reordered_eq_ok]
    exact ⟨sourceOrder_perm hv W.attributes_nodup, hi, if_pos hi⟩
  · rw [arrangeSource, if_neg hi, arranged, if_neg hi]

theorem wellFormed_arranged : (v.arranged s).WellFormed := by
  rcases arranged_cases hv W with h | h
  · exact h.symm ▸ W
  · exact Source.wellFormed_reordered h W

theorem resembles_arranged : (v.arranged s).Resembles s := by
  rcases arranged_cases hv W with h | h
  · exact h.symm ▸ .refl s
  · exact Source.resembles_reordered h

theorem scan_arranged (hf : s.Regular) (hn : binding.names.Nodup)
    (hb : ∀ name ∈ binding.names, name ∈ s.columns) :
    (v.arranged s).scan binding =
      (s.scan binding).map fun t =>
        .ok (Source.rearrange s.columns (v.arranged s).columns t) := by
  rcases arranged_cases hv W with h | h
  · rw [h]
    exact ((hf.scan_length W hn hb).map_eq_self fun t ht =>
      Source.rearrange_self W.columns_nodup ht).symm
  · exact Source.scan_reordered h W hf hn hb

end

section

variable (H : v.base.WellFormed) (hv : v.attributes.Perm v.base.attributes)
  (W : ∀ s ∈ v.base.sources, s.WellFormed)

include H hv W

theorem resembles (hs : s ∈ v.base.sources) : (v.arranged s).Resembles s :=
  resembles_arranged (hv.nodup_iff.2 H.attributes_nodup) (W s hs)

/-- Whether a source has all attributes does not depend on the order. -/
theorem covers_arranged (hs : s ∈ v.base.sources) :
    NameSet.covers (v.arranged s).columns v.attributes =
      NameSet.covers s.columns v.base.attributes := by
  rw [(resembles H hv W hs).covers, Bool.eq_iff_iff, StoredRelation.covers_iff,
    StoredRelation.covers_iff]
  exact ⟨fun h name hn => h name (hv.mem_iff.2 hn), fun h name hn => h name (hv.mem_iff.1 hn)⟩

theorem wellFormed_rebuilt : v.rebuilt.WellFormed where
  attributes_nodup := hv.nodup_iff.2 H.attributes_nodup
  attributes_mem name hn :=
    ((resembles H hv W List.mem_cons_self).columns name).2 (H.attributes_mem name (hv.mem_iff.1 hn))
  usable other ho := by
    obtain ⟨s, hs, rfl⟩ := List.mem_map.1 ho
    have hmem : s ∈ v.base.sources := List.mem_cons_of_mem _ hs
    have husable := H.usable s hs
    rw [StoredRelation.isUsable, Bool.or_eq_true] at husable ⊢
    rw [attributes_rebuilt, primary_rebuilt, covers_arranged H hv W hmem,
      (resembles H hv W List.mem_cons_self).position]
    refine husable.imp_right fun h => ?_
    rw [Option.any_eq_true] at h ⊢
    obtain ⟨p, hp, hc⟩ := h
    exact ⟨p, hp, decide_eq_true (((resembles H hv W hmem).columns p).2 (of_decide_eq_true hc))⟩

/-! ## Choosing a source -/

theorem selectAmong_arranged {sources : List Source} (hs : ∀ s ∈ sources, s ∈ v.base.sources)
    (best : Source × Option IndexMatch) :
    StoredRelation.selectAmong bound (v.arranged best.1, best.2) (sources.map v.arranged) =
      (v.arranged (StoredRelation.selectAmong bound best sources).1,
        (StoredRelation.selectAmong bound best sources).2) := by
  induction sources generalizing best with
  | nil => rfl
  | cons source rest ih =>
    rw [List.forall_mem_cons] at hs
    rw [List.map_cons, StoredRelation.selectAmong, StoredRelation.selectAmong,
      (resembles H hv W hs.1).sourceMatch]
    split
    · exact ih hs.2 best
    next m _ =>
    split
    · rfl
    split
    · exact ih hs.2 (source, some m)
    · exact ih hs.2 best

/-- The rebuilt relation uses the corresponding source. -/
theorem selectSource_rebuilt (bound : List Name) : v.rebuilt.selectSource bound =
    (v.arranged (v.base.selectSource bound).1, (v.base.selectSource bound).2) :=
  selectAmong_arranged H hv W (fun _ => id) (v.base.primary, none)

theorem indexMatch_rebuilt (bound : List Name) :
    v.rebuilt.indexMatch bound = v.base.indexMatch bound := by
  rw [StoredRelation.indexMatch, StoredRelation.indexMatch, selectSource_rebuilt H hv W]

theorem keyFrequency_rebuilt (bound : List Name) :
    v.rebuilt.keyFrequency bound = v.base.keyFrequency bound := by
  have hmem : (v.base.selectSource bound).1 ∈ v.base.sources := StoredRelation.selectSource_mem
  unfold StoredRelation.keyFrequency
  rw [selectSource_rebuilt H hv W]
  generalize v.base.selectSource bound = selected at hmem
  obtain ⟨s, m⟩ := selected
  dsimp only
  split
  · next key heq =>
    cases heq
    rw [(resembles H hv W hmem).maxFrequency]
  · next hnot =>
    split
    · next key heq =>
      cases heq
      exact (hnot _ _ rfl).elim
    · rfl

/-! ## Tuples of a lookup -/

/-- The size that is announced, and whether the tuples come to an end, are the same. -/
theorem lookup_rebuilt (hb : ∀ name ∈ binding.names, name ∈ v.attributes) :
    v.rebuilt.lookup binding = (v.base.lookup binding).map fun found => { found with
      rows := fun _ =>
        v.rebuilt.produce (v.arranged (v.base.selectSource binding.names).1) binding } := by
  have hmem : (v.base.selectSource binding.names).1 ∈ v.base.sources :=
    StoredRelation.selectSource_mem
  have hR := resembles H hv W hmem
  have hrebuilt : ∀ name ∈ binding.names, name ∈ v.rebuilt.attributes := hb
  have hbase : ∀ name ∈ binding.names, name ∈ v.base.attributes := fun name hn =>
    hv.mem_iff.1 (hb name hn)
  unfold StoredRelation.lookup
  rw [requireAttributes_ok hrebuilt, requireAttributes_ok hbase, Checked.bind_ok, Checked.bind_ok,
    selectSource_rebuilt H hv W]
  dsimp only
  rw [hR.restrict, hR.estimate _ NamedValues.names_restrict, hR.isFinite]
  cases (v.base.selectSource binding.names).1.estimate
      (binding.restrict (v.base.selectSource binding.names).1.columns) with
  | error fault => rfl
  | ok size =>
    rw [Checked.bind_ok, Checked.bind_ok]
    cases Cardinality.ofValue size <;> rfl

end

/-- Values that are put together in the order of the relation and permuted are those in the order of
the view. -/
theorem permute_map (hv : v.attributes.Perm v.base.attributes) (value : Name → Value) :
    v.permute (v.base.attributes.map value) = v.attributes.map value := by
  rw [permute, permutation, List.map_map]
  refine List.map_congr_left fun name hn => ?_
  have hi := List.idxOf_lt_length_iff.2 (hv.mem_iff.1 hn)
  rw [Function.comp_apply, List.getD_eq_getElem?_getD, List.getElem?_map,
    List.getElem?_eq_getElem hi, List.getElem_idxOf]
  rfl

theorem mapM_get {values : NamedValues} {names : List Name}
    (h : ∀ name ∈ names, name ∈ values.names) : names.mapM (NamedValues.get values) =
      .ok (names.map fun name => (values.lookup name).getD .null) := by
  refine Checked.mapM_of_forall fun name hn => NamedValues.get_eq_ok.2 ?_
  obtain ⟨x, hx⟩ := NamedValues.exists_lookup (h name hn)
  rw [hx, Option.getD_some]

theorem agrees_congr {values others : NamedValues}
    (h : NamedValues.get others = NamedValues.get values) :
    StoredRelation.agrees others binding = StoredRelation.agrees values binding := by
  induction binding with
  | nil => rfl
  | cons e rest ih => rw [StoredRelation.agrees, StoredRelation.agrees, h, ih]

/-- Tuples with the same values are checked and put together in the same way, each in the order of
its own relation. -/
theorem apply_rebuilt {values others : NamedValues} (hv : v.attributes.Perm v.base.attributes)
    (hsame : ∀ name, List.lookup name others = List.lookup name values)
    (hnames : ∀ name ∈ v.base.attributes, name ∈ values.names) :
    (do
      if ← StoredRelation.agrees others binding then
        return some (← v.attributes.mapM fun name => NamedValues.get others name)
      else return none : Checked (Option (List Value))) =
    Except.map (Option.map v.permute) (do
      if ← StoredRelation.agrees values binding then
        return some (← v.base.attributes.mapM fun name => NamedValues.get values name)
      else return none) := by
  have hget : NamedValues.get others = NamedValues.get values := by
    funext name
    rw [NamedValues.get, NamedValues.get, hsame]
  rw [hget, agrees_congr hget, mapM_get fun name hn => hnames name (hv.mem_iff.1 hn),
    mapM_get hnames]
  cases StoredRelation.agrees values binding with
  | error fault => rfl
  | ok holds =>
    cases holds with
    | true => exact congrArg (fun t => Except.ok (some t)) (permute_map hv _).symm
    | false => rfl

section

variable (H : v.base.WellFormed) (hv : v.attributes.Perm v.base.attributes)
  (W : ∀ s ∈ v.base.sources, s.WellFormed) (hf : ∀ s ∈ v.base.sources, s.Regular)

include H hv W hf

/-- The tuple that is fetched by a position is the same one, rearranged. -/
theorem fetch_rebuilt {p : Name} (hp : v.base.primary.position = some p) (x : Value) :
    ((v.arranged v.base.primary).scan [(p, x)]).first? =
        (v.base.primary.scan [(p, x)]).first?.map (Option.map
          (Source.rearrange v.base.primary.columns (v.arranged v.base.primary).columns)) ∧
      ∀ u, (v.base.primary.scan [(p, x)]).first? = .ok (some u) →
        u.length = v.base.primary.columns.length := by
  have hprimary : v.base.primary ∈ v.base.sources := List.mem_cons_self
  have hpp : p ∈ v.base.primary.columns := List.mem_append_right _ (Option.mem_toList.2 hp)
  have hbound : ∀ name ∈ NamedValues.names [(p, x)], name ∈ v.base.primary.columns :=
    List.forall_mem_singleton.2 hpp
  have hone : (NamedValues.names [(p, x)]).Nodup := List.nodup_singleton p
  have hregular := hf _ hprimary
  constructor
  · rw [scan_arranged (hv.nodup_iff.2 H.attributes_nodup) (W _ hprimary) hregular hone hbound,
      Rows.first?_map]
  · exact fun u hu => (hregular.scan_length (W _ hprimary) hone hbound).first? hu

/-- A rearranged tuple is completed from the same tuple of the primary source, if from any. -/
theorem complete_rebuilt (hs : s ∈ v.base.sources) (ht : t.length = s.columns.length) :
    let t' := Source.rearrange s.columns (v.arranged s).columns t
    (∃ fault, v.base.complete s t = .error fault ∧
      v.rebuilt.complete (v.arranged s) t' = .error fault) ∨
    (v.base.complete s t = .ok none ∧ v.rebuilt.complete (v.arranged s) t' = .ok none) ∨
    ∃ values others, v.base.complete s t = .ok (some values) ∧
      v.rebuilt.complete (v.arranged s) t' = .ok (some others) ∧
      (∀ name, List.lookup name others = List.lookup name values) ∧
      ∀ name ∈ v.base.attributes, name ∈ values.names := by
  intro t'
  have hprimary : v.base.primary ∈ v.base.sources := List.mem_cons_self
  have hlookup : ∀ name, List.lookup name ((v.arranged s).columns.zip t') =
      List.lookup name (s.columns.zip t) :=
    Source.lookup_zip_rearrange ht (resembles H hv W hs).columns
  have hnames : NamedValues.names (s.columns.zip t) = s.columns := NamedValues.names_zip ht.ge
  have hnames' : NamedValues.names ((v.arranged s).columns.zip t') = (v.arranged s).columns :=
    NamedValues.names_zip Source.rearrange_length.ge
  have hd : (NamedValues.names (s.columns.zip t)).Nodup := by
    rw [hnames]
    exact (W s hs).columns_nodup
  have hd' : (NamedValues.names ((v.arranged s).columns.zip t')).Nodup := by
    rw [hnames']
    exact (wellFormed_arranged (hv.nodup_iff.2 H.attributes_nodup) (W s hs)).columns_nodup
  unfold StoredRelation.complete
  dsimp only
  rw [attributes_rebuilt, primary_rebuilt, covers_arranged H hv W hs]
  cases hcov : NameSet.covers s.columns v.base.attributes with
  | true =>
    refine .inr (.inr ⟨_, _, rfl, rfl, hlookup, fun name hn => ?_⟩)
    rw [hnames]
    exact StoredRelation.covers_iff.1 hcov name hn
  | false =>
    obtain ⟨p, hp, hpc⟩ := H.refers hs hcov
    obtain ⟨x, hx⟩ := NamedValues.exists_lookup (hnames ▸ hpc)
    obtain ⟨hfetch, hlength⟩ := fetch_rebuilt H hv W hf hp x
    rw [(resembles H hv W hprimary).position, hp, Option.getD_some,
      NamedValues.get_eq_ok.2 hx, NamedValues.get_eq_ok.2 ((hlookup p).trans hx)]
    simp only [Bool.false_eq_true, if_false, Checked.bind_ok]
    rw [hfetch]
    cases hfirst : (v.base.primary.scan [(p, x)]).first? with
    | error fault => exact .inl ⟨fault, rfl, rfl⟩
    | ok o =>
      cases o with
      | none => exact .inr (.inl ⟨rfl, rfl⟩)
      | some u =>
        have hu := hlength u hfirst
        refine .inr (.inr ⟨_, _, rfl, rfl, fun name => ?_, fun name hn => ?_⟩)
        · rw [NamedValues.lookup_foldl_set hd, NamedValues.lookup_foldl_set hd', hlookup,
            Source.lookup_zip_rearrange hu (resembles H hv W hprimary).columns]
        · rw [← NamedValues.lookup_isSome_iff, NamedValues.lookup_foldl_set hd, Option.isSome_or,
            Bool.or_eq_true]
          right
          rw [NamedValues.lookup_isSome_iff, NamedValues.names_zip hu.ge]
          exact H.attributes_mem name hn

theorem producedRow_rebuilt (hs : s ∈ v.base.sources) (ht : t.length = s.columns.length) :
    v.rebuilt.producedRow (v.arranged s) binding
        (Source.rearrange s.columns (v.arranged s).columns t) =
      (v.base.producedRow s binding t).map (Option.map v.permute) := by
  unfold StoredRelation.producedRow
  rcases complete_rebuilt H hv W hf hs ht with ⟨fault, hc, hc'⟩ | ⟨hc, hc'⟩ |
    ⟨values, others, hc, hc', hsame, hnames⟩
  · rw [hc, hc']
    rfl
  · rw [hc, hc']
    rfl
  · rw [hc, hc']
    exact apply_rebuilt hv hsame hnames

/-- The rebuilt relation makes of the arranged source what the relation makes of the source, with
rearranged tuples. -/
theorem produce_rebuilt (hs : s ∈ v.base.sources) (hn : binding.names.Nodup) :
    v.rebuilt.produce (v.arranged s) binding =
      (v.base.produce s binding).map fun t => .ok (v.permute t) := by
  have hnodup := hv.nodup_iff.2 H.attributes_nodup
  have hrestrict : (binding.restrict s.columns).names.Nodup := NamedValues.nodup_restrict hn
  rw [StoredRelation.produce_eq, StoredRelation.produce_eq, (resembles H hv W hs).restrict,
    scan_arranged hnodup (W s hs) (hf s hs) hrestrict NamedValues.names_restrict,
    Rows.filterMap_map]
  exact ((hf s hs).scan_length (W s hs) hrestrict NamedValues.names_restrict).map_filterMap
    fun t ht => producedRow_rebuilt H hv W hf hs ht

end

/-! ## Lookups of a view -/

theorem produce_length (r : StoredRelation) (s : Source) (binding : NamedValues) :
    (r.produce s binding).Each fun t => t.length = r.attributes.length := by
  rw [StoredRelation.produce_eq]
  refine (Rows.each_of_forall (fun _ => trivial) _).filterMap fun t _ row hrow => ?_
  obtain ⟨completed, -, hrow⟩ := Checked.bind_eq_ok.1 hrow
  cases completed with
  | none => cases hrow
  | some values =>
    obtain ⟨holds, -, hrow⟩ := Checked.bind_eq_ok.1 hrow
    cases holds with
    | false => cases hrow
    | true =>
      obtain ⟨row', hmapM, hrow⟩ := Checked.bind_eq_ok.1 hrow
      cases hrow
      exact (Checked.mapM_eq_ok.1 hmapM).length_eq.symm

/-- The tuples of a view are those of its relation in the order of the view. -/
theorem lookup_permute (hv : v.attributes.Perm v.base.attributes)
    (hb : ∀ name ∈ binding.names, name ∈ v.attributes) :
    v.lookup binding = (v.base.lookup binding).map fun found => { found with
      rows := fun _ => (found.rows ()).map fun t => .ok (v.permute t) } := by
  cases hl : v.base.lookup binding with
  | error fault =>
    rw [lookup, requireAttributes_ok hb, Checked.bind_ok, hl]
    rfl
  | ok found =>
    have hrows : (found.rows ()).map (fun t => v.permutation.mapM (atPosition t)) =
        (found.rows ()).map fun t => .ok (v.permute t) := by
      rw [StoredRelation.rows_of_lookup hl]
      exact (produce_length _ _ _).map_congr fun t ht => mapM_permutation hv ht
    rw [lookup_eq hb hl, present, hrows]
    rfl

theorem requireAttributes_foreign {attributes : List Name}
    (hb : ∃ name ∈ binding.names, name ∉ attributes) :
    ∃ names, ∀ label, requireAttributes attributes label binding =
      .error (.usage (.foreignAttributes names label)) := by
  obtain ⟨name, hn, hnot⟩ := hb
  have hne : binding.names.filter (· ∉ attributes) ≠ [] :=
    List.ne_nil_of_mem (List.mem_filter.2 ⟨hn, decide_eq_true hnot⟩)
  exact ⟨_, fun label => if_neg hne⟩

theorem types_length (H : v.base.Checks) (hv : v.attributes.Perm v.base.attributes) :
    v.attributes.length = v.types.length := by
  have hsome : v.types.length = v.permutation.length := by
    refine List.filterMap_length_eq_length.2 fun i hi => ?_
    obtain ⟨name, hn, rfl⟩ := List.mem_map.1 hi
    have hlt := List.idxOf_lt_length_iff.2 (hv.mem_iff.1 hn)
    rw [H.typed] at hlt
    rw [List.getElem?_eq_getElem hlt, Option.isSome_some]
  rw [hsome, permutation, List.length_map]

/-- What is checked of a relation also holds of the one that is rebuilt from a view of it. -/
theorem checks_rebuilt (H : v.base.Checks) (hv : v.attributes.Perm v.base.attributes)
    (W : ∀ s ∈ v.base.sources, s.WellFormed) : v.rebuilt.Checks where
  toWellFormed := wellFormed_rebuilt H.toWellFormed hv W
  typed := types_length H hv
  texts name hn := H.texts name (hv.mem_iff.1 hn)
  closed c hc :=
    have hover := H.closed c hc
    ⟨hover.domain, hover.range, fun name hn => hv.mem_iff.2 (hover.mem name hn)⟩

/-- A permutation of the attributes is the order of a view. -/
theorem parse?_names {r : StoredRelation} {given : Value} {texts : List String}
    (hd : r.attributes.Nodup) (hgiven : given.elements = .ok (texts.map .text))
    (hp : (texts.map Name.text).Perm r.attributes) :
    parse? r given = .ok ⟨r, texts.map .text⟩ := by
  have hperm : (texts.map Name.text).isPerm r.attributes = true := List.isPerm_iff.2 hp
  have hrepeat : firstRepeat [] (texts.map Name.text) = none :=
    firstRepeat_eq_none.2 ⟨hp.nodup_iff.2 hd, fun _ _ => List.not_mem_nil⟩
  rw [parse?, parsePermutation_names hgiven, if_pos hperm, Checked.bind_ok, declare?, hperm,
    hrepeat]
  rfl

end ReorderedView

/-! ## The rebuilt relation -/

namespace Relation

/-- What is asked of the one relation before tuples are read is answered as by the other. Only what
neither of them has is reported by each in its own name. -/
structure AnswersAs (w v : Relation) : Prop where
  name : w.name = v.name
  attributes : w.attributes = v.attributes
  types : w.types = v.types
  constraints : w.constraints = v.constraints
  indexMatch : ∀ bound, w.indexMatch bound = v.indexMatch bound
  keyFrequency : ∀ bound, w.keyFrequency bound = v.keyFrequency bound
  announced : ∀ binding : NamedValues, (∀ name ∈ binding.names, name ∈ v.attributes) →
    (w.lookup binding).map (fun found => (found.cardinality, found.finite)) =
      (v.lookup binding).map fun found => (found.cardinality, found.finite)
  foreign : ∀ binding : NamedValues, (∃ name ∈ binding.names, name ∉ v.attributes) →
    ∃ names, ∀ r ∈ [w, v],
      r.lookup binding = .error (.usage (.foreignAttributes names r.label))

theorem answersAs_rebuilt {v : ReorderedView} (H : v.base.WellFormed)
    (hv : v.attributes.Perm v.base.attributes) (W : ∀ s ∈ v.base.sources, s.WellFormed) :
    (stored v.rebuilt).AnswersAs (view v) where
  name := rfl
  attributes := rfl
  types := rfl
  constraints := rfl
  indexMatch := ReorderedView.indexMatch_rebuilt H hv W
  keyFrequency := ReorderedView.keyFrequency_rebuilt H hv W
  announced binding hb := by
    rw [lookup, lookup, ReorderedView.lookup_rebuilt H hv W hb, ReorderedView.lookup_permute hv hb]
    cases v.base.lookup binding <;> rfl
  foreign binding hb := by
    obtain ⟨names, hnames⟩ := ReorderedView.requireAttributes_foreign hb
    refine ⟨names, ?_⟩
    rw [List.forall_mem_cons, List.forall_mem_singleton]
    refine ⟨?_, ?_⟩
    · exact congrArg (· >>= _) (hnames v.rebuilt.label)
    · exact congrArg (· >>= _) (hnames v.label)

/-- A view exposes sources over which a relation can be declared. The declared relation answers as
the view does, and also finds the same tuples in the same order, where each stored row has one
value for each attribute. The view has the tuples of its relation in its own order, and these have a
value for each attribute whatever is stored. -/
theorem rebuilt_faithful {name : Value} {attributes types : List Value} {sources : List Source}
    {drafts : List ConstraintDraft} {r : StoredRelation} {given : Value} {texts : List String}
    (h : StoredRelation.declare? name attributes types sources drafts = .ok r)
    (hs : ∀ s ∈ sources, s.Declared) (hgiven : given.elements = .ok (texts.map .text))
    (hp : (texts.map Name.text).Perm r.attributes) :
    ∃ v exposed w, (stored r).reordered given = .ok (view v) ∧ v.attributes = texts.map .text ∧
      (view v).sources = .ok exposed ∧ (view v).rebuild? = .ok w ∧ w.sources = exposed ∧
      (stored w).AnswersAs (view v) ∧
      ((∀ s ∈ sources, s.Regular) → ∀ binding : NamedValues, binding.names.Nodup →
        (∀ name ∈ binding.names, name ∈ r.attributes) →
        (stored w).lookup binding = (view v).lookup binding) ∧
      ∀ binding : NamedValues, (∀ name ∈ binding.names, name ∈ r.attributes) →
        ((view v).lookup binding = (r.lookup binding).map fun found => { found with
          rows := fun _ => (found.rows ()).map fun t => .ok (v.permute t) }) ∧
        ∀ found, r.lookup binding = .ok found →
          (found.rows ()).Each fun t => t.length = r.attributes.length := by
  obtain ⟨H, rfl⟩ := StoredRelation.declare?_spec h fun s hmem => (hs s hmem).texts
  have W : ∀ s ∈ r.sources, s.WellFormed := fun s hmem => (hs s hmem).wellFormed
  let v : ReorderedView := ⟨r, texts.map .text⟩
  have hv : v.attributes.Perm v.base.attributes := hp
  have hnodup : v.attributes.Nodup := hp.nodup_iff.2 H.attributes_nodup
  have hsources : v.sources = .ok v.rebuilt.sources :=
    Checked.mapM_of_forall fun s hmem => ReorderedView.arrangeSource_eq hnodup (W s hmem)
  have hview : (stored r).reordered given = .ok (view v) := by
    rw [reordered, ReorderedView.parse?_names H.attributes_nodup hgiven hp]
    rfl
  have hrebuild : (view v).rebuild? = .ok v.rebuilt := by
    rw [rebuild?, Relation.sources, hsources, Checked.bind_ok]
    exact (ReorderedView.checks_rebuilt H hv W).redeclare
  refine ⟨v, _, v.rebuilt, hview, rfl, hsources, hrebuild, rfl,
    answersAs_rebuilt H.toWellFormed hv W, fun hf binding hn hb => ?_, fun binding hb => ?_⟩
  · have hb : ∀ name ∈ binding.names, name ∈ v.attributes := fun name hname =>
      hv.mem_iff.2 (hb name hname)
    have hmem : (r.selectSource binding.names).1 ∈ v.base.sources :=
      StoredRelation.selectSource_mem
    rw [lookup, lookup, ReorderedView.lookup_rebuilt H.toWellFormed hv W hb,
      ReorderedView.lookup_permute hv hb,
      ReorderedView.produce_rebuilt H.toWellFormed hv W hf hmem hn]
    cases hl : v.base.lookup binding with
    | error fault => rfl
    | ok found =>
      rw [Checked.map_ok, Checked.map_ok, StoredRelation.rows_of_lookup hl]
  · refine ⟨ReorderedView.lookup_permute hv fun name hname => hv.mem_iff.2 (hb name hname), ?_⟩
    intro found hl
    rw [StoredRelation.rows_of_lookup hl]
    exact ReorderedView.produce_length r _ binding

end Relation

/-! ## A table with a surplus value -/

namespace Surplus

/-- A row with a value behind those of the attributes, which a scan takes for the position. -/
def source : Source :=
  .ofSchema ⟨.table, [.text "a", .text "b"], some (.text "p"), []⟩ (some (SortedTable.handle
    ⟨[], #[[.int 1, .int 2, .int 99]], #[[]]⟩))

def relation : StoredRelation :=
  ⟨.text "R", [.text "a", .text "b", .text "p"], [.text "int", .text "int", .text "int"], source,
    [], []⟩

def view : ReorderedView := ⟨relation, [.text "b", .text "a", .text "p"]⟩

end Surplus

open Surplus in
/-- A source that is arranged in another order shows the position in place of a surplus value. -/
theorem Relation.not_rebuilt_faithful : ¬∀ (name : Value) (attributes types : List Value)
    (sources : List Source) (drafts : List ConstraintDraft) (r : StoredRelation) (given : Value)
    (v : ReorderedView) (w : StoredRelation) (binding : NamedValues),
    StoredRelation.declare? name attributes types sources drafts = .ok r →
    (∀ s ∈ sources, s.Declared) → (stored r).reordered given = .ok (.view v) →
    (Relation.view v).rebuild? = .ok w → binding.names.Nodup →
    (∀ name ∈ binding.names, name ∈ r.attributes) →
    (stored w).lookup binding = (Relation.view v).lookup binding := by
  intro H
  have hschema : Schema.declare? (.tag (.source .table)) (.list [.text "a", .text "b"])
      (.text "p") (.list []) = .ok source.schema := rfl
  have hsources : ∀ s ∈ [source], s.Declared := by
    rw [List.forall_mem_singleton]
    exact .schema _ hschema
  have heq := H (.text "R") [.text "a", .text "b", .text "p"]
    [.text "int", .text "int", .text "int"] [source] [] relation
    (.list [.text "b", .text "a", .text "p"]) Surplus.view Surplus.view.rebuilt []
    rfl hsources rfl rfl .nil nofun
  have hrebuilt : ((stored Surplus.view.rebuilt).lookup []).map (fun found =>
      (found.rows ()).collect) = .ok (.ok [[.int 2, .int 1, .int 0]]) := rfl
  have hview : ((Relation.view Surplus.view).lookup []).map (fun found =>
      (found.rows ()).collect) = .ok (.ok [[.int 2, .int 1, .int 99]]) := rfl
  rw [heq, hview] at hrebuilt
  cases hrebuilt

/-! ## Triples in another order -/

namespace Triples

/-- Middle items determine the others. -/
def determined : StoredRelation :=
  { relation with
    types := [.text "int", .text "int", .text "int"]
    constraints := [⟨1, some 1, [.text "b"], [.text "a", .text "c"]⟩] }

theorem middles_regular : middles.Regular := by
  intro handle h lead position
  cases h
  refine (SortedTable.scan_each lead position).mono fun r hr => ?_
  have hmem := mem_of_mem_numbered hr
  simp only [List.mem_cons, List.not_mem_nil, or_false] at hmem
  rcases hmem with h | h | h <;> exact congrArg List.length h

end Triples

/-- The first source and the index on the middle items are both arranged, and a triple is found
through the index. -/
theorem Relation.rebuilt_faithful_triples :
    StoredRelation.declare? (.text "T") [.text "a", .text "b", .text "c"]
      [.text "int", .text "int", .text "int"] Triples.relation.sources
      [⟨1, some 1, [.text "b"], [.text "a", .text "c"]⟩] = .ok Triples.determined ∧
    (∀ s ∈ Triples.relation.sources, s.Declared) ∧
    (∀ s ∈ Triples.relation.sources, s.Regular) ∧
    ([.text "b", .text "a", .text "c"] : List Name).Perm Triples.determined.attributes ∧
    ∃ v w, (stored Triples.determined).reordered (.list [.text "b", .text "a", .text "c"]) =
        .ok (view v) ∧ (view v).rebuild? = .ok w ∧ (stored w).AnswersAs (view v) ∧
      (stored w).lookup [(.text "b", .int 6)] = (view v).lookup [(.text "b", .int 6)] ∧
      ((stored w).lookup [(.text "b", .int 6)]).map (fun found => (found.rows ()).collect) =
        .ok (.ok [[.int 6, .int 2, .int 1]]) := by
  have hdeclared : StoredRelation.declare? (.text "T") [.text "a", .text "b", .text "c"]
      [.text "int", .text "int", .text "int"] Triples.relation.sources
      [⟨1, some 1, [.text "b"], [.text "a", .text "c"]⟩] = .ok Triples.determined := rfl
  have hregular : ∀ s ∈ Triples.relation.sources, s.Regular :=
    List.forall_mem_cons.2
      ⟨Triples.source_fits, List.forall_mem_singleton.2 Triples.middles_regular⟩
  have hperm : ([.text "b", .text "a", .text "c"] : List Name).Perm
      Triples.determined.attributes := List.Perm.swap _ _ _
  obtain ⟨v, exposed, w, hv, -, -, hw, -, hanswers, htuples, -⟩ :=
    @Relation.rebuilt_faithful _ _ _ _ _ _ (.list [.text "b", .text "a", .text "c"])
      ["b", "a", "c"] hdeclared Triples.relation_declared rfl hperm
  have heq := htuples hregular [(.text "b", .int 6)] (List.nodup_singleton _) (by decide)
  refine ⟨hdeclared, Triples.relation_declared, hregular, hperm, v, w, hv, hw, hanswers, heq, ?_⟩
  cases hv
  rw [heq]
  rfl

end JoinOrder
