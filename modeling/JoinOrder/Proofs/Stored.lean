import JoinOrder.Proofs.Lookup
import JoinOrder.Proofs.Numbers
import JoinOrder.Proofs.Source

/-!
# Lookups of stored relations

Each source of a relation has one row for each row of the primary source (`Corresponds`). A lookup
reads only what these rows have in common, so that it does not matter which source is used.
-/

namespace JoinOrder

/-- Rows that are matched with each other are treated alike. -/
theorem filterMap_eq_of_forall₂ {α β γ : Type} {R : α → β → Prop} {f : α → Option γ}
    {g : β → Option γ} {xs : List α} {ys : List β} (H : List.Forall₂ R xs ys)
    (h : ∀ x ∈ xs, ∀ y ∈ ys, R x y → f x = g y) : xs.filterMap f = ys.filterMap g := by
  induction H with
  | nil => rfl
  | @cons x y xs ys hxy _ ih =>
    have hrest := ih fun x hx y hy =>
      h x (List.mem_cons_of_mem _ hx) y (List.mem_cons_of_mem _ hy)
    rw [List.filterMap_cons, List.filterMap_cons, hrest,
      h x List.mem_cons_self y List.mem_cons_self hxy]

/-- A value that a source has under a name. -/
def Source.Stores (s : Source) (name : Name) (v : Value) : Prop :=
  ∃ scanned, (s.scan []).Yields scanned ∧ ∃ t ∈ scanned, t[s.columns.idxOf name]? = some v

/-- A tuple of a source consists of stored values and possibly its position. -/
theorem Source.Serves.value {κ : Type} {K : ValueClass κ} {s : Source} {asks : Value → Prop}
    {rows : List (List Value)} (H : s.Serves K asks rows) {t : List Value}
    (ht : t ∈ s.tuples rows) {name : Name} (hn : name ∈ s.columns) :
    ∃ v, t[s.columns.idxOf name]? = some v ∧
      (K.carrier v ∨ s.position = some name ∧ ∃ i < rows.length, v = .ofNat i) := by
  obtain ⟨r, hr, rfl⟩ := List.mem_map.1 ht
  rw [columns_eq, List.mem_append] at hn
  rcases hn with hn | hn
  · obtain ⟨v, hv, hc⟩ := H.get_stored hr hn
    exact ⟨v, ((H.fits hr).present_attribute H.wellFormed hn).trans hv, .inl hc⟩
  · have hp : s.position = some name := by simpa using hn
    refine ⟨_, H.wellFormed.present_position hp, .inr ⟨hp, r.1, ?_, rfl⟩⟩
    exact (List.getElem?_eq_some_iff.1 (mem_numbered.1 hr)).1

/-- Its values belong to a class with all integers. -/
theorem Source.Serves.included {σ κ : Type} {S : ValueClass σ} {K : ValueClass κ} {s : Source}
    {asks : Value → Prop} {rows : List (List Value)} (H : s.Serves S asks rows)
    (hK : K.IncludesIntegers S) {t : List Value} (ht : t ∈ s.tuples rows) {name : Name}
    (hn : name ∈ s.columns) : ∃ v, t[s.columns.idxOf name]? = some v ∧ K.carrier v := by
  obtain ⟨v, hv, hc⟩ := H.value ht hn
  refine ⟨v, hv, hc.elim (hK.carrier v) ?_⟩
  rintro ⟨-, i, -, rfl⟩
  exact hK.int i

/-- What a source has under a name is a stored value, or a position. -/
theorem Source.Serves.of_stores {κ : Type} {K : ValueClass κ} {s : Source} {asks : Value → Prop}
    {rows : List (List Value)} (H : s.Serves K asks rows) {name : Name} {v : Value}
    (h : s.Stores name v) : name ∈ s.columns ∧
      (K.carrier v ∨ s.position = some name ∧ ∃ i < rows.length, v = .ofNat i) := by
  obtain ⟨scanned, hy, t, ht, hv⟩ := h
  cases hy.unique (scan_all H)
  have hn : name ∈ s.columns := by
    obtain ⟨x, -, rfl⟩ := List.mem_map.1 ht
    rw [← List.idxOf_lt_length_iff, ← present_length (r := x)]
    exact (List.getElem?_eq_some_iff.1 hv).1
  obtain ⟨w, hw, hc⟩ := H.value ht hn
  cases hv.symm.trans hw
  exact ⟨hn, hc⟩

/-- The values of the rows are stored under the attributes. -/
theorem Source.Serves.stores {κ : Type} {K : ValueClass κ} {s : Source} {asks : Value → Prop}
    {rows : List (List Value)} (H : s.Serves K asks rows) {row : List Value} (hr : row ∈ rows)
    {name : Name} (hn : name ∈ s.attributes) {v : Value}
    (hv : row[s.stored.idxOf name]? = some v) : s.Stores name v := by
  obtain ⟨i, hi⟩ := List.mem_iff_getElem?.1 hr
  have hmem : (i, row) ∈ numbered rows := mem_numbered.2 hi
  refine ⟨_, scan_all H, _, List.mem_map_of_mem hmem, ?_⟩
  exact ((H.fits hmem).present_attribute H.wellFormed hn).trans hv

namespace StoredRelation

variable {σ κ : Type} {S : ValueClass σ} {K : ValueClass κ} {r : StoredRelation} {s : Source}
  {asks : Value → Prop} {rows others : List (List Value)} {t u : List Value} {name p : Name}

/-! ## Choosing a source -/

variable {bound : List Name} {best : Source × Option IndexMatch} {sources : List Source}

theorem selectAmong_mem : (selectAmong bound best sources).1 = best.1 ∨
    (selectAmong bound best sources).1 ∈ sources := by
  induction sources generalizing best with
  | nil => exact .inl rfl
  | cons source rest ih =>
    rw [selectAmong]
    split
    · exact ih.imp_right (List.mem_cons_of_mem _)
    split
    · exact .inr List.mem_cons_self
    split
    · rcases @ih (source, _) with h | h
      · exact .inr (h ▸ List.mem_cons_self)
      · exact .inr (List.mem_cons_of_mem _ h)
    · exact ih.imp_right (List.mem_cons_of_mem _)

theorem selectSource_mem : (r.selectSource bound).1 ∈ r.sources := by
  have h : (r.selectSource bound).1 = r.primary ∨ (r.selectSource bound).1 ∈ r.sources :=
    selectAmong_mem
  rcases h with h | h
  · exact h ▸ List.mem_cons_self
  · exact h

/-! ## Corresponding sources -/

/-- What declaring a relation makes sure of. -/
structure WellFormed (r : StoredRelation) : Prop where
  attributes_nodup : r.attributes.Nodup
  attributes_mem : ∀ name ∈ r.attributes, name ∈ r.primary.columns
  usable : ∀ s ∈ r.auxiliaries, isUsable r.attributes r.primary s = true

/-- The columns of a source that a lookup reads: attributes of the relation, and the position of
the primary source if other attributes are fetched by it. -/
def Uses (r : StoredRelation) (s : Source) (name : Name) : Prop :=
  name ∈ s.columns ∧ (name ∈ r.attributes ∨
    NameSet.covers s.columns r.attributes = false ∧ r.primary.position = some name)

/-- A tuple of a source and one of the primary source have the same values wherever both are
read. -/
def Matches (r : StoredRelation) (s : Source) (t u : List Value) : Prop :=
  ∀ name, r.Uses s name → ∃ v w, t[s.columns.idxOf name]? = some v ∧
    u[r.primary.columns.idxOf name]? = some w ∧ Value.eq v w = true

/-- The rows of a source correspond one-to-one to those of the primary source. -/
def Corresponds (r : StoredRelation) (s : Source) (rows others : List (List Value)) : Prop :=
  ∃ matched, matched.Perm (r.primary.tuples rows) ∧
    List.Forall₂ (r.Matches s) (s.tuples others) matched

theorem Corresponds.length_eq (h : r.Corresponds s rows others) : others.length = rows.length := by
  obtain ⟨matched, hperm, hmatch⟩ := h
  have hlen := hmatch.length_eq.trans hperm.length_eq
  simpa [Source.tuples, numbered] using hlen

/-- Where a source lacks attributes, it refers to the tuples of the primary source by integers. -/
def Refers (r : StoredRelation) (s : Source) (others : List (List Value)) : Prop :=
  NameSet.covers s.columns r.attributes = false → ∀ p, r.primary.position = some p →
    ∀ t ∈ s.tuples others, ∃ n, t[s.columns.idxOf p]? = some (.int n)

/-- A source over rows that correspond to those of the primary source. -/
structure Mirrors (S : ValueClass σ) (r : StoredRelation) (s : Source) (asks : Value → Prop)
    (rows others : List (List Value)) : Prop where
  serves : s.Serves S asks others
  corresponds : r.Corresponds s rows others
  refers : r.Refers s others

/-- A relation whose primary source serves some lookups over rows of a class, among them those of
all positions. What is read are values of a larger class, which has all integers. -/
structure Keeps (S : ValueClass σ) (K : ValueClass κ) (r : StoredRelation)
    (rows : List (List Value)) : Prop where
  wellFormed : r.WellFormed
  includes : K.IncludesIntegers S
  primary : ∃ asks, r.primary.Serves S asks rows ∧ ∀ i < rows.length, asks (.ofNat i)

/-- The values of a tuple of the primary source under the attributes of the relation. -/
def project (r : StoredRelation) (u : List Value) : List Value :=
  r.attributes.map fun name => u.getD (r.primary.columns.idxOf name) .null

/-- The tuples of a relation: the rows of its primary source. -/
def tuples (r : StoredRelation) : List (List Value) :=
  match (r.primary.scan []).collect with
  | .ok rows => rows.map r.project
  | .error _ => []

/-- A value that some source has under a name. -/
def Stores (r : StoredRelation) (name : Name) (v : Value) : Prop := ∃ s ∈ r.sources, s.Stores name v

/-- A tuple whose values come from the sources. -/
def StoresAll (r : StoredRelation) (attributes : List Name) (x : List Value) : Prop :=
  ∀ name ∈ attributes, ∃ v, x[attributes.idxOf name]? = some v ∧ r.Stores name v

theorem covers_iff {large small : List Name} :
    NameSet.covers large small = true ↔ ∀ name ∈ small, name ∈ large := by
  simp [NameSet.covers]

theorem WellFormed.covers_primary (h : r.WellFormed) :
    NameSet.covers r.primary.columns r.attributes = true := covers_iff.2 h.attributes_mem

/-- A source that lacks attributes has the positions by which the others are fetched. -/
theorem WellFormed.refers (h : r.WellFormed) (hs : s ∈ r.sources)
    (hcov : NameSet.covers s.columns r.attributes = false) :
    ∃ p, r.primary.position = some p ∧ p ∈ s.columns := by
  have haux : s ∈ r.auxiliaries := by
    refine (List.mem_cons.1 hs).resolve_left ?_
    rintro rfl
    rw [h.covers_primary] at hcov
    cases hcov
  have hus := h.usable s haux
  rw [isUsable, hcov, Bool.false_or, Option.any_eq_true] at hus
  obtain ⟨p, hp, hpc⟩ := hus
  exact ⟨p, hp, by simpa using hpc⟩

/-- Where all values are integers, references are. -/
theorem refers_of_integers (h : r.WellFormed) (hs : s ∈ r.sources)
    (hsource : s.Serves S asks others) (hint : ∀ v, S.carrier v → ∃ n, v = .int n) :
    r.Refers s others := by
  intro hcov p hp t ht
  obtain ⟨p', hp', hpc⟩ := h.refers hs hcov
  cases hp.symm.trans hp'
  obtain ⟨v, hv, hc | ⟨-, i, -, rfl⟩⟩ := hsource.value ht hpc
  · obtain ⟨n, rfl⟩ := hint v hc
    exact ⟨n, hv⟩
  · exact ⟨i, hv⟩

namespace Keeps

variable (H : r.Keeps S K rows)

include H

theorem corresponds_primary : r.Corresponds r.primary rows rows := by
  obtain ⟨asks, hsource, -⟩ := H.primary
  refine ⟨_, .refl _, List.forall₂_same.2 fun t ht name hu => ?_⟩
  obtain ⟨v, hv, hc⟩ := hsource.included H.includes ht hu.1
  exact ⟨v, v, hv, hv, ValueClass.eq_self hc⟩

theorem yields_primary : (r.primary.scan []).Yields (r.primary.tuples rows) := by
  obtain ⟨asks, hsource, -⟩ := H.primary
  exact Source.scan_all hsource

theorem tuples_eq : r.tuples = (r.primary.tuples rows).map r.project := by
  have hy := H.yields_primary
  rw [Rows.Yields] at hy
  rw [tuples, hy]

/-! ## Completing tuples -/

/-- The values of a tuple of the primary source belong to the class. -/
theorem stored (hu : u ∈ r.primary.tuples rows) (hn : name ∈ r.attributes) :
    ∃ w, u[r.primary.columns.idxOf name]? = some w ∧ K.carrier w := by
  obtain ⟨asks, hprimary, -⟩ := H.primary
  exact hprimary.included H.includes hu (H.wellFormed.attributes_mem name hn)

section

variable (M : r.Mirrors S s asks rows others) (ht : t ∈ s.tuples others)
  (hu : u ∈ r.primary.tuples rows) (hm : r.Matches s t u)

include M ht hu hm

/-- Attributes that a source has are those of the tuple that its tuple corresponds to. -/
theorem matched (hn : name ∈ r.attributes) (hc : name ∈ s.columns) :
    ∃ v w, t[s.columns.idxOf name]? = some v ∧ u[r.primary.columns.idxOf name]? = some w ∧
      K.carrier v ∧ K.carrier w ∧ Value.eq v w = true := by
  have huse : r.Uses s name := ⟨hc, .inl hn⟩
  obtain ⟨v, w, hv, hw, he⟩ := hm name huse
  obtain ⟨v', hv', hcv⟩ := M.serves.included H.includes ht hc
  obtain ⟨w', hw', hcw⟩ := H.stored hu hn
  cases hv.symm.trans hv'
  cases hw.symm.trans hw'
  exact ⟨v, w, hv, hw, hcv, hcw, he⟩

/-- A source that lacks attributes refers to the tuple of the primary source that its tuple
corresponds to. -/
theorem fetch (hcov : NameSet.covers s.columns r.attributes = false)
    (hp : r.primary.position = some p) (hpc : p ∈ s.columns) :
    ∃ v, t[s.columns.idxOf p]? = some v ∧ (r.primary.scan [(p, v)]).first? = .ok (some u) := by
  obtain ⟨v, w, hv, hw, he⟩ := hm p ⟨hpc, .inr ⟨hcov, hp⟩⟩
  obtain ⟨n, hn⟩ := M.refers hcov p hp t ht
  cases hv.symm.trans hn
  obtain ⟨asks', hprimary, hasks⟩ := H.primary
  obtain ⟨x, hx, rfl⟩ := List.mem_map.1 hu
  cases (hprimary.wellFormed.present_position hp).symm.trans hw
  have hn : n = x.1 := by simpa [Value.ofNat, Value.eq_int] using he
  subst hn
  have hrow : rows[x.1]? = some x.2 := mem_numbered.1 hx
  exact ⟨_, hv, Source.scan_position hprimary hp
    (hasks _ (List.getElem?_eq_some_iff.1 hrow).1) hrow⟩

/-- A tuple of a source is completed to the values of the tuple of the primary source that it
corresponds to. -/
theorem complete_spec (hs : s ∈ r.sources) : ∃ values, r.complete s t = .ok (some values) ∧
    ∀ name ∈ r.attributes, ∃ v w, values.lookup name = some v ∧ r.Stores name v ∧
      u[r.primary.columns.idxOf name]? = some w ∧ K.carrier v ∧ K.carrier w ∧
      Value.eq v w = true := by
  have hstores : ∀ {name v}, t[s.columns.idxOf name]? = some v → r.Stores name v := fun hv =>
    ⟨s, hs, _, Source.scan_all M.serves, t, ht, hv⟩
  unfold complete
  dsimp only
  cases hcov : NameSet.covers s.columns r.attributes with
  | true =>
    refine ⟨_, rfl, fun name hn => ?_⟩
    have hc := covers_iff.1 hcov name hn
    obtain ⟨v, w, hv, hw, h⟩ := H.matched M ht hu hm hn hc
    exact ⟨v, w, (NamedValues.lookup_zip hc).trans hv, hstores hv, hw, h⟩
  | false =>
    obtain ⟨p, hp, hpc⟩ := H.wellFormed.refers hs hcov
    obtain ⟨v, hv, hfetch⟩ := H.fetch M ht hu hm hcov hp hpc
    have hget : NamedValues.get (s.columns.zip t) p = .ok v :=
      NamedValues.get_eq_ok.2 ((NamedValues.lookup_zip hpc).trans hv)
    rw [if_neg Bool.false_ne_true, hp, Option.getD_some, hget, Checked.bind_ok, hfetch,
      Checked.bind_ok]
    refine ⟨_, rfl, fun name hn => ?_⟩
    have hzip : (NamedValues.names (s.columns.zip t)).Nodup := by
      obtain ⟨y, hy, rfl⟩ := List.mem_map.1 ht
      rw [NamedValues.names_zip Source.present_length.ge]
      exact M.serves.columns_nodup
    rw [NamedValues.lookup_foldl_set hzip,
      NamedValues.lookup_zip (H.wellFormed.attributes_mem name hn)]
    by_cases hc : name ∈ s.columns
    · obtain ⟨v, w, hv, hw, h⟩ := H.matched M ht hu hm hn hc
      refine ⟨v, w, ?_, hstores hv, hw, h⟩
      rw [NamedValues.lookup_zip hc, hv]
      rfl
    · obtain ⟨w, hw, hcw⟩ := H.stored hu hn
      refine ⟨w, w, ?_, ?_, hw, hcw, hcw, ValueClass.eq_self hcw⟩
      swap
      · exact ⟨r.primary, List.mem_cons_self, _, H.yields_primary, u, hu, hw⟩
      rw [NamedValues.lookup_zip_eq_none hc, hw]
      rfl

end

end Keeps

/-! ## Tuples of a lookup -/

theorem agrees_eq {values binding : NamedValues}
    (h : ∀ name ∈ binding.names, name ∈ values.names) : agrees values binding =
      .ok (binding.all fun e => (values.lookup e.1).any (Value.eq · e.2)) := by
  induction binding with
  | nil => rfl
  | cons e rest ih =>
    obtain ⟨name, v⟩ := e
    rw [NamedValues.names_cons, List.forall_mem_cons] at h
    obtain ⟨x, hx⟩ := NamedValues.exists_lookup h.1
    rw [agrees, NamedValues.get_eq_ok.2 hx, Checked.bind_ok, List.all_cons, hx, Option.any_some]
    split
    · next he => rw [ih h.2, he, Bool.true_and]
    · next he => rw [Bool.eq_false_iff.2 he, Bool.false_and]; rfl

/-- What `produce` does with a tuple of a source. -/
def producedRow (r : StoredRelation) (s : Source) (binding : NamedValues) (row : List Value) :
    Checked (Option (List Value)) := do
  match ← r.complete s row with
  | none => return none
  | some values =>
    if ← agrees values binding then
      return some (← r.attributes.mapM fun name => NamedValues.get values name)
    else return none

theorem produce_eq (s : Source) (binding : NamedValues) : r.produce s binding =
    (s.scan (binding.restrict s.columns)).filterMap (r.producedRow s binding) := rfl

theorem project_get (hn : name ∈ r.attributes) {w : Value}
    (hw : u[r.primary.columns.idxOf name]? = some w) :
    (r.project u)[r.attributes.idxOf name]? = some w := by
  have hi : r.attributes.idxOf name < r.attributes.length := List.idxOf_lt_length_iff.2 hn
  rw [project, List.getElem?_map, List.getElem?_eq_getElem hi, List.getElem_idxOf,
    Option.map_some, List.getD_eq_getElem?_getD, hw, Option.getD_some]

namespace Keeps

variable (H : r.Keeps S K rows) {binding : NamedValues}

include H

/-- The values of the tuples of the relation come from the primary source. -/
theorem storesAll (ht : t ∈ r.tuples) : r.StoresAll r.attributes t := by
  obtain ⟨asks, hprimary, -⟩ := H.primary
  rw [H.tuples_eq] at ht
  obtain ⟨u, hu, rfl⟩ := List.mem_map.1 ht
  intro name hn
  obtain ⟨v, hv, -⟩ := hprimary.value hu (H.wellFormed.attributes_mem name hn)
  exact ⟨v, project_get hn hv, r.primary, List.mem_cons_self, _, H.yields_primary, u, hu, hv⟩

/-- The tuples of the relation belong to the class. -/
theorem fits_project (hu : u ∈ r.primary.tuples rows) : K.Fits r.attributes (r.project u) := by
  refine ⟨by simp [project], fun w hw => ?_⟩
  obtain ⟨name, hn, rfl⟩ := List.mem_map.1 hw
  obtain ⟨v, hv, hc⟩ := H.stored hu hn
  rwa [List.getD_eq_getElem?_getD, hv]

theorem fits (ht : t ∈ r.tuples) : K.Fits r.attributes t := by
  rw [H.tuples_eq] at ht
  obtain ⟨u, hu, rfl⟩ := List.mem_map.1 ht
  exact H.fits_project hu

section

variable (M : r.Mirrors S s asks rows others) (ht : t ∈ s.tuples others)
  (hu : u ∈ r.primary.tuples rows) (hm : r.Matches s t u)
  (hb : ∀ name ∈ binding.names, name ∈ r.attributes) (hk : ∀ e ∈ binding, K.carrier e.2)

include M ht hu hm hb hk

/-- A tuple of a source becomes the tuple of the relation that it corresponds to, if that has the
bound values. -/
theorem producedRow_spec (hs : s ∈ r.sources) : ∃ o, r.producedRow s binding t = .ok o ∧
    (∀ x, o = some x → K.Fits r.attributes x ∧ r.StoresAll r.attributes x) ∧
    o.map K.codes = if binding.holds r.attributes (r.project u) then some (K.codes (r.project u))
      else none := by
  obtain ⟨values, hc, hall⟩ := H.complete_spec M ht hu hm hs
  choose! v w hv hstored hw hcv hcw he using hall
  have hnames : ∀ name ∈ r.attributes, name ∈ values.names := fun name hn =>
    NamedValues.lookup_isSome_iff.1 (hv name hn ▸ rfl)
  have hagree : (binding.all fun e => (values.lookup e.1).any (Value.eq · e.2)) =
      binding.holds r.attributes (r.project u) := by
    rw [NamedValues.holds, Bool.eq_iff_iff, List.all_eq_true, List.all_eq_true]
    refine forall₂_congr fun e hmem => ?_
    have hn := hb e.1 (List.mem_map_of_mem hmem)
    rw [hv _ hn, project_get hn (hw _ hn), Option.any_some, Option.any_some,
      K.eq_iff (hcv _ hn) (hk e hmem), K.eq_iff (hcw _ hn) (hk e hmem),
      (K.eq_iff (hcv _ hn) (hcw _ hn)).1 (he _ hn)]
  have hread : r.attributes.mapM (fun name => NamedValues.get values name) =
      .ok (r.attributes.map v) :=
    Checked.mapM_of_forall fun name hn => NamedValues.get_eq_ok.2 (hv name hn)
  have hcodes : K.codes (r.attributes.map v) = K.codes (r.project u) := by
    rw [project, ValueClass.codes, ValueClass.codes, List.map_map, List.map_map]
    refine List.map_congr_left fun name hn => ?_
    rw [Function.comp_apply, Function.comp_apply, List.getD_eq_getElem?_getD, hw name hn,
      Option.getD_some]
    exact (K.eq_iff (hcv name hn) (hcw name hn)).1 (he name hn)
  rw [producedRow, hc, Checked.bind_ok]
  dsimp only
  rw [agrees_eq fun name hn => hnames name (hb name hn), hagree, Checked.bind_ok]
  by_cases hh : binding.holds r.attributes (r.project u)
  · rw [if_pos hh, if_pos hh, hread]
    refine ⟨_, rfl, ?_, congrArg some hcodes⟩
    rintro _ ⟨⟩
    refine ⟨⟨List.length_map .., fun x hx => ?_⟩, fun name hn => ⟨v name, ?_, hstored name hn⟩⟩
    · obtain ⟨name, hn, rfl⟩ := List.mem_map.1 hx
      exact hcv name hn
    · have hi := List.idxOf_lt_length_iff.2 hn
      rw [List.getElem?_map, List.getElem?_eq_getElem hi, List.getElem_idxOf, Option.map_some]
  · rw [if_neg hh, if_neg hh]
    refine ⟨none, rfl, ?_, rfl⟩
    rintro _ ⟨⟩

/-- A bound value that a source can have is had by a tuple exactly if its tuple of the relation has
it. -/
theorem any_eq_iff {e : Name × Value} (he : e ∈ binding) (hc : e.1 ∈ s.columns) :
    (∃ x, t[s.columns.idxOf e.1]? = some x ∧ Value.eq x e.2 = true) ↔
      ∃ x, (r.project u)[r.attributes.idxOf e.1]? = some x ∧ Value.eq x e.2 = true := by
  have hn := hb e.1 (List.mem_map_of_mem he)
  obtain ⟨v, w, hv, hw, hcv, hcw, heq⟩ := H.matched M ht hu hm hn hc
  simp only [hv, project_get hn hw, Option.some.injEq, exists_eq_left']
  rw [K.eq_iff hcv (hk e he), (K.eq_iff hcv hcw).1 heq, ← K.eq_iff hcw (hk e he)]

/-- A tuple of a source has the bound values that it can have, if its tuple of the relation has
all of them. -/
theorem holds_of_project
    (hh : binding.holds r.attributes (r.project u) = true) :
    (binding.restrict s.columns).holds s.columns t = true := by
  rw [NamedValues.holds_iff] at hh ⊢
  intro e he
  obtain ⟨hmem, hc⟩ := NamedValues.mem_restrict.1 he
  exact (H.any_eq_iff M ht hu hm hb hk hmem hc).2 (hh e hmem)

/-- The converse holds if the source can have all bound values. -/
theorem project_of_holds (hc : ∀ name ∈ binding.names, name ∈ s.columns)
    (hh : (binding.restrict s.columns).holds s.columns t = true) :
    binding.holds r.attributes (r.project u) = true := by
  rw [NamedValues.holds_iff] at hh ⊢
  intro e he
  have hcol := hc e.1 (List.mem_map_of_mem he)
  exact (H.any_eq_iff M ht hu hm hb hk he hcol).1 (hh e (NamedValues.mem_restrict.2 ⟨he, hcol⟩))

end

/-- A lookup through a source finds the tuples with the bound values, if the source does. -/
theorem produce_spec (hs : s ∈ r.sources) (M : r.Mirrors S s asks rows others)
    (hb : ∀ name ∈ binding.names, name ∈ r.attributes) (hk : ∀ e ∈ binding, K.carrier e.2)
    (hscan : (s.scan (binding.restrict s.columns)).Yields
      ((s.tuples others).filter ((binding.restrict s.columns).holds s.columns))) :
    ∃ out, (r.produce s binding).Yields out ∧
      (∀ x ∈ out, K.Fits r.attributes x ∧ r.StoresAll r.attributes x) ∧
      (out.map K.codes).Perm ((r.tuples.filter (binding.holds r.attributes)).map K.codes) := by
  obtain ⟨matched, hperm, hmatch⟩ := M.corresponds
  have hin : ∀ u ∈ matched, u ∈ r.primary.tuples rows := fun u hu => hperm.mem_iff.1 hu
  have hrow : ∀ t ∈ s.tuples others, ∃ o, r.producedRow s binding t = .ok o ∧
      (∀ x, o = some x → K.Fits r.attributes x ∧ r.StoresAll r.attributes x) ∧
      ∀ u ∈ matched, r.Matches s t u → o.map K.codes =
        if binding.holds r.attributes (r.project u) then some (K.codes (r.project u))
        else none := by
    intro t ht
    obtain ⟨u, hu, hm⟩ := exists_of_forall₂ hmatch.flip ht
    obtain ⟨o, ho, hfit, -⟩ := H.producedRow_spec M ht (hin u hu) hm hb hk hs
    refine ⟨o, ho, hfit, fun u' hu' hm' => ?_⟩
    obtain ⟨o', ho', -, hcodes⟩ := H.producedRow_spec M ht (hin u' hu') hm' hb hk hs
    cases ho.symm.trans ho'
    exact hcodes
  choose! o ho hfit hcodes using hrow
  have hy := hscan.filterMap fun t ht => ho t (List.mem_of_mem_filter ht)
  refine ⟨_, produce_eq (r := r) s binding ▸ hy, fun x hx => ?_, ?_⟩
  · obtain ⟨t, ht, hx⟩ := List.mem_filterMap.1 hx
    exact hfit t (List.mem_of_mem_filter ht) x hx
  · -- Leaving out tuples beforehand loses none that `producedRow` would keep.
    have hall : (((s.tuples others).filter ((binding.restrict s.columns).holds s.columns)).filterMap
        o).map K.codes = (s.tuples others).filterMap fun t => (o t).map K.codes := by
      rw [List.map_filterMap, List.filterMap_filter]
      refine List.filterMap_congr fun t ht => ?_
      split
      · rfl
      · next hn =>
        obtain ⟨u, hu, hm⟩ := exists_of_forall₂ hmatch.flip ht
        rw [hcodes t ht u hu hm, if_neg]
        exact fun hh => hn (H.holds_of_project M ht (hin u hu) hm hb hk hh)
    have htuples : (r.tuples.filter (binding.holds r.attributes)).map K.codes =
        (r.primary.tuples rows).filterMap fun u => if binding.holds r.attributes (r.project u) then
          some (K.codes (r.project u)) else none := by
      rw [H.tuples_eq, List.filter_map, List.map_map, ← List.filterMap_eq_map,
        List.filterMap_filter]
      refine List.filterMap_congr fun u _ => ?_
      rfl
    rw [hall, htuples, filterMap_eq_of_forall₂ hmatch fun t ht u hu hm => hcodes t ht u hu hm]
    exact hperm.filterMap _

end Keeps

/-! ## Lookups -/

theorem rows_of_lookup {binding : NamedValues} {found : LookupResult}
    (h : r.lookup binding = .ok found) :
    found.rows () = r.produce (r.selectSource binding.names).1 binding := by
  simp only [lookup, Checked.bind_eq_ok, Checked.pure_def, Except.ok.injEq] at h
  obtain ⟨-, -, -, -, -, -, rfl⟩ := h
  rfl

section

variable (H : r.Keeps S K rows) {binding : NamedValues}
  (hb : ∀ name ∈ binding.names, name ∈ r.attributes)

include H hb

/-- A tuple of the primary source has the bound values if its tuple of the relation has them. -/
theorem Keeps.holds_project (hu : u ∈ r.primary.tuples rows) :
    binding.holds r.attributes (r.project u) = binding.holds r.primary.columns u := by
  rw [NamedValues.holds, NamedValues.holds, Bool.eq_iff_iff, List.all_eq_true, List.all_eq_true]
  refine forall₂_congr fun e he => ?_
  have hn := hb e.1 (List.mem_map_of_mem he)
  obtain ⟨v, hv, -⟩ := H.stored hu hn
  rw [project_get hn hv, hv]

/-- The primary source has all attributes, so that nothing is left to be fetched. -/
theorem Keeps.producedRow_primary (hu : u ∈ r.primary.tuples rows) :
    r.producedRow r.primary binding u =
      .ok (if binding.holds r.attributes (r.project u) then some (r.project u) else none) := by
  have hnames : NamedValues.names (r.primary.columns.zip u) = r.primary.columns := by
    obtain ⟨x, -, rfl⟩ := List.mem_map.1 hu
    exact NamedValues.names_zip Source.present_length.ge
  have hagree : (binding.all fun e => ((r.primary.columns.zip u).lookup e.1).any (Value.eq · e.2)) =
      binding.holds r.attributes (r.project u) := by
    rw [H.holds_project hb hu, NamedValues.holds, Bool.eq_iff_iff, List.all_eq_true,
      List.all_eq_true]
    refine forall₂_congr fun e he => ?_
    rw [NamedValues.lookup_zip (H.wellFormed.attributes_mem _ (hb e.1 (List.mem_map_of_mem he)))]
  have hread : r.attributes.mapM (fun name => NamedValues.get (r.primary.columns.zip u) name) =
      .ok (r.project u) := by
    refine Checked.mapM_of_forall fun name hn => NamedValues.get_eq_ok.2 ?_
    obtain ⟨v, hv, -⟩ := H.stored hu hn
    rw [NamedValues.lookup_zip (H.wellFormed.attributes_mem name hn), List.getD_eq_getElem?_getD,
      hv, Option.getD_some]
  rw [producedRow, complete, H.wellFormed.covers_primary, if_pos rfl, Checked.pure_def,
    Checked.bind_ok]
  dsimp only
  rw [agrees_eq, hagree, Checked.bind_ok, hread]
  · split <;> rfl
  · rw [hnames]
    exact fun name hn => H.wellFormed.attributes_mem name (hb name hn)

/-- A lookup through the primary source filters the tuples of the relation. -/
theorem Keeps.produce_primary
    (hscan : (r.primary.scan (binding.restrict r.primary.columns)).Yields
      ((r.primary.tuples rows).filter
        ((binding.restrict r.primary.columns).holds r.primary.columns))) :
    (r.produce r.primary binding).Yields (r.tuples.filter (binding.holds r.attributes)) := by
  have hrestrict : binding.restrict r.primary.columns = binding :=
    List.filter_eq_self.2 fun e he =>
      decide_eq_true (H.wellFormed.attributes_mem e.1 (hb e.1 (List.mem_map_of_mem he)))
  have hy := hscan.filterMap fun u hu => H.producedRow_primary hb (List.mem_of_mem_filter hu)
  have hlist : ((r.primary.tuples rows).filter (binding.holds r.primary.columns)).filterMap
      (fun u => if binding.holds r.attributes (r.project u) then some (r.project u) else none) =
      r.tuples.filter (binding.holds r.attributes) := by
    rw [H.tuples_eq, List.filter_map, ← List.filterMap_eq_map, List.filterMap_filter,
      List.filterMap_filter]
    refine List.filterMap_congr fun u hu => ?_
    rw [H.holds_project hb hu, Function.comp_apply, H.holds_project hb hu]
    split <;> rfl
  rw [hrestrict, hlist] at hy
  rw [produce_eq, hrestrict]
  exact hy

end

end StoredRelation
end JoinOrder
