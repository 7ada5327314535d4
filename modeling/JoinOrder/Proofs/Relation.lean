import JoinOrder.Proofs.Stored

/-!
# Relations and their views

A view answers with the tuples of its relation in another order of the attributes, so that it shows
the rows of the primary source (`Relation.tuples`), as the stored relation does
(`Relation.Shows.lookup_spec`).
-/

namespace JoinOrder

namespace ReorderedView

variable {κ : Type} {K : ValueClass κ} {v : ReorderedView} {t : List Value} {name : Name}
  {tuples : List (List Value)}

/-- A tuple of the relation in the order of the view. -/
def permute (v : ReorderedView) (t : List Value) : List Value :=
  v.permutation.map fun i => t.getD i .null

/-- What a view makes of the result of a lookup. -/
def present (v : ReorderedView) (found : LookupResult) : LookupResult :=
  { found with rows := fun _ => (found.rows ()).map fun row => v.permutation.mapM (atPosition row) }

theorem mapM_permutation (hv : v.attributes.Perm v.base.attributes)
    (ht : t.length = v.base.attributes.length) :
    v.permutation.mapM (atPosition t) = .ok (v.permute t) := by
  refine Checked.mapM_of_forall fun i hi => atPosition_eq_ok.2 ?_
  obtain ⟨name, hn, rfl⟩ := List.mem_map.1 hi
  have hi : v.base.attributes.idxOf name < t.length := by
    rw [ht, List.idxOf_lt_length_iff]
    exact hv.mem_iff.1 hn
  rw [List.getD_eq_getElem?_getD, List.getElem?_eq_getElem hi, Option.getD_some]

theorem lookup_eq {binding : NamedValues} {found : LookupResult}
    (hb : ∀ name ∈ binding.names, name ∈ v.attributes) (h : v.base.lookup binding = .ok found) :
    v.lookup binding = .ok (v.present found) := by
  rw [lookup, requireAttributes_ok hb, Checked.bind_ok, h]
  rfl

section

variable (hv : v.attributes.Perm v.base.attributes) (H : K.Fits v.base.attributes t)

include hv H

theorem base_value (hn : name ∈ v.attributes) :
    ∃ x, t[v.base.attributes.idxOf name]? = some x ∧ K.carrier x := by
  obtain ⟨x, hx, hc, -⟩ := H.value (hv.mem_iff.1 hn)
  exact ⟨x, hx, hc⟩

theorem permute_get (hn : name ∈ v.attributes) :
    (v.permute t)[v.attributes.idxOf name]? = t[v.base.attributes.idxOf name]? := by
  obtain ⟨x, hx, -⟩ := base_value hv H hn
  have hi : v.attributes.idxOf name < v.attributes.length := List.idxOf_lt_length_iff.2 hn
  rw [permute, permutation, List.map_map, List.getElem?_map, List.getElem?_eq_getElem hi,
    List.getElem_idxOf, Option.map_some, Function.comp_apply, List.getD_eq_getElem?_getD, hx,
    Option.getD_some]

theorem fits_permute : K.Fits v.attributes (v.permute t) := by
  refine ⟨by simp [permute, permutation], fun x hx => ?_⟩
  rw [permute, permutation, List.map_map] at hx
  obtain ⟨name, hn, rfl⟩ := List.mem_map.1 hx
  obtain ⟨x, hx, hc⟩ := base_value hv H hn
  rwa [Function.comp_apply, List.getD_eq_getElem?_getD, hx]

/-- Rearranging a tuple rearranges its codes. -/
theorem codes_permute :
    K.codes (v.permute t) = v.permutation.filterMap ((K.codes t)[·]?) := by
  rw [permute, permutation, List.map_map, ValueClass.codes, List.map_map, List.filterMap_map,
    ← List.filterMap_eq_map]
  refine List.filterMap_congr fun name hn => ?_
  obtain ⟨x, hx, -⟩ := base_value hv H hn
  rw [Function.comp_apply, Function.comp_apply, Function.comp_apply, Function.comp_apply,
    List.getD_eq_getElem?_getD, hx, ValueClass.codes, List.getElem?_map, hx]
  rfl

theorem holds_permute {binding : NamedValues} (hb : ∀ name ∈ binding.names, name ∈ v.attributes) :
    binding.holds v.attributes (v.permute t) = binding.holds v.base.attributes t := by
  rw [NamedValues.holds, NamedValues.holds, Bool.eq_iff_iff, List.all_eq_true, List.all_eq_true]
  refine forall₂_congr fun e he => ?_
  rw [permute_get hv H (hb e.1 (List.mem_map_of_mem he))]

end

theorem yields_present {found : LookupResult} {rows : List (List Value)}
    (hv : v.attributes.Perm v.base.attributes) (hy : (found.rows ()).Yields rows)
    (hfit : ∀ t ∈ rows, K.Fits v.base.attributes t) :
    ((v.present found).rows ()).Yields (rows.map v.permute) := by
  have hrow : ∀ t ∈ rows, v.permutation.mapM (atPosition t) = .ok (v.permute t) := fun t ht =>
    mapM_permutation hv (hfit t ht).1
  exact hy.map hrow

/-- A view filters the rearranged tuples of its relation. -/
theorem codes_present (hv : v.attributes.Perm v.base.attributes) {binding : NamedValues}
    {out : List (List Value)} (hb : ∀ name ∈ binding.names, name ∈ v.attributes)
    (hfits : ∀ t ∈ tuples, K.Fits v.base.attributes t)
    (hout : ∀ t ∈ out, K.Fits v.base.attributes t)
    (h : (out.map K.codes).Perm
      ((tuples.filter (binding.holds v.base.attributes)).map K.codes)) :
    ((out.map v.permute).map K.codes).Perm
      (((tuples.map v.permute).filter (binding.holds v.attributes)).map K.codes) := by
  have hcodes : (out.map v.permute).map K.codes =
      (out.map K.codes).map fun cs => v.permutation.filterMap (cs[·]?) := by
    rw [List.map_map, List.map_map]
    exact List.map_congr_left fun t ht => codes_permute hv (hout t ht)
  have htuples : ((tuples.map v.permute).filter (binding.holds v.attributes)).map K.codes =
      ((tuples.filter (binding.holds v.base.attributes)).map K.codes).map
        fun cs => v.permutation.filterMap (cs[·]?) := by
    have hfilter : tuples.filter (binding.holds v.attributes ∘ v.permute) =
        tuples.filter (binding.holds v.base.attributes) :=
      List.filter_congr fun t ht => holds_permute hv (hfits t ht) hb
    rw [List.filter_map, hfilter, List.map_map, List.map_map]
    refine List.map_congr_left fun t ht => ?_
    exact codes_permute hv (hfits t (List.mem_of_mem_filter ht))
  exact hcodes ▸ htuples ▸ h.map _

/-- The values of a rearranged tuple come from the same sources. -/
theorem storesAll_permute (hv : v.attributes.Perm v.base.attributes)
    (ht : K.Fits v.base.attributes t) (h : v.base.StoresAll v.base.attributes t) :
    v.base.StoresAll v.attributes (v.permute t) := by
  intro name hn
  rw [permute_get hv ht hn]
  exact h name (hv.mem_iff.1 hn)

end ReorderedView

namespace Relation

/-- The tuples of a relation are the rows of its primary source, or the listed ones. -/
def tuples : Relation → List (List Value)
  | stored r => r.tuples
  | view v => v.base.tuples.map v.permute
  | listed r => r.rows

/-- A relation that is a stored one, or a view of it. -/
inductive Shows (r : StoredRelation) : Relation → Prop
  | stored : Shows r (.stored r)
  | view {attributes : List Name} (h : attributes.Perm r.attributes) :
    Shows r (.view ⟨r, attributes⟩)

namespace Shows

variable {κ : Type} {K : ValueClass κ} {relation : Relation} {r : StoredRelation} {name : Name}

theorem mem_attributes (h : relation.Shows r) :
    name ∈ relation.attributes ↔ name ∈ r.attributes := by
  cases h with
  | stored => rfl
  | view h => exact h.mem_iff

theorem attributes_nodup (h : relation.Shows r) (hd : r.attributes.Nodup) :
    relation.attributes.Nodup := by
  cases h with
  | stored => exact hd
  | view h => exact h.nodup_iff.2 hd

/-- Only one stored relation is shown. -/
theorem unique {r' : StoredRelation} (h : relation.Shows r) (h' : relation.Shows r') : r' = r := by
  cases h <;> cases h' <;> rfl

variable (h : relation.Shows r) (hfits : ∀ t ∈ r.tuples, K.Fits r.attributes t)

include h hfits

theorem fits : ∀ t ∈ relation.tuples, K.Fits relation.attributes t := by
  cases h with
  | stored => exact hfits
  | view h =>
    intro t ht
    obtain ⟨u, hu, rfl⟩ := List.mem_map.1 ht
    exact ReorderedView.fits_permute h (hfits u hu)

theorem storesAll (hs : ∀ t ∈ r.tuples, r.StoresAll r.attributes t) :
    ∀ t ∈ relation.tuples, r.StoresAll relation.attributes t := by
  cases h with
  | stored => exact hs
  | view h =>
    intro t ht
    obtain ⟨u, hu, rfl⟩ := List.mem_map.1 ht
    exact ReorderedView.storesAll_permute (v := ⟨r, _⟩) h (hfits u hu) (hs u hu)

/-- What is found in the stored relation is shown in the order of the attributes. -/
theorem lookup_spec {binding : NamedValues} {found : LookupResult} {out : List (List Value)}
    (hb : ∀ name ∈ binding.names, name ∈ r.attributes) (hl : r.lookup binding = .ok found)
    (hy : (found.rows ()).Yields out)
    (hout : ∀ x ∈ out, K.Fits r.attributes x ∧ r.StoresAll r.attributes x)
    (hperm : (out.map K.codes).Perm
      ((r.tuples.filter (binding.holds r.attributes)).map K.codes)) :
    ∃ found out, relation.lookup binding = .ok found ∧ (found.rows ()).Yields out ∧
      (∀ x ∈ out, K.Fits relation.attributes x ∧ r.StoresAll relation.attributes x) ∧
      (out.map K.codes).Perm
        ((relation.tuples.filter (binding.holds relation.attributes)).map K.codes) := by
  cases h with
  | stored => exact ⟨found, out, hl, hy, hout, hperm⟩
  | @view attributes h =>
    have hnames : ∀ name ∈ binding.names, name ∈ attributes := fun name hn =>
      h.mem_iff.2 (hb name hn)
    refine ⟨_, _, ReorderedView.lookup_eq (v := ⟨r, attributes⟩) hnames hl,
      ReorderedView.yields_present (v := ⟨r, attributes⟩) h hy fun t ht => (hout t ht).1, ?_,
      ReorderedView.codes_present (v := ⟨r, attributes⟩) h hnames hfits
        (fun t ht => (hout t ht).1) hperm⟩
    intro x hx
    obtain ⟨t, ht, rfl⟩ := List.mem_map.1 hx
    obtain ⟨hfit, hstores⟩ := hout t ht
    exact ⟨ReorderedView.fits_permute h hfit, ReorderedView.storesAll_permute h hfit hstores⟩

end Shows
end Relation
end JoinOrder
