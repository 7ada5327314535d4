import Mathlib.Algebra.Order.BigOperators.Group.Finset
import JoinOrder.Proofs.Counts
import JoinOrder.Proofs.Strategy

/-!
# Rows of an atom that agree with a row

The different tuples of an atom that maps all attributes mean different rows, so that the rows
found for a row can be counted as tuples, or by the values that they give to the variables.
-/

namespace JoinOrder

/-! ## Counting by values -/

/-- Rows that differ in some variables are no more than the combinations of their values. -/
theorem card_le_prod_values {κ : Type} [DecidableEq κ] (s : Finset (View κ)) (vars : List Variable)
    (h : ∀ f ∈ s, ∀ g ∈ s, (∀ v ∈ vars, f v = g v) → f = g) :
    s.card ≤ (vars.map fun v => (s.image (· v)).card).prod := by
  classical
  induction vars generalizing s with
  | nil =>
    rw [List.map_nil, List.prod_nil, Finset.card_le_one]
    exact fun f hf g hg => h f hf g hg nofun
  | cons v vars ih =>
    rw [List.map_cons, List.prod_cons, Nat.mul_comm]
    refine Finset.card_le_mul_card_image s _ fun x _ => ?_
    -- The rows with one value of the first variable differ in the others.
    have hsub : {f ∈ s | f v = x} ⊆ s := Finset.filter_subset ..
    refine Nat.le_trans (ih {f ∈ s | f v = x} fun f hf g hg hfg => ?_) ?_
    · refine h f (hsub hf) g (hsub hg) (List.forall_mem_cons.2 ⟨?_, hfg⟩)
      exact (Finset.mem_filter.1 hf).2.trans (Finset.mem_filter.1 hg).2.symm
    · clear ih h
      induction vars with
      | nil => exact Nat.le_refl _
      | cons w vars ih =>
        rw [List.map_cons, List.prod_cons, List.map_cons, List.prod_cons]
        exact Nat.mul_le_mul (Finset.card_le_card (Finset.image_subset_image hsub)) ih

/-! ## Rows of an atom -/

namespace Atom

variable {κ : Type} {K : ValueClass κ} {a : Atom} {tuples : List (List Value)} {f g : View κ}
  {vars : List Variable} {name : Name}

open Classical in
/-- The rows of an atom that agree with a row. -/
noncomputable def found (K : ValueClass κ) (a : Atom) (tuples : List (List Value)) (f : View κ) :
    Finset (View κ) := ((a.bag K tuples).filter f.Agree).toFinset

theorem mem_found (h : a.WellFormed) : g ∈ a.found K tuples f ↔
    f.Agree g ∧ ∃ t ∈ tuples, a.Means (K.codes t) g := by
  classical
  rw [found, Multiset.mem_toFinset, Multiset.mem_filter, bag, Multiset.mem_coe,
    List.mem_filterMap, and_comm]
  refine and_congr_right fun _ => ?_
  constructor
  · rintro ⟨_, hc, hm⟩
    obtain ⟨t, ht, rfl⟩ := List.mem_map.1 hc
    exact ⟨t, ht, (meaning_eq_some h).1 hm⟩
  · rintro ⟨t, ht, hm⟩
    exact ⟨_, List.mem_map_of_mem ht, (meaning_eq_some h).2 hm⟩

/-- What some variables are mapped to is mapped by one of them. -/
theorem mem_attributes (hn : name ∈ a.attributes vars) :
    ∃ e ∈ a.bindings, e.1 ∈ vars ∧ name ∈ e.2 := by
  obtain ⟨v, hv, hn⟩ := List.mem_flatMap.1 hn
  cases hl : a.bindings.lookup v with
  | none => simp [hl] at hn
  | some names =>
    rw [hl, Option.getD_some] at hn
    obtain ⟨before, behind, hb, -⟩ := List.lookup_eq_some_iff.1 hl
    exact ⟨(v, names), by simp [hb], hv, hn⟩

/-- A row binds what the variables that it has values of are mapped to. -/
theorem mem_names_relationBinding {row : Assignment} (hn : name ∈ a.attributes vars)
    (hv : ∀ v ∈ vars, ∃ x, row.get? v = some x) : name ∈ (a.relationBinding row).names := by
  obtain ⟨e, he, hbound, hmem⟩ := mem_attributes hn
  obtain ⟨x, hx⟩ := hv e.1 hbound
  exact List.mem_map.2 ⟨(name, x), mem_relationBinding.2 ⟨e, he, hmem, hx⟩, rfl⟩

end Atom

/-! ## Constraints -/

/-- The values of a tuple under some names, up to equality. -/
def ValueClass.under {κ : Type} (K : ValueClass κ) (attributes names : List Name) (t : List Value) :
    List (Option κ) :=
  names.map fun name => (K.codes t)[attributes.idxOf name]?

/-- The upper bound of a constraint is true of some tuples: those that have the domain values of one
of them have no more range values. -/
def DegreeConstraint.Holds {κ : Type} [DecidableEq κ] (K : ValueClass κ) (attributes : List Name)
    (tuples : List (List Value)) (c : DegreeConstraint) : Prop :=
  ∀ n, c.upper = some n → ∀ t ∈ tuples,
    ((tuples.filter fun u => K.under attributes c.domain u = K.under attributes c.domain t).map
      (K.under attributes c.range)).toFinset.card ≤ n

/-- Tuples that have the same domain values have no more values under one name of the range. -/
theorem DegreeConstraint.Holds.card_le {κ : Type} [DecidableEq κ] {K : ValueClass κ}
    {attributes : List Name} {tuples : List (List Value)} {c : DegreeConstraint} {n : Nat}
    {target : Name} {values : Finset (Option κ)} (H : c.Holds K attributes tuples)
    (hn : c.upper = some n) (ht : target ∈ c.range) (key : Name → Option κ)
    (h : ∀ x ∈ values, ∃ t ∈ tuples, (K.codes t)[attributes.idxOf target]? = x ∧
      ∀ name ∈ c.domain, (K.codes t)[attributes.idxOf name]? = key name) : values.card ≤ n := by
  rcases values.eq_empty_or_nonempty with rfl | ⟨x₀, hx₀⟩
  · exact Nat.zero_le n
  obtain ⟨t₀, ht₀, -, hkey₀⟩ := h x₀ hx₀
  have hi : c.range.idxOf target < c.range.length := List.idxOf_lt_length_iff.2 ht
  have hsub : values ⊆ ((tuples.filter fun t => K.under attributes c.domain t =
      K.under attributes c.domain t₀).map (K.under attributes c.range)).toFinset.image
        fun found => (found[c.range.idxOf target]?).join := by
    intro x hx
    obtain ⟨t, htuple, hvalue, hkey⟩ := h x hx
    have hsame : K.under attributes c.domain t = K.under attributes c.domain t₀ :=
      List.map_congr_left fun name hd => (hkey name hd).trans (hkey₀ name hd).symm
    refine Finset.mem_image.2 ⟨K.under attributes c.range t, ?_, ?_⟩
    · rw [List.mem_toFinset]
      exact List.mem_map_of_mem (List.mem_filter.2 ⟨htuple, decide_eq_true hsame⟩)
    · rw [ValueClass.under, List.getElem?_map, List.getElem?_eq_getElem hi, List.getElem_idxOf,
        Option.map_some, Option.join_some, hvalue]
  exact Nat.le_trans (Finset.card_le_card hsub)
    (Nat.le_trans Finset.card_image_le (H n hn t₀ ht₀))

namespace Atom

variable {κ : Type} [DecidableEq κ] {K : ValueClass κ} {T : Variable → Value → Prop} {a : Atom}
  {tuples : List (List Value)} {cs ds : List κ} {f g : View κ} {vars : List Variable}
  {known : Assignment}

omit [DecidableEq κ] in
theorem WellFormed.binds_relationBinding {row : Assignment} (h : a.WellFormed)
    (hx : ∀ v ∈ a.vars, ∀ x, row.get? v = some x → K.carrier x) :
    K.Binds a.relation.attributes (a.relationBinding row) :=
  ⟨h.names_relationBinding.2, carrier_relationBinding hx⟩

/-- What an atom asks its relation for, where its variables have values that they may have. -/
def Asks (K : ValueClass κ) (T : Variable → Value → Prop) (a : Atom) (binding : NamedValues) :
    Prop :=
  ∃ vars row, K.Assigns vars row ∧ row.Takes T ∧ a.relationBinding row = binding

omit [DecidableEq κ] in
/-- It asks for all tuples where no variable has a value. -/
theorem asks_nil : a.Asks K T [] := by
  refine ⟨[], [], ⟨List.nodup_nil, fun _ => .rfl, nofun⟩, nofun, ?_⟩
  refine List.eq_nil_iff_forall_not_mem.2 fun e he => ?_
  obtain ⟨_, -, -, hx⟩ := mem_relationBinding.1 he
  cases hx

/-- An atom that maps all attributes of a relation of different tuples, of which the declared
constraints are true. -/
structure Counted (K : ValueClass κ) (T : Variable → Value → Prop) (a : Atom)
    (tuples : List (List Value)) : Prop where
  wellFormed : a.WellFormed
  attributes_nodup : a.relation.attributes.Nodup
  covers : ∀ name ∈ a.relation.attributes, ∃ e ∈ a.bindings, name ∈ e.2
  fits : ∀ t ∈ tuples, K.Fits a.relation.attributes t
  counts : a.relation.Counts K (a.Asks K T) tuples
  distinct : (tuples.map K.codes).Nodup
  constraints : ∀ c ∈ a.relation.constraints, c.Holds K a.relation.attributes tuples

namespace Counted

variable (H : a.Counted K T tuples)

include H

/-- A row is meant by one tuple only. -/
theorem meaning_inj (hc : cs.length = a.relation.attributes.length)
    (hd : ds.length = a.relation.attributes.length) (hf : a.Means cs f) (hg : a.Means ds f) :
    cs = ds := by
  refine List.ext_getElem? fun i => ?_
  by_cases hi : i < a.relation.attributes.length
  · obtain ⟨e, he, hname⟩ := H.covers _ (List.getElem_mem hi)
    have hcs := hf.mapped e he _ hname
    have hds := hg.mapped e he _ hname
    rw [H.attributes_nodup.idxOf_getElem] at hcs hds
    exact hcs.symm.trans hds
  · rw [List.getElem?_eq_none (by omega), List.getElem?_eq_none (by omega)]

theorem bag_nodup : (a.bag K tuples).Nodup := by
  rw [bag, Multiset.coe_nodup, List.Nodup, List.pairwise_filterMap]
  refine H.distinct.imp_of_mem fun {cs ds} hc hd hne f hf g hg hfg => hne ?_
  subst hfg
  have hlen : ∀ cs ∈ tuples.map K.codes, cs.length = a.relation.attributes.length := by
    intro cs hc
    obtain ⟨t, ht, rfl⟩ := List.mem_map.1 hc
    rw [ValueClass.codes_length, (H.fits t ht).1]
  exact H.meaning_inj (hlen cs hc) (hlen ds hd) ((meaning_eq_some H.wellFormed).1 hf)
    ((meaning_eq_some H.wellFormed).1 hg)

/-- The rows of an atom that a row is joined with are the rows found for it. -/
theorem card_join : Multiset.card ({f} * a.bag K tuples) = (a.found K tuples f).card := by
  classical
  rw [single_join, Multiset.card_map, found, Multiset.toFinset_card_of_nodup]
  exact H.bag_nodup.filter _

/-- Of the tuples with known values, some mean the rows that are found. -/
theorem card_found_le (hk : K.Assigns vars known) (hw : (K.view known).Within f) :
    (a.found K tuples f).card ≤
      tuples.countP ((a.relationBinding known).holds a.relation.attributes) := by
  classical
  have hbag := bag_filter_holds H.wellFormed hk H.fits
  calc (a.found K tuples f).card ≤ Multiset.card ((a.bag K tuples).filter f.Agree) :=
        Multiset.toFinset_card_le _
    _ ≤ Multiset.card ((a.bag K tuples).filter (K.view known).Agree) := by
        refine Multiset.card_le_card (Multiset.monotone_filter_right _ fun g hg => ?_)
        exact fun v x y hx hy => hg v x y (hw v x hx) hy
    _ = Multiset.card (a.bag K (tuples.filter
          ((a.relationBinding known).holds a.relation.attributes))) := by rw [hbag]
    _ ≤ (tuples.filter ((a.relationBinding known).holds a.relation.attributes)).length := by
        rw [bag, Multiset.coe_card]
        exact Nat.le_trans (List.length_filterMap_le ..) (Nat.le_of_eq (List.length_map ..))
    _ = tuples.countP ((a.relationBinding known).holds a.relation.attributes) :=
        List.countP_eq_length_filter.symm

end Counted

end Atom
end JoinOrder
