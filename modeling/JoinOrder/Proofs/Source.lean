import JoinOrder.Proofs.Handle
import JoinOrder.Proofs.Lookup

/-!
# Scans of sources

Whatever a source asks its handle for, a scan yields the tuples of a full scan that have the bound
values (`Serves.scan_spec`): the handle only leaves out tuples that would not pass the checks.
-/

namespace JoinOrder
namespace Source

variable {s : Source} {bound key : List Name} {name p : Name} {binding : NamedValues} {i : Nat}
  {row : List Value} {rows : List (List Value)}

/-! ## Index keys -/

theorem sortKey_subset : ∀ name ∈ s.sortKey, name ∈ s.attributes := by
  intro name h
  obtain ⟨i, -, h⟩ := List.mem_filterMap.1 h
  exact List.mem_of_getElem? h

theorem mem_indexKeys : key ∈ s.indexKeys ↔
    (∃ n < s.sortKey.length, key = s.sortKey.take (n + 1)) ∨
      ∃ p, s.position = some p ∧ ∃ n ≤ s.sortKey.length, key = s.sortKey.take n ++ [p] := by
  unfold indexKeys
  cases hp : s.position with
  | none => simp [eq_comm]
  | some p =>
    simp only [List.mem_append, List.mem_map, List.mem_range, Nat.lt_succ_iff, Option.some.injEq,
      exists_eq_left', eq_comm]

/-- The best key is one of those that the bound attributes cover. -/
theorem bestAmong_mem {best : Option IndexMatch} {keys : List (List Name)} {m : IndexMatch}
    (h : bestAmong bound best keys = some m) :
    best = some m ∨ m.key ∈ keys ∧ ∀ name ∈ m.key, name ∈ bound := by
  induction keys generalizing best with
  | nil => exact .inl h
  | cons key rest ih =>
    rw [bestAmong] at h
    split at h
    · next ha =>
      cases h
      refine .inr ⟨List.mem_cons_self, fun name hn => ?_⟩
      simp only [NameSet.agree, NameSet.covers, Bool.and_eq_true, List.all_eq_true,
        decide_eq_true_eq] at ha
      exact ha.2 name hn
    split at h
    · next hc =>
      rcases ih h with h | ⟨hm, hs⟩
      · cases h
        refine .inr ⟨List.mem_cons_self, fun name hn => ?_⟩
        simp only [NameSet.covers, Bool.and_eq_true, List.all_eq_true, decide_eq_true_eq] at hc
        exact hc.1 name hn
      · exact .inr ⟨List.mem_cons_of_mem _ hm, hs⟩
    · exact (ih h).imp_right fun ⟨hm, hs⟩ => ⟨List.mem_cons_of_mem _ hm, hs⟩

theorem bestMatch_mem {m : IndexMatch} (h : s.bestMatch bound = some m) :
    m.key ∈ s.indexKeys ∧ ∀ name ∈ m.key, name ∈ bound :=
  (bestAmong_mem h).resolve_left nofun

/-- An exact key has all bound attributes. -/
theorem bestAmong_covers {best : Option IndexMatch} {keys : List (List Name)} {m : IndexMatch}
    (h : bestAmong bound best keys = some m) (he : m.exact = true) :
    best = some m ∨ ∀ name ∈ bound, name ∈ m.key := by
  induction keys generalizing best with
  | nil => exact .inl h
  | cons key rest ih =>
    rw [bestAmong] at h
    split at h
    · next ha =>
      cases h
      refine .inr fun name hn => ?_
      simp only [NameSet.agree, NameSet.covers, Bool.and_eq_true, List.all_eq_true,
        decide_eq_true_eq] at ha
      exact ha.1 name hn
    split at h
    · rcases ih h with h | h
      · cases h
        cases he
      · exact .inr h
    · exact ih h

theorem bestMatch_covers {m : IndexMatch} (h : s.bestMatch bound = some m)
    (he : m.exact = true) : ∀ name ∈ bound, name ∈ m.key :=
  (bestAmong_covers h he).resolve_left nofun

/-! ## Stored rows as tuples -/

theorem columns_eq (s : Source) : s.columns = s.attributes ++ s.position.toList := rfl

/-- Where the attributes of the sort key stand in a stored row. -/
def keyPlaces (s : Source) : List Nat := s.sortKey.map (s.stored.idxOf ·)

/-- The tuple that a scan makes of a stored row. -/
def present (s : Source) (r : StoredRow) : List Value :=
  s.attributes.map (fun name => r.2.getD (s.stored.idxOf name) .null) ++
    s.position.toList.map fun _ => .ofNat r.1

/-- The tuples of a full scan. -/
def tuples (s : Source) (rows : List (List Value)) : List (List Value) :=
  (numbered rows).map s.present

@[simp] theorem present_length {r : StoredRow} : (s.present r).length = s.columns.length := by
  simp [present, columns_eq]

/-- Columns have different names, and the attributes are those that are stored. -/
structure WellFormed (s : Source) : Prop where
  columns_nodup : s.columns.Nodup
  stored_perm : s.stored.Perm s.attributes

/-- A stored row has a value for each attribute. -/
def Fits (s : Source) (r : StoredRow) : Prop := r.2.length = s.stored.length

theorem WellFormed.position_not_mem (W : s.WellFormed) (hp : s.position = some p) :
    p ∉ s.attributes := by
  have hd := W.columns_nodup
  rw [columns_eq, hp] at hd
  exact fun hm => (List.nodup_append.1 hd).2.2 p hm p (by simp) rfl

theorem WellFormed.attributes_nodup (W : s.WellFormed) : s.attributes.Nodup :=
  (List.nodup_append.1 W.columns_nodup).1

theorem WellFormed.present_position (W : s.WellFormed) {r : StoredRow} (hp : s.position = some p) :
    (s.present r)[s.columns.idxOf p]? = some (.ofNat r.1) := by
  have hn := W.position_not_mem hp
  rw [present, columns_eq, List.idxOf_append_of_notMem hn, hp]
  simp

section

variable (W : s.WellFormed) {r : StoredRow} (hr : s.Fits r)

include W hr

/-- The value of an attribute of a stored row. -/
theorem Fits.get_stored (hn : name ∈ s.attributes) : ∃ v, r.2[s.stored.idxOf name]? = some v := by
  have hi : s.stored.idxOf name < r.2.length := by
    rw [hr, List.idxOf_lt_length_iff]
    exact W.stored_perm.mem_iff.2 hn
  exact ⟨_, List.getElem?_eq_getElem hi⟩

theorem Fits.present_attribute (hn : name ∈ s.attributes) :
    (s.present r)[s.columns.idxOf name]? = r.2[s.stored.idxOf name]? := by
  obtain ⟨v, hv⟩ := hr.get_stored W hn
  have hi : s.attributes.idxOf name < s.attributes.length := List.idxOf_lt_length_iff.2 hn
  rw [present, columns_eq, List.idxOf_append_of_mem hn, List.getElem?_append_left]
  · rw [List.getElem?_map, List.getElem?_eq_getElem hi, List.getElem_idxOf, Option.map_some,
      List.getD_eq_getElem?_getD, hv, Option.getD_some]
  · rwa [List.length_map]

theorem Fits.arrange_eq : s.arrange r.2 =
    .ok (s.attributes.map fun name => r.2.getD (s.stored.idxOf name) .null) := by
  unfold arrange
  split
  · next h =>
    refine congrArg Except.ok (List.ext_getElem ?_ fun i hi hi' => ?_)
    · rw [List.length_map, ← h]
      exact hr
    · rw [List.length_map] at hi'
      simp only [List.getElem_map, h, W.attributes_nodup.idxOf_getElem,
        List.getD_eq_getElem?_getD, List.getElem?_eq_getElem hi, Option.getD_some]
  · refine Checked.mapM_of_forall fun name hn => ?_
    obtain ⟨v, hv⟩ := hr.get_stored W hn
    rw [atPosition_eq_ok, List.getD_eq_getElem?_getD, hv, Option.getD_some]

end

/-- A source over stored rows of values of a class, among which its handle selects. -/
structure Serves {κ : Type} (K : ValueClass κ) (s : Source) (asks : Value → Prop)
    (rows : List (List Value)) : Prop where
  columns_nodup : s.columns.Nodup
  stored_perm : s.stored.Perm s.attributes
  width : ∀ row ∈ rows, row.length = s.stored.length
  all : ∀ row ∈ rows, K.All row
  handle : ∃ h, s.handle = some h ∧ h.Serves K s.keyPlaces asks rows

namespace Serves

variable {κ : Type} {K : ValueClass κ} {asks : Value → Prop} (H : s.Serves K asks rows)
  {r : StoredRow}

include H

theorem wellFormed : s.WellFormed := ⟨H.columns_nodup, H.stored_perm⟩

theorem fits (hr : r ∈ numbered rows) : s.Fits r := H.width _ (mem_of_mem_numbered hr)

theorem get_stored (hr : r ∈ numbered rows) (hn : name ∈ s.attributes) :
    ∃ v, r.2[s.stored.idxOf name]? = some v ∧ K.carrier v := by
  obtain ⟨v, hv⟩ := (H.fits hr).get_stored H.wellFormed hn
  exact ⟨v, hv, H.all _ (mem_of_mem_numbered hr) v (List.mem_of_getElem? hv)⟩

end Serves

/-! ## Scans -/

variable {key : List Name}

/-- What a binding asks the handle for: values of the first attributes of the sort key, and possibly
the value of the position. -/
structure Terms (s : Source) (binding : NamedValues) (lead : List Value)
    (position : Option Value) : Prop where
  length_le : lead.length ≤ s.sortKey.length
  lead : List.Forall₂ (fun name v => binding.lookup name = some v) (s.sortKey.take lead.length) lead
  position : position = none ∨ ∃ p v, s.position = some p ∧ binding.lookup p = some v ∧
    position = askedPosition v

theorem length_of_take {n : Nat} {lead : List Value} {R : Name → Value → Prop}
    (hn : n ≤ s.sortKey.length) (hl : List.Forall₂ R (s.sortKey.take n) lead) :
    lead.length = n := by
  rw [← hl.length_eq, List.length_take, Nat.min_eq_left hn]

theorem Terms.of_take {n : Nat} {lead : List Value} {position : Option Value}
    (hn : n ≤ s.sortKey.length)
    (hl : List.Forall₂ (fun name v => binding.lookup name = some v) (s.sortKey.take n) lead)
    (hp : position = none ∨ ∃ p v, s.position = some p ∧ binding.lookup p = some v ∧
      position = askedPosition v) : s.Terms binding lead position := by
  cases length_of_take hn hl
  exact ⟨hn, hl, hp⟩

/-- A column whose value is part of these terms. -/
def AsksFor (s : Source) (binding : NamedValues) (lead : List Value) (position : Option Value)
    (name : Name) : Prop :=
  name ∈ s.sortKey.take lead.length ∨
    ∃ v, s.position = some name ∧ binding.lookup name = some v ∧ position = askedPosition v

theorem searchTerms_spec (W : s.WellFormed) (hc : ∀ name ∈ binding.names, name ∈ s.columns) :
    ∃ lead position, s.searchTerms binding = .ok (lead, position) ∧
      s.Terms binding lead position ∧ ∀ m, s.bestMatch binding.names = some m →
        ∀ name ∈ m.key, s.AsksFor binding lead position name := by
  have hf : binding.names.filter (· ∉ s.columns) = [] := by simpa using hc
  rw [searchTerms, if_neg (not_not.2 hf)]
  cases hm : s.bestMatch binding.names with
  | none => exact ⟨[], none, rfl, ⟨Nat.zero_le _, by simp, .inl rfl⟩, nofun⟩
  | some m =>
    obtain ⟨key, complete⟩ := m
    obtain ⟨hkey, hbound⟩ := bestMatch_mem hm
    obtain ⟨lead, hlead, hvs⟩ := NamedValues.mapM_get hbound
    rcases mem_indexKeys.1 hkey with ⟨n, hn, rfl⟩ | ⟨p, hp, n, hn, rfl⟩
    · have T : s.Terms binding lead none := .of_take hn hvs (.inl rfl)
      refine ⟨lead, none, ?_, T, ?_⟩
      · cases hp : s.position with
        | none => simp [hlead]
        | some p =>
          have hne : (s.sortKey.take (n + 1)).getLast? ≠ some p := fun hl =>
            W.position_not_mem hp
              (sortKey_subset _ (List.mem_of_mem_take (List.mem_of_getLast? hl)))
          simp [hne, hlead]
      · rintro _ ⟨⟩ name hname
        exact .inl (length_of_take hn hvs ▸ hname)
    · obtain ⟨lead, hlead, hvs⟩ := NamedValues.mapM_get (b := binding)
        fun name hm => hbound name (List.mem_append_left _ hm)
      obtain ⟨v, hv⟩ := NamedValues.exists_lookup (hbound p (by simp))
      have T : s.Terms binding lead (askedPosition v) := .of_take hn hvs (.inr ⟨p, v, hp, hv, rfl⟩)
      refine ⟨lead, askedPosition v, ?_, T, ?_⟩
      · simp [hp, hlead, NamedValues.get_eq_ok.2 hv]
      · rintro _ ⟨⟩ name hname
        rcases List.mem_append.1 hname with hname | hname
        · exact .inl (length_of_take hn hvs ▸ hname)
        · cases List.mem_singleton.1 hname
          exact .inr ⟨v, hp, hv, rfl⟩

variable {lead : List Value} {position : Option Value}

theorem of_askedPosition {v w : Value} (h : askedPosition w = some v) : w = v := by
  cases w <;> cases h <;> rfl

theorem asked_of_ne_null {v : Value} (h : v ≠ .null) : askedPosition v = some v := by
  unfold askedPosition
  split
  · exact (h rfl).elim
  · rfl

/-- The key values that are asked for are bound values. -/
theorem Terms.all_lead {P : Value → Prop} (T : s.Terms binding lead position)
    (hk : ∀ e ∈ binding, e.1 ∈ s.sortKey → P e.2) : ∀ v ∈ lead, P v := by
  intro v hv
  obtain ⟨name, hname, hl⟩ := exists_of_forall₂ T.lead hv
  exact hk _ (NamedValues.mem_of_lookup hl) (List.mem_of_mem_take hname)

/-- A position that is asked for is the bound one, which is not null then. -/
theorem Terms.asked_position {v : Value} (T : s.Terms binding lead position)
    (h : position = some v) : ∃ p, s.position = some p ∧ (p, v) ∈ binding ∧ v ≠ .null := by
  rcases T.position with rfl | ⟨p, w, hpos, hl, rfl⟩
  · cases h
  · cases of_askedPosition h
    refine ⟨p, hpos, NamedValues.mem_of_lookup hl, ?_⟩
    rintro rfl
    cases h

theorem Terms.length_le_keyPlaces (T : s.Terms binding lead position) :
    lead.length ≤ s.keyPlaces.length := by
  rw [keyPlaces, List.length_map]
  exact T.length_le

theorem Terms.asks_position {asks : Value → Prop} (T : s.Terms binding lead position)
    (hp : ∀ e ∈ binding, s.position = some e.1 → asks e.2) : ∀ v, position = some v → asks v := by
  intro v hv
  obtain ⟨p, hpos, hmem, -⟩ := T.asked_position hv
  exact hp _ hmem hpos

/-- The bound values of the key can be compared with those of each row. -/
def Compares (s : Source) (rows : List (List Value)) (binding : NamedValues) : Prop :=
  ∀ lead : List Value, lead.length ≤ s.sortKey.length →
    List.Forall₂ (fun name v => binding.lookup name = some v) (s.sortKey.take lead.length) lead →
    ∀ row ∈ rows,
      Value.Comparable ((s.keyPlaces.take lead.length).filterMap (row[·]?)) lead

/-- It is enough that each bound value of the key has an order beside those that the rows have in
its place. -/
theorem compares_of_hasOrder (W : s.WellFormed) (hw : ∀ row ∈ rows, row.length = s.stored.length)
    (h : ∀ e ∈ binding, e.1 ∈ s.sortKey → ∀ row ∈ rows, ∀ x,
      row[s.stored.idxOf e.1]? = some x → Value.HasOrder x e.2) : s.Compares rows binding := by
  rintro lead - hl row hrow
  refine Value.comparable_of_hasOrder ?_
  have hkey : ∀ name ∈ s.sortKey.take lead.length, name ∈ s.sortKey := fun name =>
    List.mem_of_mem_take
  rw [keyPlaces, ← List.map_take]
  generalize s.sortKey.take lead.length = key at hl hkey
  induction hl with
  | nil => exact .nil
  | @cons name v key lead hv _ ih =>
    rw [List.forall_mem_cons] at hkey
    obtain ⟨x, hx⟩ := Fits.get_stored W (r := (0, row)) (hw row hrow) (sortKey_subset name hkey.1)
    rw [List.map_cons, List.filterMap_cons_some hx]
    exact .cons (h _ (NamedValues.mem_of_lookup hv) hkey.1 row hrow x hx) (ih hkey.2)

/-- A binding of columns to values that a source can be searched for. -/
structure Admits {κ : Type} (K : ValueClass κ) (s : Source) (rows : List (List Value))
    (binding : NamedValues) : Prop where
  columns : ∀ name ∈ binding.names, name ∈ s.columns
  carrier : ∀ e ∈ binding, e.1 ∈ s.attributes → K.carrier e.2
  compares : s.Compares rows binding

theorem Admits.searches {κ : Type} {K : ValueClass κ} (H : s.Admits K rows binding)
    (T : s.Terms binding lead position) : Searches K s.keyPlaces rows lead where
  all := T.all_lead fun e he hm => H.carrier e he (sortKey_subset e.1 hm)
  length_le := T.length_le_keyPlaces
  compares := H.compares lead T.length_le T.lead

/-- The bound columns are checked where they stand. -/
theorem all_checks {t : List Value} (hd : s.columns.Nodup) (hn : binding.names.Nodup)
    (hc : ∀ name ∈ binding.names, name ∈ s.columns) :
    ((s.checks binding).all fun c => (t[c.1]?).any (Value.eq · c.2)) =
      binding.holds s.columns t := by
  rw [Bool.eq_iff_iff, NamedValues.holds, List.all_eq_true, List.all_eq_true]
  constructor
  · intro h e he
    refine h (s.columns.idxOf e.1, e.2) (List.mem_filterMap.2 ⟨(e.1, s.columns.idxOf e.1), ?_, ?_⟩)
    · rw [List.mem_zipIdx_iff_getElem?, List.getElem?_idxOf]
      exact hc e.1 (List.mem_map_of_mem he)
    · simp [NamedValues.lookup_of_mem hn he]
  · intro h c hcheck
    obtain ⟨⟨name, i⟩, hi, hmap⟩ := List.mem_filterMap.1 hcheck
    obtain ⟨v, hv, rfl⟩ := Option.map_eq_some_iff.1 hmap
    have hget : s.columns[i]? = some name := List.mem_zipIdx_iff_getElem?.1 hi
    obtain ⟨hlt, rfl⟩ := List.getElem?_eq_some_iff.1 hget
    have he := h _ (NamedValues.mem_of_lookup hv)
    dsimp only at he
    rwa [hd.idxOf_getElem] at he

section

variable (W : s.WellFormed) {r : StoredRow} (hr : s.Fits r)

include W hr

/-- A row begins with the values of some key attributes exactly if it has each of them. -/
theorem eqList_key_iff {key : List Name} (hm : ∀ name ∈ key, name ∈ s.attributes)
    {lead : List Value} (hl : List.Forall₂ (fun name v => binding.lookup name = some v) key lead) :
    Value.eqList ((key.map (s.stored.idxOf ·)).filterMap (r.2[·]?)) lead = true ↔
      ∀ name ∈ key, ∀ v, binding.lookup name = some v →
        ∃ x, r.2[s.stored.idxOf name]? = some x ∧ Value.same x v = true := by
  induction hl with
  | nil => simp [Value.eqList]
  | @cons name v key lead hv _ ih =>
    rw [List.forall_mem_cons] at hm
    obtain ⟨x, hx⟩ := hr.get_stored W hm.1
    rw [List.map_cons, List.filterMap_cons_some hx, Value.eqList, Bool.and_eq_true, ih hm.2,
      List.forall_mem_cons]
    simp [hv, hx, Value.same]

/-- A row whose tuple has the bound values is among those that the handle is asked for. -/
theorem isAt_of_holds (T : s.Terms binding lead position)
    (h : binding.holds s.columns (s.present r) = true) :
    r.isAt s.keyPlaces lead position = true := by
  rw [NamedValues.holds_iff] at h
  have hkey : ∀ name ∈ s.sortKey.take lead.length, name ∈ s.attributes := fun name hm =>
    sortKey_subset name (List.mem_of_mem_take hm)
  rw [StoredRow.isAt, Bool.and_eq_true, keyPlaces, ← List.map_take]
  refine ⟨(eqList_key_iff W hr hkey T.lead).2 fun name hm v hv => ?_, ?_⟩
  · obtain ⟨x, hx, he⟩ := h _ (NamedValues.mem_of_lookup hv)
    refine ⟨x, hr.present_attribute W (hkey name hm) ▸ hx, ?_⟩
    rw [Value.same, he, Bool.or_true]
  · rcases T.position with rfl | ⟨p, v, hp, hv, rfl⟩
    · rfl
    · obtain ⟨x, hx, he⟩ := h _ (NamedValues.mem_of_lookup hv)
      cases (W.present_position hp).symm.trans hx
      unfold askedPosition
      split
      · rfl
      · exact he

/-- If all bound columns are asked for, the rows that the handle selects have the bound values. A
position of null is never asked for. -/
theorem holds_of_isAt (T : s.Terms binding lead position) (hn : binding.names.Nodup)
    (hasks : ∀ name ∈ binding.names, s.AsksFor binding lead position name)
    (hk : ∀ name ∈ s.sortKey, ∀ x, r.2[s.stored.idxOf name]? = some x → Value.eq x x = true)
    (hp : ∀ e ∈ binding, s.position = some e.1 → e.2 ≠ .null)
    (h : r.isAt s.keyPlaces lead position = true) :
    binding.holds s.columns (s.present r) = true := by
  have hkey : ∀ name ∈ s.sortKey.take lead.length, name ∈ s.attributes := fun name hm =>
    sortKey_subset name (List.mem_of_mem_take hm)
  rw [StoredRow.isAt, Bool.and_eq_true, keyPlaces, ← List.map_take,
    eqList_key_iff W hr hkey T.lead] at h
  rw [NamedValues.holds_iff]
  intro e he
  have hv := NamedValues.lookup_of_mem hn he
  rcases hasks e.1 (List.mem_map_of_mem he) with hm | ⟨v, hpos, hv', rfl⟩
  · obtain ⟨x, hx, hsame⟩ := h.1 e.1 hm e.2 hv
    refine ⟨x, (hr.present_attribute W (hkey _ hm)).trans hx, ?_⟩
    rwa [Value.same, Value.not_isOne (hk _ (List.mem_of_mem_take hm) x hx), Bool.false_or] at hsame
  · cases hv.symm.trans hv'
    rw [asked_of_ne_null (hp e he hpos)] at h
    exact ⟨_, W.present_position hpos, h.2⟩

/-- A stored row becomes a tuple, if the tuple has the bound values. -/
theorem checked_row (hn : binding.names.Nodup) (hc : ∀ name ∈ binding.names, name ∈ s.columns) :
    (do
      let row ← s.arrange r.2
      let row := if s.position.isSome then row ++ [Value.ofNat r.1] else row
      return if ← agrees row (s.checks binding) then some row else none) =
    (.ok (if binding.holds s.columns (s.present r) then some (s.present r) else none) :
      Checked (Option (List Value))) := by
  rw [hr.arrange_eq W, Checked.bind_ok]
  have hrow : (if s.position.isSome then
      (s.attributes.map fun name => r.2.getD (s.stored.idxOf name) .null) ++ [Value.ofNat r.1]
      else s.attributes.map fun name => r.2.getD (s.stored.idxOf name) .null) = s.present r := by
    rw [present]
    cases s.position with
    | none => simp
    | some p => simp
  rw [hrow]
  dsimp only
  rw [agrees_eq, Checked.bind_ok, all_checks W.columns_nodup hn hc]
  · rfl
  · intro c hcheck
    obtain ⟨⟨name, i⟩, hi, hv⟩ := List.mem_filterMap.1 hcheck
    obtain ⟨v, -, rfl⟩ := Option.map_eq_some_iff.1 hv
    rw [present_length]
    exact (List.getElem?_eq_some_iff.1 (List.mem_zipIdx_iff_getElem?.1 hi)).1

end

section

variable (W : s.WellFormed) {h : Handle} (hn : binding.names.Nodup)
  (hc : ∀ name ∈ binding.names, name ∈ s.columns)
  (hterms : s.searchTerms binding = .ok (lead, position)) (hh : s.handle = some h)

include W hn hc hterms hh

/-- A scan yields the tuples of the rows that the handle selects, if they have the bound values. -/
theorem scan_yields {found : List StoredRow} (hf : ∀ r ∈ found, s.Fits r)
    (hy : (h.scan lead position).Yields found) :
    (s.scan binding).Yields ((found.map s.present).filter (binding.holds s.columns)) := by
  have hrows := hy.filterMap fun r hr => checked_row W (hf r hr) hn hc
  have hlist : found.filterMap (fun r => if binding.holds s.columns (s.present r) then
      some (s.present r) else none) = (found.map s.present).filter (binding.holds s.columns) := by
    rw [List.filter_map, ← List.filterMap_eq_map, List.filterMap_filter]
    rfl
  rw [← hlist]
  refine Rows.yields_ofChecked_iff.2 ⟨_, ?_, hrows⟩
  simp only [hterms, requireHandle, hh, Checked.bind_ok, Checked.pure_def]

/-- Once a handle finds the rows that it is asked for, a scan yields the tuples of a full scan that
have the bound values. -/
theorem scan_of_found (hw : ∀ r ∈ numbered rows, s.Fits r) (T : s.Terms binding lead position)
    (hy : (h.scan lead position).Yields
      ((numbered rows).filter (StoredRow.isAt s.keyPlaces lead position))) :
    (s.scan binding).Yields ((s.tuples rows).filter (binding.holds s.columns)) := by
  have hscan := scan_yields W hn hc hterms hh (fun r hr => hw r (List.mem_of_mem_filter hr)) hy
  rw [List.filter_map, List.filter_filter] at hscan
  rw [tuples, List.filter_map]
  convert hscan using 2
  refine List.filter_congr fun r hr => ?_
  rw [Function.comp_apply, Bool.eq_iff_iff, Bool.and_eq_true]
  exact ⟨fun hholds => ⟨hholds, isAt_of_holds W (hw r hr) T hholds⟩, And.left⟩

end

section

variable {κ : Type} {K : ValueClass κ} {asks : Value → Prop} (H : s.Serves K asks rows)

include H

section

variable (hb : s.Admits K rows binding) (hp : ∀ e ∈ binding, s.position = some e.1 → asks e.2)

include hb hp

/-- A scan yields the tuples of a full scan that have the bound values, whatever index is used. -/
theorem scan_spec (hn : binding.names.Nodup) :
    (s.scan binding).Yields ((s.tuples rows).filter (binding.holds s.columns)) := by
  obtain ⟨lead, position, hterms, T, -⟩ := searchTerms_spec H.wellFormed hb.columns
  obtain ⟨h, hhandle, hserves⟩ := H.handle
  exact scan_of_found H.wellFormed hn hb.columns hterms hhandle (fun r hr => H.fits hr) T
    (hserves.scan lead position (hb.searches T) (T.asks_position hp))

/-- A source announces some size for a scan. -/
theorem estimate_spec :
    ∃ v size, s.estimate binding = .ok v ∧ Cardinality.ofValue v = .ok size := by
  obtain ⟨lead, position, hterms, T, -⟩ := searchTerms_spec H.wellFormed hb.columns
  obtain ⟨h, hhandle, hserves⟩ := H.handle
  obtain ⟨v, size, he, hs⟩ :=
    hserves.estimate lead position (hb.searches T) (T.asks_position hp)
  exact ⟨v, size, by simp only [estimate, hterms, requireHandle, hhandle, Checked.bind_ok, he], hs⟩

end

/-- Where no attribute is bound, there is nothing to be compared. -/
theorem admits_of_unbound (hc : ∀ name ∈ binding.names, name ∈ s.columns)
    (hu : ∀ e ∈ binding, e.1 ∉ s.attributes) : s.Admits K rows binding where
  columns := hc
  carrier e he hm := (hu e he hm).elim
  compares := compares_of_hasOrder H.wellFormed H.width fun e he hm =>
    (hu e he (sortKey_subset e.1 hm)).elim

theorem scan_all : (s.scan []).Yields (s.tuples rows) := by
  have hy : (s.scan []).Yields ((s.tuples rows).filter (NamedValues.holds s.columns [])) :=
    scan_spec H (admits_of_unbound H nofun nofun) nofun List.nodup_nil
  rwa [NamedValues.filter_holds_nil] at hy

section

variable (hp : s.position = some p) {j : Nat}

include hp

/-- A position is that of one row. -/
theorem holds_position {r : StoredRow} :
    NamedValues.holds s.columns [(p, .ofNat j)] (s.present r) = true ↔ r.1 = j := by
  simp [NamedValues.holds, H.wellFormed.present_position hp, Value.ofNat, Value.eq_int]

/-- A scan with a position finds the row there. -/
theorem scan_position (hj : asks (.ofNat j)) (hrow : rows[j]? = some row) :
    (s.scan [(p, .ofNat j)]).first? = .ok (some (s.present (j, row))) := by
  have hy : (s.scan [(p, .ofNat j)]).Yields
      ((s.tuples rows).filter (NamedValues.holds s.columns [(p, .ofNat j)])) := by
    refine scan_spec H (admits_of_unbound H (by simp [columns_eq, hp]) fun e he => ?_)
      (fun e he _ => ?_) (List.nodup_singleton p)
    · cases List.mem_singleton.1 he
      exact H.wellFormed.position_not_mem hp
    · cases List.mem_singleton.1 he
      exact hj
  obtain ⟨r, hr⟩ : ∃ r, (numbered rows).find?
      (NamedValues.holds s.columns [(p, .ofNat j)] ∘ s.present) = some r := by
    rw [← Option.isSome_iff_exists, List.find?_isSome]
    exact ⟨(j, row), mem_numbered.2 hrow, (holds_position H hp).2 rfl⟩
  have hat : r.1 = j := by
    have hh := List.find?_some hr
    exact (holds_position H hp).1 hh
  have hat' : r.2 = row := by
    have hmem := mem_numbered.1 (List.mem_of_find?_eq_some hr)
    rw [hat, hrow] at hmem
    exact (Option.some.inj hmem).symm
  rw [hy.first?, List.head?_filter, tuples, List.find?_map, hr, ← hat, ← hat']
  rfl

end

end

end Source
end JoinOrder
