import Mathlib.Data.List.TakeWhile
import JoinOrder.Proofs.AccessPath

/-!
# The longest bound key

The key that a source finds by searching its index keys is the longest prefix of the sort key whose
attributes are all bound, followed by the position if that is bound
(`Source.bestMatch_eq_longestKey`). The values of these columns are what the handle is asked for
(`Source.searchTerms_eq`).
-/

namespace JoinOrder
namespace Source

variable {s : Source} {bound more key lead : List Name} {p : Name} {binding : NamedValues}

/-! ## Bound prefixes of the sort key -/

/-- The longest prefix of the sort key whose attributes are all bound. -/
structure IsLongestBound (s : Source) (bound lead : List Name) : Prop where
  isPrefix : lead <+: s.sortKey
  subset : lead ⊆ bound
  longest : ∀ key, key <+: s.sortKey → key ⊆ bound → key.length ≤ lead.length

/-- The attributes of the sort key in front of the first one that is not bound. -/
def leading (s : Source) (bound : List Name) : List Name := s.sortKey.takeWhile (· ∈ bound)

theorem leading_isPrefix : s.leading bound <+: s.sortKey := List.takeWhile_prefix _

theorem leading_subset : s.leading bound ⊆ bound := by
  intro name hn
  have hb := List.mem_takeWhile_imp hn
  exact of_decide_eq_true hb

theorem isPrefix_leading (hk : key <+: s.sortKey) (hb : key ⊆ bound) : key <+: s.leading bound := by
  obtain ⟨rest, hrest⟩ := hk
  rw [leading, ← hrest, List.takeWhile_append_of_pos fun name hn => decide_eq_true (hb hn)]
  exact List.prefix_append _ _

theorem isLongestBound_leading : s.IsLongestBound bound (s.leading bound) where
  isPrefix := leading_isPrefix
  subset := leading_subset
  longest _ hk hb := (isPrefix_leading hk hb).length_le

theorem leading_congr (h : ∀ name, name ∈ bound ↔ name ∈ more) :
    s.leading bound = s.leading more := by
  simp only [leading, h]

/-! ## The best match -/

/-- The longest bound prefix of the sort key, followed by the position if it is bound. -/
def longestKey (s : Source) (bound : List Name) : List Name :=
  s.leading bound ++ s.position.toList.filter (· ∈ bound)

theorem longestKey_subset : s.longestKey bound ⊆ bound :=
  List.append_subset.2 ⟨leading_subset, fun _ hn => of_decide_eq_true (List.mem_filter.1 hn).2⟩

theorem longestKey_bound (hp : s.position = some p) (hb : p ∈ bound) :
    s.longestKey bound = s.leading bound ++ [p] := by
  simp [longestKey, hp, hb]

theorem longestKey_unbound (h : ∀ p, s.position = some p → p ∉ bound) :
    s.longestKey bound = s.leading bound := by
  rw [longestKey, List.filter_eq_nil_iff.2, List.append_nil]
  intro p hp
  simpa using h p (Option.mem_toList.1 hp)

/-- Each index key of bound attributes is a part of the longest one. -/
theorem sublist_longestKey (hk : key ∈ s.indexKeys) (hb : key ⊆ bound) :
    key.Sublist (s.longestKey bound) := by
  rcases mem_indexKeys.1 hk with ⟨n, -, rfl⟩ | ⟨p, hp, n, -, rfl⟩
  · exact (isPrefix_leading (List.take_prefix _ _) hb).sublist.trans (List.sublist_append_left _ _)
  · obtain ⟨hlead, hposition⟩ := List.append_subset.1 hb
    rw [longestKey_bound hp (hposition List.mem_cons_self)]
    exact (isPrefix_leading (List.take_prefix _ _) hlead).sublist.append (.refl _)

/-- Unless nothing can be searched for, the longest key is an index key. -/
theorem longestKey_mem (h : s.longestKey bound ≠ []) : s.longestKey bound ∈ s.indexKeys := by
  have hlead : s.leading bound = s.sortKey.take (s.leading bound).length :=
    List.prefix_iff_eq_take.1 leading_isPrefix
  have hle : (s.leading bound).length ≤ s.sortKey.length := leading_isPrefix.length_le
  rw [mem_indexKeys]
  by_cases hp : ∃ p, s.position = some p ∧ p ∈ bound
  · obtain ⟨p, hp, hb⟩ := hp
    refine .inr ⟨p, hp, _, hle, ?_⟩
    rw [longestKey_bound hp hb, ← hlead]
  · have hkey := longestKey_unbound fun p hpos hb => hp ⟨p, hpos, hb⟩
    rw [hkey] at h ⊢
    have hpos : 0 < (s.leading bound).length := List.length_pos_iff.2 h
    exact .inl ⟨(s.leading bound).length - 1, by omega, by rwa [Nat.sub_add_cancel hpos]⟩

theorem longestKey_mono (h : bound ⊆ more) :
    (s.longestKey bound).Sublist (s.longestKey more) :=
  (isPrefix_leading leading_isPrefix fun _ hn => h (leading_subset hn)).sublist.append
    (List.monotone_filter_right _ fun _ hn => decide_eq_true (h (of_decide_eq_true hn)))

/-- No index key is empty. -/
theorem ne_nil_of_mem_indexKeys (hk : key ∈ s.indexKeys) : key ≠ [] := by
  rcases mem_indexKeys.1 hk with ⟨n, hn, rfl⟩ | ⟨p, -, n, -, rfl⟩
  · rw [← List.length_pos_iff, List.length_take]
    omega
  · exact List.append_ne_nil_of_right_ne_nil _ (List.cons_ne_nil p [])

theorem keyMatch_of_covers (h : NameSet.covers bound key = true) :
    keyMatch bound key = some ⟨key, NameSet.agree key bound⟩ := by
  cases ha : NameSet.agree key bound with
  | true => exact keyMatch_of_agree ha
  | false => rw [keyMatch_of_not_agree ha, if_pos h]

open IndexMatch (choose Chosen)

/-- Searching the index keys of a source finds the longest bound key. It is exact if it has all
bound attributes. -/
theorem bestMatch_eq_longestKey (H : s.Declared) (bound : List Name) :
    s.bestMatch bound = if s.longestKey bound = [] then none
      else some ⟨s.longestKey bound, NameSet.agree (s.longestKey bound) bound⟩ := by
  have C : Chosen (keyMatch bound) s.indexKeys (choose (keyMatch bound) none s.indexKeys) :=
    IndexMatch.chosen_choose
  have hcovers : NameSet.covers bound (s.longestKey bound) = true :=
    StoredRelation.covers_iff.2 fun _ hn => longestKey_subset hn
  rw [bestMatch_eq]
  cases hb : choose (keyMatch bound) none s.indexKeys with
  | none =>
    rw [hb] at C
    have hnil : s.longestKey bound = [] := by
      by_contra hne
      have hnone := C.eq_none_iff.1 rfl _ (longestKey_mem hne)
      rw [← Option.not_isSome_iff_eq_none, keyMatch_isSome] at hnone
      exact hnone hcovers
    rw [if_pos hnil]
    rfl
  | some b =>
    obtain ⟨key, m⟩ := b
    rw [hb] at C
    obtain ⟨hk, hm⟩ := C.mem
    have hsub := sublist_longestKey hk (StoredRelation.covers_iff.1 (keyMatch_eq_some hm).2)
    have hne : s.longestKey bound ≠ [] := fun hnil =>
      ne_nil_of_mem_indexKeys hk (List.sublist_nil.1 (hnil ▸ hsub))
    -- The chosen key is a part of the longest one, and at least as long.
    obtain rfl : key = s.longestKey bound := hsub.eq_of_length_le
      (length_le_chosen H.indexKeys_nodup C _ (longestKey_mem hne) hcovers)
    cases hm.symm.trans (keyMatch_of_covers hcovers)
    rw [if_neg hne]
    rfl

/-- The match for some bound attributes has this key; there is none if the key is empty. -/
structure MatchesBy (s : Source) (bound key : List Name) : Prop where
  eq_none_iff : s.bestMatch bound = none ↔ key = []
  key_eq : ∀ m, s.bestMatch bound = some m → m.key = key
  exact_iff : ∀ m, s.bestMatch bound = some m →
    (m.exact = true ↔ ∀ name, name ∈ bound ↔ name ∈ key)

theorem matchesBy_longestKey (H : s.Declared) : s.MatchesBy bound (s.longestKey bound) := by
  have hbest := bestMatch_eq_longestKey H bound
  by_cases hnil : s.longestKey bound = []
  · rw [if_pos hnil] at hbest
    exact ⟨iff_of_true hbest hnil, by simp [hbest], by simp [hbest]⟩
  · rw [if_neg hnil] at hbest
    refine ⟨iff_of_false (by simp [hbest]) hnil, fun m hm => ?_, fun m hm => ?_⟩
    · cases hbest.symm.trans hm
      rfl
    · cases hbest.symm.trans hm
      exact NameSet.agree_iff.trans (forall_congr' fun name => iff_comm)

/-- The number of columns that are searched for. -/
theorem length_bestMatch (H : s.Declared) (bound : List Name) :
    (s.bestMatch bound).elim 0 (·.key.length) = (s.longestKey bound).length := by
  rw [bestMatch_eq_longestKey H]
  split
  · next hnil => rw [hnil, Option.elim_none, List.length_nil]
  · rfl

/-! ## What the handle is asked for -/

/-- The bound position, unless it is null. -/
def positionOf (s : Source) (binding : NamedValues) : Option Value :=
  (s.position.bind (binding.lookup ·)).bind askedPosition

theorem positionOf_unbound (h : ∀ p, s.position = some p → p ∉ binding.names) :
    s.positionOf binding = none := by
  have hnone : s.position.bind (binding.lookup ·) = none := by
    rw [Option.bind_eq_none_iff]
    intro p hp
    rw [← Option.not_isSome_iff_eq_none, NamedValues.lookup_isSome_iff]
    exact h p hp
  rw [positionOf, hnone]
  rfl

/-- The key values and the position that are asked for are those of the longest key. -/
theorem searchTerms_eq (H : s.Declared) (hc : binding.names ⊆ s.columns) :
    ∃ values, List.Forall₂ (fun name v => binding.lookup name = some v)
        (s.leading binding.names) values ∧
      s.searchTerms binding = .ok (values, s.positionOf binding) := by
  obtain ⟨values, hvalues, hlookup⟩ := NamedValues.mapM_get (b := binding)
    (fun name hn => leading_subset (s := s) hn)
  refine ⟨values, hlookup, ?_⟩
  have hforeign : binding.names.filter (· ∉ s.columns) = [] :=
    List.filter_eq_nil_iff.2 fun name hn => by simpa using hc hn
  rw [searchTerms, if_neg (not_not.2 hforeign), bestMatch_eq_longestKey H]
  by_cases hp : ∃ p, s.position = some p ∧ p ∈ binding.names
  · obtain ⟨p, hp, hb⟩ := hp
    obtain ⟨v, hv⟩ := NamedValues.exists_lookup hb
    simp [positionOf, longestKey_bound hp hb, hp, hv, hvalues, NamedValues.get_eq_ok.2 hv]
  · have hunbound : ∀ p, s.position = some p → p ∉ binding.names := fun p hpos hb =>
      hp ⟨p, hpos, hb⟩
    have hlast : ∀ p, s.position = some p → (s.leading binding.names).getLast? ≠ some p :=
      fun p hpos hl => hunbound p hpos (leading_subset (List.mem_of_getLast? hl))
    rw [longestKey_unbound hunbound, positionOf_unbound hunbound]
    by_cases hnil : s.leading binding.names = []
    · rw [hnil] at hlookup
      cases hlookup
      simp [hnil]
    · rw [if_neg hnil]
      cases hpos : s.position with
      | none => simp [hvalues]
      | some p => simp [hlast p hpos, hvalues]

/-- What a scan makes of a stored row: its tuple, if this has the bound values. -/
def checkedTuple (s : Source) (binding : NamedValues) (r : StoredRow) :
    Checked (Option (List Value)) := do
  let row ← s.arrange r.2
  let row := if s.position.isSome then row ++ [Value.ofNat r.1] else row
  return if ← agrees row (s.checks binding) then some row else none

/-- Key values and a position that a binding makes a source ask its handle for. -/
structure AsksHandle (s : Source) (binding : NamedValues) (values : List Value)
    (position : Option Value) : Prop where
  terms : s.searchTerms binding = .ok (values, position)
  estimate : ∀ handle, s.handle = some handle →
    s.estimate binding = handle.estimate values position
  scan : ∀ handle, s.handle = some handle →
    s.scan binding = (handle.scan values position).filterMap (s.checkedTuple binding)

theorem asksHandle_of_terms {values : List Value} {position : Option Value}
    (h : s.searchTerms binding = .ok (values, position)) :
    s.AsksHandle binding values position where
  terms := h
  estimate handle hh := by
    rw [estimate, h, Checked.bind_ok, requireHandle, hh]
    rfl
  scan handle hh := by
    rw [scan, h, Checked.bind_ok, requireHandle, hh]
    rfl

/-- Values for names that are no columns are refused before the handle is asked. -/
theorem refused_of_foreign (h : ¬binding.names ⊆ s.columns) :
    ∃ fault, s.estimate binding = .error (.usage fault) ∧
      s.scan binding = .broken (.usage fault) := by
  have hforeign : binding.names.filter (· ∉ s.columns) ≠ [] := by
    intro hnil
    refine h fun name hn => ?_
    simpa using List.filter_eq_nil_iff.1 hnil name hn
  have hterms : s.searchTerms binding = .error (.usage (.foreignColumns
      ((binding.names.filter (· ∉ s.columns)).map .ofName) s.schema)) := by
    rw [searchTerms, if_pos hforeign]
    rfl
  exact ⟨_, by rw [estimate, hterms]; rfl, by rw [scan, hterms]; rfl⟩

/-- The match of a source for some bound attributes is given by the longest bound prefix of its sort
key. The position follows if it is bound. The values of both are what the handle is asked for. -/
theorem bestMatch_closedForm (H : s.Declared) (bound : List Name) :
    ∃ lead, s.IsLongestBound bound lead ∧
      s.MatchesBy bound (lead ++ s.position.toList.filter (· ∈ bound)) ∧
      (∀ more, bound ⊆ more →
        (s.bestMatch bound).elim 0 (·.key.length) ≤ (s.bestMatch more).elim 0 (·.key.length)) ∧
      ∀ binding : NamedValues, (∀ name, name ∈ binding.names ↔ name ∈ bound) →
        (bound ⊆ s.columns → ∃ values,
          List.Forall₂ (fun name v => binding.lookup name = some v) lead values ∧
            s.AsksHandle binding values (s.positionOf binding)) ∧
        (¬bound ⊆ s.columns → ∃ fault, s.estimate binding = .error (.usage fault) ∧
          s.scan binding = .broken (.usage fault)) := by
  refine ⟨s.leading bound, isLongestBound_leading, matchesBy_longestKey H, fun more hmore => ?_,
    fun binding hnames => ?_⟩
  · rw [length_bestMatch H, length_bestMatch H]
    exact (longestKey_mono hmore).length_le
  · have hsub : binding.names ⊆ s.columns ↔ bound ⊆ s.columns :=
      forall_congr' fun name => imp_congr_left (hnames name)
    refine ⟨fun hc => ?_, fun hc => refused_of_foreign (mt hsub.1 hc)⟩
    obtain ⟨values, hvalues, hterms⟩ := searchTerms_eq H (hsub.2 hc)
    exact ⟨values, leading_congr hnames ▸ hvalues, asksHandle_of_terms hterms⟩

end Source

/-- The position 2 among the triples from 1 is asked for, whatever else is bound. -/
theorem Source.bestMatch_closedForm_triples : Triples.source.Declared ∧
    Triples.source.IsLongestBound [.text "p", .text "b", .text "a"] [.text "a"] ∧
    Triples.source.bestMatch [.text "p", .text "b", .text "a"] =
      some ⟨[.text "a", .text "p"], false⟩ ∧
    2 ≤ (Triples.source.bestMatch
      [.text "p", .text "b", .text "a", .text "z", .text "c"]).elim 0 (·.key.length) ∧
    Triples.source.AsksHandle [(.text "b", .int 5), (.text "p", .int 2), (.text "a", .int 1)]
      [.int 1] (some (.int 2)) := by
  have H : Triples.source.Declared := Triples.relation_declared _ List.mem_cons_self
  obtain ⟨lead, hlead, hmatches, hmore, hasks⟩ :=
    Source.bestMatch_closedForm H [.text "p", .text "b", .text "a"]
  have hm : Triples.source.bestMatch [.text "p", .text "b", .text "a"] =
      some ⟨[.text "a", .text "p"], false⟩ := rfl
  have hnames : ∀ name : Name, name ∈ [Name.text "b", .text "p", .text "a"] ↔
      name ∈ [Name.text "p", .text "b", .text "a"] := by
    simp [or_left_comm]
  obtain rfl : [.text "a"] = lead := List.append_cancel_right (hmatches.key_eq _ hm)
  obtain ⟨values, hvalues, hasks⟩ :=
    (hasks [(.text "b", .int 5), (.text "p", .int 2), (.text "a", .int 1)] hnames).1 (by decide)
  obtain ⟨v, rest, hv, hrest, rfl⟩ := List.forall₂_cons_left_iff.1 hvalues
  cases List.forall₂_nil_left_iff.1 hrest
  cases hv
  exact ⟨H, hlead, hm, hmore _ (by decide), hasks⟩

end JoinOrder
