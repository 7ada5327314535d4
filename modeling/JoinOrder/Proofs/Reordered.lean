import Mathlib.Data.List.Sort
import JoinOrder.Proofs.Source
import JoinOrder.Proofs.Table

/-!
# Views of sources

A source can be presented in any order of its attributes that keeps the sort key in order. Views of
views are views of the source itself (`Source.reordered_reordered`), and whatever is asked of a
view is answered by the source, whose tuples are rearranged (`Source.Presents`).
-/

namespace JoinOrder

/-! ## Orders of attributes -/

theorem strictlyIncreasing_iff {ns : List Nat} :
    strictlyIncreasing ns = true ↔ ns.Pairwise (· < ·) := by
  rw [← List.isChain_iff_pairwise]
  match ns with
  | [] => simp [strictlyIncreasing]
  | [n] => simp [strictlyIncreasing]
  | m :: n :: ns =>
    rw [strictlyIncreasing, Bool.and_eq_true, decide_eq_true_iff, List.isChain_cons_cons,
      strictlyIncreasing_iff, List.isChain_iff_pairwise]

/-- Some names stand in an order one behind the other exactly if they are a part of it. -/
theorem increasing_idxOf_iff {order key : List Name} (hd : order.Nodup)
    (hk : ∀ name ∈ key, name ∈ order) :
    strictlyIncreasing (key.map (order.idxOf ·)) = true ↔ key.Sublist order := by
  rw [strictlyIncreasing_iff, List.pairwise_map]
  have horder : order.Pairwise fun a b => order.idxOf a < order.idxOf b := by
    rw [List.pairwise_iff_getElem]
    intro i j hi hj hij
    rwa [hd.idxOf_getElem, hd.idxOf_getElem]
  constructor
  · intro h
    have hnodup : key.Nodup := h.imp fun hlt he => absurd (he ▸ hlt) (Nat.lt_irrefl _)
    have : Std.Antisymm fun a b : Name => order.idxOf a < order.idxOf b :=
      ⟨fun a b hab hba => absurd hab (Nat.lt_asymm hba)⟩
    exact List.sublist_of_subperm_of_pairwise (hnodup.subperm hk) h horder
  · exact fun h => horder.sublist h

/-- Texts have an order, so that an order of names is read from any sequence of them. -/
theorem parsePermutation_names {fault : List Value → SchemaFault} {names : List Name}
    {given : Value} {texts : List String} (h : given.elements = .ok (texts.map .text)) :
    parsePermutation fault names given =
      if (texts.map Name.text).isPerm names then .ok (texts.map .text)
      else .error (.schema (fault (texts.map .text))) := by
  obtain ⟨sorted, hsort⟩ := Value.exists_sort_texts texts
  have hnames : (texts.map Value.text).map Value.toName = texts.map Name.text := by
    rw [List.map_map]
    rfl
  rw [parsePermutation, h, Checked.bind_ok, hsort, Checked.bind_ok, hnames]
  rfl

namespace Source

variable {s v : Source} {order : List Name} {binding : NamedValues}

theorem reorderedAs_names {given : Value} {texts : List String}
    (h : given.elements = .ok (texts.map .text)) :
    s.reorderedAs given = s.reordered (texts.map .text) := by
  have hback : (texts.map Name.text).map Value.ofName = texts.map Value.text := by
    rw [List.map_map]
    rfl
  rw [reorderedAs, parsePermutation_names h]
  by_cases hp : (texts.map Name.text).isPerm s.attributes
  · simp [hp]
  · simp [hp, reordered, hback]

theorem reordered_eq_ok : s.reordered order = .ok v ↔ order.Perm s.attributes ∧
    strictlyIncreasing (s.sortKey.map (order.idxOf ·)) = true ∧
    v = { s with schema := { s.schema with
      attributes := order, sortOffsets := s.sortKey.map (order.idxOf ·) } } := by
  unfold reordered
  by_cases hp : order.isPerm s.attributes
  · by_cases hi : strictlyIncreasing (s.sortKey.map (order.idxOf ·)) = true
    · simp [hp, hi, List.isPerm_iff.1 hp, eq_comm]
    · simp [hp, hi]
  · simp [hp, mt List.isPerm_iff.2 hp]

theorem reordered_error {fault : Fault} (h : s.reordered order = .error fault) :
    ∃ f, fault = .schema f := by
  unfold reordered at h
  split at h
  · cases h
    exact ⟨_, rfl⟩
  · dsimp only at h
    split at h
    · cases h
      exact ⟨_, rfl⟩
    · cases h

/-- Orders that a source can be presented in are those with the sort key as a part. -/
theorem exists_reordered_iff (W : s.WellFormed) :
    (∃ v, s.reordered order = .ok v) ↔ order.Perm s.attributes ∧ s.sortKey.Sublist order := by
  simp only [reordered_eq_ok, exists_and_left, exists_eq, and_true]
  refine and_congr_right fun hp => ?_
  exact increasing_idxOf_iff (hp.nodup_iff.2 W.attributes_nodup) fun name hn =>
    hp.mem_iff.2 (sortKey_subset name hn)

section

variable (h : s.reordered order = .ok v)

include h

/-- The offsets are those of the same attributes. -/
theorem sortKey_reordered : v.sortKey = s.sortKey := by
  obtain ⟨hp, -, rfl⟩ := reordered_eq_ok.1 h
  have hkey : ∀ key : List Name, (∀ name ∈ key, name ∈ order) →
      (key.map (order.idxOf ·)).filterMap (order[·]?) = key := by
    intro key hm
    induction key with
    | nil => rfl
    | cons name key ih =>
      rw [List.forall_mem_cons] at hm
      rw [List.map_cons, List.filterMap_cons_some (List.getElem?_idxOf hm.1), ih hm.2]
  exact hkey _ fun name hn => hp.mem_iff.2 (sortKey_subset name hn)

theorem mem_columns_reordered {name : Name} : name ∈ v.columns ↔ name ∈ s.columns := by
  obtain ⟨hp, -, rfl⟩ := reordered_eq_ok.1 h
  exact (hp.append_right _).mem_iff

theorem wellFormed_reordered (W : s.WellFormed) : v.WellFormed := by
  obtain ⟨hp, -, rfl⟩ := reordered_eq_ok.1 h
  exact ⟨(hp.append_right _).nodup_iff.2 W.columns_nodup, W.stored_perm.trans hp.symm⟩

/-- A view of a view is the view of the source in the last order. -/
theorem reordered_reordered (last : List Name) : v.reordered last = s.reordered last := by
  have hkey := sortKey_reordered h
  obtain ⟨hp, -, rfl⟩ := reordered_eq_ok.1 h
  have hperm : last.isPerm order = last.isPerm s.attributes := by
    rw [Bool.eq_iff_iff, List.isPerm_iff, List.isPerm_iff]
    exact ⟨fun hl => hl.trans hp, fun hl => hl.trans hp.symm⟩
  unfold reordered
  rw [hkey]
  exact congrArg (fun b => if (!b) = true then _ else _) hperm

end

theorem reordered_last {chain : List (List Name)} {last : List Name}
    (h : (chain ++ [last]).foldlM reordered s = .ok v) : s.reordered last = .ok v := by
  induction chain generalizing s with
  | nil =>
    obtain ⟨w, hw, h⟩ := Checked.bind_eq_ok.1 h
    cases h
    exact hw
  | cons order chain ih =>
    obtain ⟨w, hw, h⟩ := Checked.bind_eq_ok.1 h
    rw [← reordered_reordered hw]
    exact ih h

/-! ## Answers of views -/

/-- A tuple with these names in the order of others. -/
def rearrange (columns others : List Name) (t : List Value) : List Value :=
  others.map fun name => t.getD (columns.idxOf name) .null

section

variable {columns others : List Name} {t : List Value}

theorem rearrange_get {name : Name} (hn : name ∈ others) (ht : columns.idxOf name < t.length) :
    (rearrange columns others t)[others.idxOf name]? = t[columns.idxOf name]? := by
  have hi : others.idxOf name < others.length := List.idxOf_lt_length_iff.2 hn
  rw [rearrange, List.getElem?_map, List.getElem?_eq_getElem hi, List.getElem_idxOf,
    Option.map_some, List.getD_eq_getElem?_getD, List.getElem?_eq_getElem ht, Option.getD_some]

theorem holds_rearrange (ht : t.length = columns.length)
    (hb : ∀ name ∈ binding.names, name ∈ columns ∧ name ∈ others) :
    binding.holds others (rearrange columns others t) = binding.holds columns t := by
  rw [Bool.eq_iff_iff, NamedValues.holds_iff, NamedValues.holds_iff]
  refine forall₂_congr fun e he => ?_
  obtain ⟨hc, ho⟩ := hb e.1 (List.mem_map_of_mem he)
  rw [rearrange_get ho (ht ▸ List.idxOf_lt_length_iff.2 hc)]

end

/-- What does not belong to a source is named together with the source. -/
theorem searchTerms_foreign (h : ∃ name ∈ binding.names, name ∉ s.columns) :
    s.searchTerms binding = .error (.usage (.foreignColumns
      ((binding.names.filter (· ∉ s.columns)).map .ofName) s.schema)) := by
  obtain ⟨name, hn, hc⟩ := h
  have hne : binding.names.filter (· ∉ s.columns) ≠ [] :=
    List.ne_nil_of_mem (List.mem_filter.2 ⟨hn, decide_eq_true hc⟩)
  rw [searchTerms, if_pos hne]
  rfl

/-- What is asked of the one source is answered as by the other, with rearranged tuples. Only what
neither of them provides is reported by each in its own name. -/
structure Presents (v s : Source) : Prop where
  columns : v.columns.Perm s.columns
  position : v.position = s.position
  sortKey : v.sortKey = s.sortKey
  indexKeys : v.indexKeys = s.indexKeys
  bestMatch : ∀ bound, v.bestMatch bound = s.bestMatch bound
  maxFrequency : ∀ key, v.maxFrequency key = s.maxFrequency key
  estimate : ∀ binding : NamedValues, (∀ name ∈ binding.names, name ∈ s.columns) →
    v.estimate binding = s.estimate binding
  scan : ∀ binding : NamedValues, binding.names.Nodup →
    (∀ name ∈ binding.names, name ∈ s.columns) →
    v.scan binding = (s.scan binding).map fun t => .ok (rearrange s.columns v.columns t)
  foreign : ∀ binding : NamedValues, (∃ name ∈ binding.names, name ∉ s.columns) →
    ∃ names, ∀ w ∈ [v, s],
      w.estimate binding = .error (.usage (.foreignColumns names w.schema)) ∧
      w.scan binding = .broken (.usage (.foreignColumns names w.schema))

section

variable (h : s.reordered order = .ok v)

include h

theorem attributes_reordered : v.attributes = order := by
  obtain ⟨-, -, rfl⟩ := reordered_eq_ok.1 h
  rfl

theorem position_reordered : v.position = s.position := by
  obtain ⟨-, -, rfl⟩ := reordered_eq_ok.1 h
  rfl

theorem handle_reordered : v.handle = s.handle := by
  obtain ⟨-, -, rfl⟩ := reordered_eq_ok.1 h
  rfl

theorem stored_reordered : v.stored = s.stored := by
  obtain ⟨-, -, rfl⟩ := reordered_eq_ok.1 h
  rfl

theorem indexKeys_reordered : v.indexKeys = s.indexKeys := by
  rw [indexKeys, indexKeys, sortKey_reordered h, position_reordered h]

theorem bestMatch_reordered (bound : List Name) : v.bestMatch bound = s.bestMatch bound := by
  rw [bestMatch, bestMatch, indexKeys_reordered h]

theorem maxFrequency_reordered (key : List Name) : v.maxFrequency key = s.maxFrequency key := by
  unfold maxFrequency
  rw [sortKey_reordered h, position_reordered h, handle_reordered h]

theorem searchTerms_reordered (hb : ∀ name ∈ binding.names, name ∈ s.columns) :
    v.searchTerms binding = s.searchTerms binding := by
  have hs : binding.names.filter (· ∉ s.columns) = [] := by simpa using hb
  have hv : binding.names.filter (· ∉ v.columns) = [] := by
    simpa [mem_columns_reordered h] using hb
  unfold searchTerms
  rw [hs, hv, bestMatch_reordered h, position_reordered h]
  rfl

theorem estimate_reordered (hb : ∀ name ∈ binding.names, name ∈ s.columns) :
    v.estimate binding = s.estimate binding := by
  rw [estimate, estimate, searchTerms_reordered h hb, requireHandle, requireHandle,
    handle_reordered h]

/-- A view shows the tuple of a stored row in its own order. -/
theorem present_reordered (W : s.WellFormed) {r : StoredRow} (hr : s.Fits r) :
    v.present r = rearrange s.columns v.columns (s.present r) := by
  rw [present, rearrange, columns_eq v, List.map_append, position_reordered h, stored_reordered h,
    attributes_reordered h]
  congr 1
  · refine List.map_congr_left fun name hn => ?_
    rw [List.getD_eq_getElem?_getD, List.getD_eq_getElem?_getD,
      hr.present_attribute W ((reordered_eq_ok.1 h).1.mem_iff.1 hn)]
  · refine List.map_congr_left fun p hpos => ?_
    rw [List.getD_eq_getElem?_getD, W.present_position (Option.mem_toList.1 hpos),
      Option.getD_some]

/-- A scan of a view is the scan of the source with rearranged tuples, row by row and up to the
fault that it may end with. -/
theorem scan_reordered (W : s.WellFormed)
    (hf : ∀ handle, s.handle = some handle → ∀ lead position,
      (handle.scan lead position).Each s.Fits)
    (hn : binding.names.Nodup) (hb : ∀ name ∈ binding.names, name ∈ s.columns) :
    v.scan binding = (s.scan binding).map fun t => .ok (rearrange s.columns v.columns t) := by
  have hbv : ∀ name ∈ binding.names, name ∈ v.columns := fun name hm =>
    (mem_columns_reordered h).2 (hb name hm)
  rw [scan, scan, Rows.map_ofChecked, searchTerms_reordered h hb, requireHandle, requireHandle,
    handle_reordered h]
  cases s.searchTerms binding with
  | error fault => rfl
  | ok terms =>
    obtain ⟨lead, position⟩ := terms
    cases hh : s.handle with
    | none => rfl
    | some handle =>
      refine congrArg Rows.ofChecked (congrArg Except.ok ?_)
      refine (hf handle hh lead position).map_filterMap fun r hr => ?_
      have hrv : v.Fits r := by rwa [Fits, stored_reordered h]
      refine (checked_row (wellFormed_reordered h W) hrv hn hbv).trans ?_
      refine Eq.trans ?_ (congrArg (Except.map _) (checked_row W hr hn hb)).symm
      rw [present_reordered h W hr, holds_rearrange present_length fun name hm =>
        ⟨hb name hm, hbv name hm⟩, Checked.map_ok]
      split <;> rfl

theorem presents_reordered (W : s.WellFormed)
    (hf : ∀ handle, s.handle = some handle → ∀ lead position,
      (handle.scan lead position).Each s.Fits) : v.Presents s where
  columns := by
    rw [columns_eq, columns_eq, position_reordered h, attributes_reordered h]
    exact (reordered_eq_ok.1 h).1.append_right _
  position := position_reordered h
  sortKey := sortKey_reordered h
  indexKeys := indexKeys_reordered h
  bestMatch := bestMatch_reordered h
  maxFrequency := maxFrequency_reordered h
  estimate _ := estimate_reordered h
  scan _ := scan_reordered h W hf
  foreign binding hb := by
    have hbv : ∃ name ∈ binding.names, name ∉ v.columns := by
      obtain ⟨name, hn, hc⟩ := hb
      exact ⟨name, hn, mt (mem_columns_reordered h).1 hc⟩
    have hnames : binding.names.filter (· ∉ v.columns) =
        binding.names.filter (· ∉ s.columns) := by
      simp only [mem_columns_reordered h]
    refine ⟨(binding.names.filter (· ∉ s.columns)).map .ofName, ?_⟩
    rw [List.forall_mem_cons, List.forall_mem_singleton]
    refine ⟨?_, ?_⟩
    · rw [Source.estimate, Source.scan, searchTerms_foreign hbv, hnames]
      exact ⟨rfl, rfl⟩
    · rw [Source.estimate, Source.scan, searchTerms_foreign hb]
      exact ⟨rfl, rfl⟩

end

/-- A source can be presented exactly in the orders of its attributes that keep the sort key in
order, and other orders are a fault of the schema. A view, also one that is reached through other
views, is the view of the source in the same order, and answers as the source does. -/
theorem reordered_faithful (W : s.WellFormed)
    (hf : ∀ handle, s.handle = some handle → ∀ lead position,
      (handle.scan lead position).Each s.Fits) :
    (∀ (given : Value) (texts : List String), given.elements = .ok (texts.map .text) →
      ((∃ v, s.reorderedAs given = .ok v) ↔
        (texts.map Name.text).Perm s.attributes ∧ s.sortKey.Sublist (texts.map .text)) ∧
      ∀ fault, s.reorderedAs given = .error fault → ∃ f, fault = .schema f) ∧
    ∀ chain last v, (chain ++ [last]).foldlM reordered s = .ok v →
      s.reordered last = .ok v ∧ v.attributes = last ∧ v.Presents s := by
  refine ⟨fun given texts hgiven => ?_, fun chain last v hv => ?_⟩
  · rw [reorderedAs_names hgiven]
    exact ⟨exists_reordered_iff W, fun fault => reordered_error⟩
  · have h := reordered_last hv
    exact ⟨h, attributes_reordered h, presents_reordered h W hf⟩

end Source

/-! ## Triples -/

namespace Triples

def rows : List (List Value) :=
  [[.int 1, .int 7, .int 1], [.int 1, .int 5, .int 2], [.int 2, .int 6, .int 1]]

/-- Triples, sorted by their ends. -/
def table : SortedTable :=
  ⟨[.ofNat 0, .ofNat 2], rows.toArray,
    #[[.int 1, .int 1], [.int 1, .int 2], [.int 2, .int 1]]⟩

def schema : Schema :=
  ⟨.table, [.text "a", .text "b", .text "c"], some (.text "p"), [0, 2]⟩

def source : Source := .ofSchema schema (some table.handle)

/-- The triples with their middle items last. -/
def view : Source := { source with
  schema := { schema with attributes := [.text "a", .text "c", .text "b"], sortOffsets := [0, 1] } }

theorem source_wellFormed : source.WellFormed := ⟨by decide, .refl _⟩

theorem source_fits (handle : Handle) (h : source.handle = some handle) (lead : List Value)
    (position : Option Value) : (handle.scan lead position).Each source.Fits := by
  cases h
  refine (SortedTable.scan_each lead position).mono fun r hr => ?_
  have hmem := mem_of_mem_numbered hr
  simp only [table, rows, List.mem_cons, List.not_mem_nil, or_false] at hmem
  rcases hmem with h | h | h <;> exact congrArg List.length h

theorem reordered_view :
    [[.text "b", .text "a", .text "c"], [.text "a", .text "c", .text "b"]].foldlM Source.reordered
      source = .ok view := rfl

end Triples

/-- The middle items are put first and then last. -/
theorem Source.reordered_faithful_triples : Triples.source.WellFormed ∧
    (∀ handle, Triples.source.handle = some handle → ∀ lead position,
      (handle.scan lead position).Each Triples.source.Fits) ∧
    Triples.source.reordered [.text "a", .text "c", .text "b"] = .ok Triples.view ∧
    Triples.view.Presents Triples.source ∧
    ¬∃ v, Triples.source.reorderedAs (.list [.text "c", .text "b", .text "a"]) = .ok v := by
  obtain ⟨hiff, hchain⟩ :=
    Source.reordered_faithful Triples.source_wellFormed Triples.source_fits
  obtain ⟨hv, -, hpresents⟩ := hchain [[.text "b", .text "a", .text "c"]] _ _ Triples.reordered_view
  refine ⟨Triples.source_wellFormed, Triples.source_fits, hv, hpresents, ?_⟩
  rw [(hiff _ ["c", "b", "a"] rfl).1]
  exact fun h => absurd h.2 (by decide)

end JoinOrder
