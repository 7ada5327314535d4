import JoinOrder.Proofs.Reordered

/-!
# Accepted schemas

A source is made exactly if its declaration is acceptable: the kind is known, the columns have
different names of the right form, and the sort key consists of attributes in their order, of which
streams have none (`Source.declare?_accepts`). All other declarations are reported as malformed. A
name may end a line, although it is not meant to (`isName_iff`).
-/

namespace JoinOrder

theorem firstRepeat_eq_none {seen names : List Name} : firstRepeat seen names = none ↔
    names.Nodup ∧ ∀ name ∈ names, name ∉ seen := by
  induction names generalizing seen with
  | nil => simp [firstRepeat]
  | cons name rest ih =>
    rw [firstRepeat]
    by_cases h : name ∈ seen
    · simp [h]
    · rw [if_neg h, ih, List.nodup_cons, List.forall_mem_cons]
      constructor
      · rintro ⟨hd, hs⟩
        exact ⟨⟨fun hm => hs name hm List.mem_cons_self, hd⟩, h, fun n hn hm =>
          hs n hn (List.mem_cons_of_mem _ hm)⟩
      · rintro ⟨⟨hn, hd⟩, -, hs⟩
        refine ⟨hd, fun n hm hc => ?_⟩
        rcases List.mem_cons.1 hc with rfl | hc
        · exact hn hm
        · exact hs n hm hc

namespace Schema

/-! ## Names -/

def IsLetter (c : Char) : Prop := 'a' ≤ c ∧ c ≤ 'z' ∨ 'A' ≤ c ∧ c ≤ 'Z'

/-- A letter or an underscore, then letters, digits and some marks. -/
def IsSymbol (s : List Char) : Prop :=
  ∃ c rest, s = c :: rest ∧ (IsLetter c ∨ c = '_') ∧
    ∀ d ∈ rest, IsLetter d ∨ ('0' ≤ d ∧ d ≤ '9') ∨ d ∈ ['_', '-', '?', '*']

/-- A symbol, after which the line may end. -/
def IsSymbolLine (s : List Char) : Prop :=
  IsSymbol s ∨ ∃ symbol, s = symbol ++ ['\n'] ∧ IsSymbol symbol

theorem isLetter_iff {c : Char} : c.isAlpha = true ↔ IsLetter c := by
  have hupper : c.isUpper = true ↔ 'A' ≤ c ∧ c ≤ 'Z' := decide_eq_true_iff
  have hlower : c.isLower = true ↔ 'a' ≤ c ∧ c ≤ 'z' :=
    (Bool.and_eq_true_iff ..).trans (and_congr decide_eq_true_iff decide_eq_true_iff)
  rw [IsLetter, ← hupper, ← hlower, or_comm, ← Bool.or_eq_true]
  rfl

theorem isNameStart_iff {c : Char} : isNameStart c = true ↔ IsLetter c ∨ c = '_' := by
  rw [isNameStart, Bool.or_eq_true, isLetter_iff, decide_eq_true_iff]

theorem isNameRest_iff {c : Char} : isNameRest c = true ↔
    IsLetter c ∨ ('0' ≤ c ∧ c ≤ '9') ∨ c ∈ ['_', '-', '?', '*'] := by
  simp only [isNameRest, Char.isAlphanum, Bool.or_eq_true, isLetter_iff, Char.isDigit,
    Bool.and_eq_true, decide_eq_true_eq, Char.le_def, or_assoc]

theorem isSymbol_cons {c : Char} {rest : List Char} :
    IsSymbol (c :: rest) ↔ isNameStart c = true ∧ rest.all isNameRest = true := by
  simp only [IsSymbol, isNameStart_iff, List.all_eq_true, isNameRest_iff, List.cons.injEq]
  constructor
  · rintro ⟨d, tail, ⟨rfl, rfl⟩, h⟩
    exact h
  · exact fun h => ⟨c, rest, ⟨rfl, rfl⟩, h⟩

/-- What is accepted as a name is a symbol, but for one line end. -/
theorem isName_iff {s : String} : isName s = true ↔ IsSymbolLine s.toList := by
  rw [isName, IsSymbolLine]
  split
  · next hnil =>
    rw [hnil]
    refine iff_of_false Bool.false_ne_true ?_
    rintro (⟨c, rest, h, -⟩ | ⟨symbol, h, -⟩)
    · cases h
    · exact absurd h.symm (List.append_ne_nil_of_right_ne_nil _ (List.cons_ne_nil _ _))
  next c rest hcons =>
  rw [hcons, Bool.and_eq_true]
  split
  · next hlast =>
    obtain ⟨init, rfl⟩ := List.getLast?_eq_some_iff.1 hlast
    rw [List.dropLast_concat, ← isSymbol_cons]
    constructor
    · exact fun h => .inr ⟨c :: init, rfl, h⟩
    · rintro (h | ⟨symbol, h, hsymbol⟩)
      · -- A line end is no part of a symbol.
        have hend := (isSymbol_cons.1 h).2
        rw [List.all_append, Bool.and_eq_true] at hend
        exact absurd hend.2 (by decide)
      · rw [← List.cons_append, List.append_left_inj] at h
        rwa [h]
  · next hlast =>
    rw [← isSymbol_cons]
    refine ⟨.inl, ?_⟩
    rintro (h | ⟨symbol, h, hsymbol⟩)
    · exact h
    · obtain ⟨d, init, rfl, -⟩ := hsymbol
      rw [List.cons_append, List.cons.injEq] at h
      exact absurd (List.getLast?_eq_some_iff.2 ⟨init, h.2⟩) hlast

/-! ## Parts of a declaration -/

variable {given kind attributes position sorted : Value} {count i : Nat} {offsets : List Nat}
  {name : Name} {s : Schema}

/-- A value is a kind, or the text of one in any case. -/
def IsKind (given : Value) (kind : SourceKind) : Prop :=
  given = .tag (.source kind) ∨
    ∃ t, given = .text t ∧ t.toList.map Char.toLower = kind.text.toList

/-- A value is a text of the form that names have. -/
def IsColumn (IsName : List Char → Prop) (given : Value) : Prop :=
  ∃ t : String, given = .text t ∧ IsName t.toList

/-- The sort key is given by its length, or by offsets in increasing order. -/
def GivesOffsets (count : Nat) (given : Value) (offsets : List Nat) : Prop :=
  (∃ n : Nat, given = .ofNat n ∧ n ≤ count ∧ offsets = List.range n) ∨
    given.elements = .ok (offsets.map .ofNat) ∧ offsets.Pairwise (· < ·) ∧ ∀ i ∈ offsets, i < count

theorem IsColumn.text {IsName : List Char → Prop} (h : IsColumn IsName given) :
    ∃ t, given.toName = .text t := by
  obtain ⟨t, rfl, -⟩ := h
  exact ⟨t, rfl⟩

theorem GivesOffsets.increasing (h : GivesOffsets count given offsets) :
    offsets.Pairwise (· < ·) := by
  obtain ⟨n, -, -, rfl⟩ | ⟨-, hincreasing, -⟩ := h
  · exact List.pairwise_lt_range
  · exact hincreasing

theorem GivesOffsets.lt (h : GivesOffsets count given offsets) : ∀ i ∈ offsets, i < count := by
  obtain ⟨n, -, hn, rfl⟩ | ⟨-, -, hlt⟩ := h
  · exact fun i hi => Nat.lt_of_lt_of_le (List.mem_range.1 hi) hn
  · exact hlt

theorem parseKind_eq_ok {k : SourceKind} : parseKind given = .ok k ↔ IsKind given k := by
  unfold parseKind
  split
  · next kind => simp [IsKind]
  · next t =>
    have hkind : IsKind (.text t) k ↔ t.toLower = k.text := by
      have hlower : t.toLower.toList = t.toList.map Char.toLower := String.toList_map ..
      rw [← String.toList_inj, hlower]
      simp [IsKind]
    rw [hkind]
    split
    · next h =>
      rw [h]
      cases k <;> simp [SourceKind.text]
    split
    · next h =>
      rw [h]
      cases k <;> simp [SourceKind.text]
    · next htable hstream =>
      refine iff_of_false Checked.error_ne_ok ?_
      cases k with
      | table => exact htable
      | stream => exact hstream
  · next hkind htext =>
    refine iff_of_false Checked.error_ne_ok ?_
    rintro (rfl | ⟨t, rfl, -⟩)
    · exact hkind k rfl
    · exact htext t rfl

theorem IsKind.unique {k k' : SourceKind} (h : IsKind given k) (h' : IsKind given k') : k = k' :=
  Except.ok.inj ((parseKind_eq_ok.2 h).symm.trans (parseKind_eq_ok.2 h'))

theorem parseName_eq_ok :
    parseName given = .ok name ↔ IsColumn IsSymbolLine given ∧ name = given.toName := by
  unfold parseName
  split
  · next t =>
    have hcolumn : IsColumn IsSymbolLine (.text t) ↔ IsSymbolLine t.toList := by simp [IsColumn]
    rw [hcolumn, ← isName_iff]
    split
    · next h =>
      rw [Except.ok.injEq, Value.toName, eq_comm]
      exact (and_iff_right h).symm
    · next h => exact iff_of_false Checked.error_ne_ok fun hn => h hn.1
  · next hne =>
    refine iff_of_false Checked.error_ne_ok ?_
    rintro ⟨⟨t, rfl, -⟩, -⟩
    exact hne t rfl

theorem parseNames_eq_ok {items : List Value} {names : List Name} :
    items.mapM parseName = .ok names ↔
      (∀ v ∈ items, IsColumn IsSymbolLine v) ∧ names = items.map Value.toName := by
  rw [Checked.mapM_eq_ok]
  simp only [parseName_eq_ok]
  constructor
  · intro h
    induction h with
    | nil => exact ⟨nofun, rfl⟩
    | cons hv _ ih => exact ⟨List.forall_mem_cons.2 ⟨hv.1, ih.1⟩, List.cons_eq_cons.2 ⟨hv.2, ih.2⟩⟩
  · rintro ⟨h, rfl⟩
    exact List.forall₂_map_right_iff.2 (List.forall₂_same.2 fun v hv => ⟨h v hv, rfl⟩)

theorem parseOffset_eq_ok : parseOffset count given = .ok i ↔ given = .ofNat i ∧ i < count := by
  unfold parseOffset
  split
  · next n =>
    rw [Value.ofNat, Value.int.injEq]
    split
    · rw [Except.ok.injEq]
      omega
    · exact iff_of_false Checked.error_ne_ok (by omega)
  · next hne =>
    refine iff_of_false Checked.error_ne_ok ?_
    rintro ⟨rfl, -⟩
    exact hne i rfl

theorem parseOffsets_eq_ok {items : List Value} :
    items.mapM (parseOffset count) = .ok offsets ↔
      items = offsets.map .ofNat ∧ ∀ i ∈ offsets, i < count := by
  rw [Checked.mapM_eq_ok]
  simp only [parseOffset_eq_ok]
  constructor
  · intro h
    induction h with
    | nil => exact ⟨rfl, nofun⟩
    | cons hi _ ih =>
      exact ⟨List.cons_eq_cons.2 ⟨hi.1, ih.1⟩, List.forall_mem_cons.2 ⟨hi.2, ih.2⟩⟩
  · rintro ⟨rfl, h⟩
    exact List.forall₂_map_left_iff.2 (List.forall₂_same.2 fun i hi => ⟨rfl, h i hi⟩)

theorem parseSorted_eq_ok : parseSorted count given = .ok offsets ↔
    GivesOffsets count given offsets := by
  unfold parseSorted
  split
  · refine iff_of_false Checked.error_ne_ok ?_
    rintro (⟨n, h, -⟩ | ⟨h, -⟩) <;> cases h
  · next n =>
    have hgives : GivesOffsets count (.int n) offsets ↔
        ∃ m : Nat, n = m ∧ m ≤ count ∧ offsets = List.range m := by
      simp [GivesOffsets, Value.elements, Value.ofNat]
    rw [hgives]
    split
    · next h =>
      obtain ⟨m, rfl⟩ := Int.eq_ofNat_of_zero_le h.1
      rw [Int.toNat_natCast, Except.ok.injEq]
      refine ⟨fun ho => ⟨m, rfl, by omega, ho.symm⟩, ?_⟩
      rintro ⟨k, hk, -, rfl⟩
      rw [Int.ofNat_inj.1 hk]
    · next h =>
      refine iff_of_false Checked.error_ne_ok ?_
      rintro ⟨m, rfl, hm, -⟩
      omega
  · next hint =>
    have hgives : GivesOffsets count given offsets ↔ given.elements = .ok (offsets.map .ofNat) ∧
        offsets.Pairwise (· < ·) ∧ ∀ i ∈ offsets, i < count := by
      refine or_iff_right ?_
      rintro ⟨n, rfl, -⟩
      exact hint n rfl
    simp only [hgives, Checked.bind_eq_ok, parseOffsets_eq_ok]
    constructor
    · rintro ⟨items, hitems, found, ⟨rfl, hlt⟩, h⟩
      split at h
      · next hincreasing =>
        cases h
        exact ⟨hitems, strictlyIncreasing_iff.1 hincreasing, hlt⟩
      · cases h
    · rintro ⟨hitems, hincreasing, hlt⟩
      refine ⟨_, hitems, offsets, ⟨rfl, hlt⟩, ?_⟩
      rw [if_pos (strictlyIncreasing_iff.2 hincreasing), Checked.pure_def]

/-! ## Stages of a declaration -/

/-- The value that names the position column. Null means that there is none. -/
def positionGiven : Value → Option Value
  | .null => none
  | given => some given

def parsePosition : Value → Checked (Option Name)
  | .null => .ok none
  | given => (parseName given).map some

/-- The checks that follow once all names are read. -/
def complete (kind : SourceKind) (attributes : List Name) (position : Option Name)
    (sorted : Value) : Checked Schema := do
  match firstRepeat [] (attributes ++ position.toList) with
  | some name => throw (.schema (.duplicateName (.ofName name)))
  | none => pure ()
  let sortOffsets ← parseSorted attributes.length sorted
  if kind = .stream ∧ sortOffsets ≠ [] then throw (.schema (.sortedStream sorted))
  return { kind, attributes, position, sortOffsets }

theorem declare?_eq : declare? kind attributes position sorted = (do
    let kind ← parseKind kind
    let attributes ← (← attributes.elements).mapM parseName
    let position ← parsePosition position
    complete kind attributes position sorted) := by
  cases position <;> rfl

theorem parsePosition_eq_ok {column : Option Name} : parsePosition position = .ok column ↔
    (∀ v ∈ positionGiven position, IsColumn IsSymbolLine v) ∧
      column = (positionGiven position).map Value.toName := by
  unfold parsePosition positionGiven
  split
  · simp [eq_comm]
  · simp only [Checked.map_eq_ok, parseName_eq_ok, Option.mem_some_iff, forall_eq', Option.map_some]
    constructor
    · rintro ⟨name, ⟨hcolumn, rfl⟩, rfl⟩
      exact ⟨hcolumn, rfl⟩
    · rintro ⟨hcolumn, rfl⟩
      exact ⟨_, ⟨hcolumn, rfl⟩, rfl⟩

theorem complete_eq_ok {k : SourceKind} {names : List Name} {column : Option Name} :
    complete k names column sorted = .ok s ↔ (names ++ column.toList).Nodup ∧
      ∃ offsets, GivesOffsets names.length sorted offsets ∧ (k = .stream → offsets = []) ∧
        s = ⟨k, names, column, offsets⟩ := by
  have hrepeat : firstRepeat [] (names ++ column.toList) = none ↔
      (names ++ column.toList).Nodup := by
    rw [firstRepeat_eq_none, and_iff_left (by simp)]
  rw [← hrepeat, complete]
  cases firstRepeat [] (names ++ column.toList) with
  | some name => exact iff_of_false Checked.error_ne_ok fun h => nomatch h.1
  | none =>
    simp only [Checked.bind_eq_ok, Checked.guard_eq_ok, parseSorted_eq_ok, true_and,
      Checked.pure_def, Except.ok.injEq, not_and, not_not, eq_comm (a := s)]

/-! ## Acceptable declarations -/

/-- The values that name the columns: the attributes, then the position column if there is one. -/
def columnsGiven (attributes : List Value) (position : Value) : List Value :=
  attributes ++ (positionGiven position).toList

/-- What a declaration has to be like, where names are of a given form. -/
structure Acceptable (IsName : List Char → Prop) (kind : Value) (attributes : List Value)
    (position sorted : Value) : Prop where
  known : ∃ k, IsKind kind k
  named : ∀ v ∈ columnsGiven attributes position, IsColumn IsName v
  distinct : (columnsGiven attributes position).Nodup
  ordered : ∃ offsets, GivesOffsets attributes.length sorted offsets ∧
    (IsKind kind .stream → offsets = [])

theorem map_columnsGiven {items : List Value} : (columnsGiven items position).map Value.toName =
    items.map Value.toName ++ ((positionGiven position).map Value.toName).toList := by
  rw [columnsGiven, List.map_append, Option.toList_map]

theorem forall_mem_columnsGiven {items : List Value} {p : Value → Prop} :
    (∀ v ∈ columnsGiven items position, p v) ↔
      (∀ v ∈ items, p v) ∧ ∀ v ∈ positionGiven position, p v := by
  simp only [columnsGiven, List.forall_mem_append, Option.mem_toList, Option.mem_def]

/-- Different texts name different columns. -/
theorem nodup_toName {IsName : List Char → Prop} {items : List Value}
    (h : ∀ v ∈ items, IsColumn IsName v) : (items.map Value.toName).Nodup ↔ items.Nodup := by
  refine ⟨List.Nodup.of_map _, fun hd => (List.nodup_map_iff_inj_on hd).2 fun v hv w hw he => ?_⟩
  obtain ⟨t, rfl, -⟩ := h v hv
  obtain ⟨u, rfl, -⟩ := h w hw
  exact congrArg Value.text (Name.text.inj he)

theorem exists_declare?_iff {items : List Value} (ha : attributes.elements = .ok items) :
    (∃ s, declare? kind attributes position sorted = .ok s) ↔
      Acceptable IsSymbolLine kind items position sorted := by
  simp only [declare?_eq, Checked.bind_eq_ok, ha, parseKind_eq_ok, parseNames_eq_ok,
    parsePosition_eq_ok]
  constructor
  · rintro ⟨s, k, hk, _, ⟨⟩, _, ⟨hitems, rfl⟩, _, ⟨hposition, rfl⟩, h⟩
    obtain ⟨hdistinct, offsets, hoffsets, hstream, -⟩ := complete_eq_ok.1 h
    have hall := forall_mem_columnsGiven.2 ⟨hitems, hposition⟩
    rw [← map_columnsGiven, nodup_toName hall] at hdistinct
    rw [List.length_map] at hoffsets
    exact ⟨⟨k, hk⟩, hall, hdistinct, offsets, hoffsets, fun h => hstream (hk.unique h)⟩
  · rintro ⟨⟨k, hk⟩, hall, hdistinct, offsets, hoffsets, hstream⟩
    obtain ⟨hitems, hposition⟩ := forall_mem_columnsGiven.1 hall
    rw [← nodup_toName hall, map_columnsGiven] at hdistinct
    exact ⟨_, k, hk, _, rfl, _, ⟨hitems, rfl⟩, _, ⟨hposition, rfl⟩, complete_eq_ok.2
      ⟨hdistinct, offsets, by rwa [List.length_map], fun h => hstream (h ▸ hk), rfl⟩⟩

/-! ## Reported declarations -/

/-- A value that can be written. -/
def IsShown (v : Value) : Prop := v.requireShown = .ok ()

/-- A malformed declaration, which is reported as such if its values can be written. -/
def Malformed (shown : Prop) (f : Fault) : Prop :=
  ∃ cause, f = .schema cause ∧ (shown → f.reported = f)

variable {shown : Prop}

theorem malformed_of_shown {cause : SchemaFault} {v : Value} (hv : cause.value? = some v)
    (h : shown → IsShown v) : Malformed shown (.schema cause) := by
  refine ⟨cause, rfl, fun hall => ?_⟩
  have hshown : v.requireShown = .ok () := h hall
  simp only [Fault.reported, hv, Option.map_some, Option.getD_some, hshown]

theorem requireAllShown_eq_ok {xs : List Value} :
    Value.requireAllShown xs = .ok () ↔ ∀ x ∈ xs, IsShown x := by
  induction xs with
  | nil => simp [Value.requireAllShown]
  | cons x xs ih =>
    rw [Value.requireAllShown, Checked.bind_eq_ok, List.forall_mem_cons, ← ih]
    exact ⟨fun ⟨_, hx, hxs⟩ => ⟨hx, hxs⟩, fun h => ⟨(), h⟩⟩

theorem requireEntriesShown_keys {entries : List (Value × Value)}
    (h : Value.requireEntriesShown entries = .ok ()) : ∀ e ∈ entries, IsShown e.1 := by
  induction entries with
  | nil => exact nofun
  | cons e entries ih =>
    rw [Value.requireEntriesShown, Checked.bind_eq_ok] at h
    obtain ⟨_, hk, h⟩ := h
    rw [Checked.bind_eq_ok] at h
    obtain ⟨_, -, h⟩ := h
    exact List.forall_mem_cons.2 ⟨hk, ih h⟩

theorem isShown_tuple_ofNat {ns : List Nat} : IsShown (.tuple (ns.map .ofNat)) := by
  rw [IsShown, Value.requireShown, requireAllShown_eq_ok, List.forall_mem_map]
  exact fun n _ => by simp [IsShown, Value.requireShown, Value.ofNat]

theorem isShown_ofPoints (points : List Nat) : IsShown (.ofPoints points) := by
  rw [Value.ofPoints]
  split <;> simp [IsShown, Value.requireShown]

/-- Of a sequence that can be written each item can be. -/
theorem IsShown.of_elements {v : Value} {items : List Value} (h : IsShown v)
    (hitems : v.elements = .ok items) : ∀ x ∈ items, IsShown x := by
  unfold Value.elements at hitems
  rw [IsShown] at h
  split at hitems <;> cases hitems
  iterate 4 exact requireAllShown_eq_ok.1 (by simpa only [Value.requireShown] using h)
  · rw [Value.requireShown] at h
    exact List.forall_mem_map.2 (requireEntriesShown_keys h)
  · exact List.forall_mem_map.2 fun c _ => by simp [IsShown, Value.requireShown]
  · exact List.forall_mem_map.2 fun n _ => isShown_ofPoints [n]

theorem ends_parseKind (h : shown → IsShown given) :
    Checked.Ends (Malformed shown) (fun _ => True) (parseKind given) := by
  have hfault : Malformed shown (.schema (.unknownKind given)) :=
    malformed_of_shown rfl h
  unfold parseKind
  split
  · trivial
  · split
    · trivial
    split
    · trivial
    · exact hfault
  · exact hfault

theorem ends_parseName (h : shown → IsShown given) :
    Checked.Ends (Malformed shown) (fun _ => True) (parseName given) := by
  have hfault : Malformed shown (.schema (.invalidName given)) :=
    malformed_of_shown rfl h
  unfold parseName
  split
  · split
    · trivial
    · exact hfault
  · exact hfault

theorem ends_parsePosition (h : shown → IsShown position) :
    Checked.Ends (Malformed shown) (fun _ => True) (parsePosition position) := by
  unfold parsePosition
  split
  · trivial
  · exact (ends_parseName h).bind fun _ _ => trivial

theorem ends_parseOffset (h : shown → IsShown given) :
    Checked.Ends (Malformed shown) (fun _ => True) (parseOffset count given) := by
  have hfault : Malformed shown (.schema (.sortedOffsetOutOfRange given)) :=
    malformed_of_shown rfl h
  unfold parseOffset
  split
  · split
    · trivial
    · exact hfault
  · exact hfault

/-- The sort key is given by a number, or by a sequence of items. -/
def SortGiven (sorted : Value) : Prop :=
  (∃ n, sorted = .int n) ∨ (∃ b, sorted = .bool b) ∨ ∃ items, sorted.elements = .ok items

theorem ends_parseSorted (hsorted : SortGiven given) (h : shown → IsShown given) :
    Checked.Ends (Malformed shown) (fun _ => True) (parseSorted count given) := by
  unfold parseSorted
  split
  · exact malformed_of_shown rfl h
  · split
    · trivial
    · exact malformed_of_shown rfl h
  · next hbool hint =>
    obtain ⟨n, rfl⟩ | ⟨b, rfl⟩ | ⟨items, hitems⟩ := hsorted
    · exact absurd rfl (hint n)
    · exact absurd rfl (hbool b)
    rw [hitems, Checked.bind_ok]
    have hoffsets : Checked.Ends (Malformed shown) _ (items.mapM (parseOffset count)) :=
      Checked.ends_mapM fun v hv => ends_parseOffset fun hall => (h hall).of_elements hitems v hv
    refine hoffsets.bind fun offsets _ => ?_
    split
    · trivial
    · exact malformed_of_shown rfl fun _ => isShown_tuple_ofNat

theorem ends_complete {k : SourceKind} {names : List Name} {column : Option Name}
    (hsorted : SortGiven sorted) (h : shown → IsShown sorted) :
    Checked.Ends (Malformed shown) (fun _ => True) (complete k names column sorted) := by
  unfold complete
  cases firstRepeat [] (names ++ column.toList) with
  | some name =>
    exact malformed_of_shown rfl fun _ => by simp [IsShown, Value.ofName, Value.requireShown]
  | none =>
    refine (ends_parseSorted hsorted h).bind fun offsets _ => ?_
    dsimp only
    split
    · exact malformed_of_shown rfl h
    · trivial

theorem ends_declare? {items : List Value} (ha : attributes.elements = .ok items)
    (hsorted : SortGiven sorted) :
    Checked.Ends (Malformed (∀ v ∈ [kind, attributes, position, sorted], IsShown v))
      (fun _ => True) (declare? kind attributes position sorted) := by
  simp only [List.forall_mem_cons]
  rw [declare?_eq, ha]
  refine (ends_parseKind fun hall => hall.1).bind fun k _ => ?_
  refine Checked.Ends.bind (P := fun xs => xs = items) rfl fun _ h => ?_
  subst h
  refine (Checked.ends_mapM fun v hv => ends_parseName fun hall =>
    IsShown.of_elements (And.left (And.right hall)) ha v hv).bind fun names _ => ?_
  refine (ends_parsePosition fun hall => hall.2.2.1).bind fun column _ => ?_
  exact ends_complete hsorted fun hall => hall.2.2.2.1

end Schema

namespace Source

variable {kind attributes position sorted : Value} {items : List Value}

/-- A source is made exactly if its declaration is acceptable, where a name may end a line. Any
other declaration is reported as malformed if its values can be written. -/
theorem declare?_accepts (handle : Option Handle) (ha : attributes.elements = .ok items)
    (hsorted : Schema.SortGiven sorted) :
    ((∃ s, declare? kind handle attributes position sorted = .ok s) ↔
      Schema.Acceptable Schema.IsSymbolLine kind items position sorted) ∧
    (¬Schema.Acceptable Schema.IsSymbolLine kind items position sorted →
      ∃ cause, declare? kind handle attributes position sorted = .error (.schema cause) ∧
        ((∀ v ∈ [kind, attributes, position, sorted], v.requireShown = .ok ()) →
          (Fault.schema cause).reported = .schema cause)) := by
  have haccepts : (∃ s, Schema.declare? kind attributes position sorted = .ok s) ↔
      Schema.Acceptable Schema.IsSymbolLine kind items position sorted :=
    Schema.exists_declare?_iff ha
  have hends : Checked.Ends _ _ (Schema.declare? kind attributes position sorted) :=
    Schema.ends_declare? ha hsorted
  unfold declare?
  cases h : Schema.declare? kind attributes position sorted with
  | ok schema =>
    have hacceptable := haccepts.1 ⟨schema, h⟩
    exact ⟨iff_of_true ⟨_, rfl⟩ hacceptable, fun hn => absurd hacceptable hn⟩
  | error f =>
    rw [h] at hends
    obtain ⟨cause, rfl, hreported⟩ := hends
    have hrefused : ¬Schema.Acceptable Schema.IsSymbolLine kind items position sorted := by
      intro hacceptable
      obtain ⟨schema, hs⟩ := haccepts.2 hacceptable
      cases h.symm.trans hs
    exact ⟨iff_of_false nofun hrefused, fun _ => ⟨cause, rfl, hreported⟩⟩

/-- Three columns and their positions can be declared as a table that is sorted by two of them, but
not as a stream. -/
theorem declare?_accepts_sorted :
    (∃ s, declare? (.text "Table") none (.list [.text "a", .text "b-1", .text "_c?"]) (.text "p")
      (.list [.int 0, .int 2]) = .ok s) ∧
    ∃ cause, declare? (.text "STREAM") none (.list [.text "a", .text "b-1", .text "_c?"])
        (.text "p") (.list [.int 0, .int 2]) = .error (.schema cause) ∧
      (Fault.schema cause).reported = .schema cause := by
  have hitems : (Value.list [.text "a", .text "b-1", .text "_c?"]).elements =
      .ok [.text "a", .text "b-1", .text "_c?"] := rfl
  have hsorted : Schema.SortGiven (.list [.int 0, .int 2]) := .inr (.inr ⟨_, rfl⟩)
  constructor
  · have htable : Schema.IsKind (.text "Table") .table := .inr ⟨_, rfl, by decide⟩
    have hname : ∀ t ∈ ["a", "b-1", "_c?", "p"],
        Schema.IsColumn Schema.IsSymbolLine (.text t) := fun t ht =>
      ⟨t, rfl, Schema.isName_iff.1 (List.all_eq_true.1 (by decide) t ht)⟩
    refine (declare?_accepts none hitems hsorted).1.2 ⟨⟨_, htable⟩, ?_, ?_, [0, 2], ?_, ?_⟩
    · simpa [Schema.columnsGiven, Schema.positionGiven] using hname
    · simp [Schema.columnsGiven, Schema.positionGiven]
    · exact .inr ⟨rfl, by decide, by decide⟩
    · intro hstream
      cases htable.unique hstream
  · have hstream : Schema.IsKind (.text "STREAM") .stream := .inr ⟨_, rfl, by decide⟩
    have hrefused : ¬Schema.Acceptable Schema.IsSymbolLine (.text "STREAM")
        [.text "a", .text "b-1", .text "_c?"] (.text "p") (.list [.int 0, .int 2]) := by
      intro h
      obtain ⟨offsets, hoffsets, hempty⟩ := h.ordered
      rw [hempty hstream] at hoffsets
      obtain ⟨n, hn, -⟩ | ⟨hn, -⟩ := hoffsets <;> cases hn
    obtain ⟨cause, herror, hreported⟩ := (declare?_accepts none hitems hsorted).2 hrefused
    exact ⟨cause, herror, hreported (by simp [Value.requireShown, Value.requireAllShown])⟩

/-- A name that ends a line is no symbol, and it is accepted. -/
theorem not_declare?_accepts : ¬∀ (kind attributes position sorted : Value) (items : List Value),
    attributes.elements = .ok items → Schema.SortGiven sorted →
    ((∃ s, declare? kind none attributes position sorted = .ok s) ↔
      Schema.Acceptable Schema.IsSymbol kind items position sorted) := by
  intro h
  have hline := (h (.tag (.source .table)) (.list [.text "a\n"]) .null (.int 0) [.text "a\n"] rfl
    (.inl ⟨0, rfl⟩)).1 ⟨_, rfl⟩
  obtain ⟨t, ht, hsymbol⟩ := hline.named (.text "a\n") List.mem_cons_self
  cases ht
  have hrest : ['\n'].all Schema.isNameRest = true := (Schema.isSymbol_cons.1 hsymbol).2
  exact absurd hrest (by decide)

end Source
end JoinOrder
