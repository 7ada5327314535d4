import JoinOrder.Proofs.Assignment

/-!
# Atoms

`Atom.WellFormed` is what a declaration makes sure of. `Atom.variableBinding` finds an assignment
where each variable has one value (`Atom.oneValue`). For values of a class it depends on the codes
of a tuple only (`Atom.meaning`).
-/

namespace JoinOrder
namespace Atom

/-- Each variable occurs once and is mapped to attributes of the relation, and no attribute is
mapped twice. -/
structure WellFormed (a : Atom) : Prop where
  vars_nodup : a.vars.Nodup
  mapped : ∀ e ∈ a.bindings, e.2 ≠ []
  attributes_nodup : (a.bindings.flatMap Prod.snd).Nodup
  attributes_mem : ∀ e ∈ a.bindings, ∀ name ∈ e.2, name ∈ a.relation.attributes

/-! ## Declarations -/

section

variable {relation : Relation} {seen all : List Name} {names : List Value}
  {bindings : List (Variable × List Name)} {v : Variable}

/-- The attributes of a variable are new, and they belong to the relation. -/
theorem parseAttributes_spec (h : parseAttributes relation seen names = .ok all)
    (hs : seen.Nodup) : all = seen ++ names.map Value.toName ∧ all.Nodup ∧
      ∀ name ∈ names.map Value.toName, name ∈ relation.attributes := by
  induction names generalizing seen with
  | nil =>
    cases h
    exact ⟨(List.append_nil _).symm, hs, nofun⟩
  | cons given rest ih =>
    simp only [parseAttributes, Checked.guard_eq_ok, Checked.bind_eq_ok, not_not] at h
    obtain ⟨hm, _, -, hn, _, -, h⟩ := h
    have hd : (seen ++ [given.toName]).Nodup :=
      List.nodup_append_comm.1 (List.nodup_cons.2 ⟨hn, hs⟩)
    obtain ⟨rfl, hall, hmem⟩ := ih h hd
    rw [List.map_cons]
    exact ⟨by simp, hall, List.forall_mem_cons.2 ⟨hm, hmem⟩⟩

theorem mem_setBinding {new : List Name} {e : Variable × List Name}
    (h : e ∈ setBinding bindings v new) : e = (v, new) ∨ e ∈ bindings := by
  induction bindings with
  | nil => exact .inl (List.mem_singleton.1 h)
  | cons b rest ih =>
    obtain ⟨w, old⟩ := b
    rw [setBinding] at h
    split at h
    · next hw =>
      subst hw
      rcases List.mem_cons.1 h with h | h
      · exact .inl h
      · exact .inr (List.mem_cons_of_mem _ h)
    · rcases List.mem_cons.1 h with h | h
      · exact .inr (h ▸ List.mem_cons_self)
      · exact (ih h).imp_right (List.mem_cons_of_mem _)

theorem vars_setBinding (new : List Name) : (setBinding bindings v new).map Prod.fst =
    if v ∈ bindings.map Prod.fst then bindings.map Prod.fst else bindings.map Prod.fst ++ [v] := by
  induction bindings with
  | nil => rfl
  | cons b rest ih =>
    obtain ⟨w, old⟩ := b
    rw [setBinding]
    by_cases hw : w = v
    · simp [hw]
    · rw [if_neg hw, List.map_cons, List.map_cons, ih]
      by_cases hv : v ∈ rest.map Prod.fst <;> simp [hv, Ne.symm hw]

/-- Replacing the attributes of a variable by new ones repeats none. -/
theorem nodup_setBinding {new : List Name} (h : (bindings.flatMap Prod.snd ++ new).Nodup) :
    ((setBinding bindings v new).flatMap Prod.snd).Nodup := by
  induction bindings with
  | nil => simpa [setBinding] using h
  | cons b rest ih =>
    obtain ⟨w, old⟩ := b
    rw [setBinding]
    rw [List.flatMap_cons, List.append_assoc, List.nodup_append] at h
    split
    · rw [List.flatMap_cons]
      exact List.nodup_append_comm.1 h.2.1
    · rw [List.flatMap_cons, List.nodup_append]
      refine ⟨h.1, ih h.2.1, fun x hx y hy => ?_⟩
      obtain ⟨e, he, hy⟩ := List.mem_flatMap.1 hy
      refine h.2.2 x hx y (List.mem_append.2 ?_)
      rcases mem_setBinding he with rfl | he
      · exact .inr hy
      · exact .inl (List.mem_flatMap.2 ⟨e, he, hy⟩)

/-- What is kept while the variables of an atom are declared, one after the other. -/
structure Declares (relation : Relation) (seen : List Name)
    (bindings : List (Variable × List Name)) : Prop where
  seen_nodup : seen.Nodup
  mem_seen : ∀ e ∈ bindings, ∀ name ∈ e.2, name ∈ seen
  wellFormed : WellFormed ⟨relation, bindings⟩

theorem Declares.set (H : Declares relation seen bindings)
    (hp : parseAttributes relation seen names = .ok all) (hn : names ≠ []) :
    Declares relation all (setBinding bindings v (names.map Value.toName)) := by
  obtain ⟨rfl, hd, hm⟩ := parseAttributes_spec hp H.seen_nodup
  refine ⟨hd, fun e he name h => ?_, ?_, fun e he => ?_, ?_, fun e he name h => ?_⟩
  · rcases mem_setBinding he with rfl | he
    · exact List.mem_append_right _ h
    · exact List.mem_append_left _ (H.mem_seen e he name h)
  · unfold vars
    rw [vars_setBinding]
    split
    · exact H.wellFormed.vars_nodup
    · next hv => exact List.nodup_append_comm.1 (List.nodup_cons.2 ⟨hv, H.wellFormed.vars_nodup⟩)
  · rcases mem_setBinding he with rfl | he
    · exact mt List.map_eq_nil_iff.1 hn
    · exact H.wellFormed.mapped e he
  · refine nodup_setBinding (List.nodup_append.2 ⟨H.wellFormed.attributes_nodup, ?_⟩)
    rw [List.nodup_append] at hd
    refine ⟨hd.2.1, fun x hx y hy => ?_⟩
    obtain ⟨e, he, hx⟩ := List.mem_flatMap.1 hx
    exact hd.2.2 x (H.mem_seen e he x hx) y hy
  · rcases mem_setBinding he with rfl | he
    · exact hm name h
    · exact H.wellFormed.attributes_mem e he name h

/-- The attributes that an entry maps its variable to: one, or a sequence of them. -/
def mentioned : Value → List Name
  | .text s => [.text s]
  | given =>
    match given.elements with
    | .ok names => names.map Value.toName
    | .error _ => []

/-- Each entry maps its variable to the attributes that it mentions. What an earlier entry has
mapped the variable to is replaced. -/
theorem parseBindings_spec {entries : List (Value × Value)}
    {found : List (Variable × List Name)} (H : Declares relation seen bindings)
    (h : parseBindings relation seen bindings entries = .ok found) :
    WellFormed ⟨relation, found⟩ ∧
      found = entries.foldl (fun found e => setBinding found e.1.asVariable (mentioned e.2))
        bindings := by
  induction entries generalizing seen bindings with
  | nil =>
    cases h
    exact ⟨H.wellFormed, rfl⟩
  | cons e rest ih =>
    obtain ⟨key, given⟩ := e
    have hstep : ∃ names all, names.map Value.toName = mentioned given ∧ names ≠ [] ∧
        parseAttributes relation seen names = .ok all ∧
        parseBindings relation all
          (setBinding bindings key.asVariable (all.drop seen.length)) rest = .ok found := by
      unfold parseBindings at h
      -- One name and a sequence of names are read alike.
      split at h <;> simp only [Checked.guard_eq_ok, Checked.bind_eq_ok, List.isEmpty_iff] at h
      · obtain ⟨names, hnames, hn, all, hp, h⟩ := h
        cases hnames
        exact ⟨_, all, rfl, hn, hp, h⟩
      · next hsequence =>
        obtain ⟨names, hnames, hn, all, hp, h⟩ := h
        refine ⟨names, all, ?_, hn, hp, h⟩
        rw [mentioned, hnames]
        exact hsequence
    obtain ⟨names, all, hnames, hn, hp, h⟩ := hstep
    have hset := H.set (v := key.asVariable) hp hn
    obtain ⟨hall, -, -⟩ := parseAttributes_spec hp H.seen_nodup
    rw [hall, List.drop_left] at h
    rw [hall, hnames] at hset
    rw [hnames] at h
    rw [List.foldl_cons]
    exact ih hset h

/-- What a declaration that succeeds has read. -/
theorem declare?_spec {entries : List (Value × Value)} {a : Atom}
    (h : declare? relation entries = .ok a) : a.WellFormed ∧ a.relation = relation ∧
      a.bindings = entries.foldl (fun found e => setBinding found e.1.asVariable (mentioned e.2))
        [] := by
  simp only [declare?, Checked.guard_eq_ok, Checked.bind_eq_ok] at h
  obtain ⟨bindings, hb, -, h⟩ := h
  cases h
  have H : Declares relation [] [] := by
    refine ⟨List.nodup_nil, fun _ he => absurd he List.not_mem_nil, ?_⟩
    exact ⟨List.nodup_nil, fun _ he => absurd he List.not_mem_nil, List.nodup_nil,
      fun _ he => absurd he List.not_mem_nil⟩
  obtain ⟨hwf, hfound⟩ := parseBindings_spec H hb
  exact ⟨hwf, rfl, hfound⟩

/-- Atoms that were declared are well-formed. -/
theorem declare?_wellFormed {entries : List (Value × Value)} {a : Atom}
    (h : declare? relation entries = .ok a) : a.WellFormed := (declare?_spec h).1

end

/-! ## Equal values -/

/-- The value of a tuple under one of its names. -/
def valueUnder (columns : List Name) (t : List Value) (name : Name) : Value :=
  t.getD (columns.idxOf name) .null

/-- The first of the values under some names, if the others are the same. -/
def oneValue (value : Name → Value) : List Name → Option Value
  | [] => none
  | first :: rest =>
    if ∀ name ∈ rest, Value.same (value first) (value name) = true then some (value first)
    else none

section

variable {a : Atom} {columns attributes : List Name} {name : Name} {t : List Value} {x : Value}
  {value : Name → Value} {bindings : List (Variable × List Name)}

theorem oneValue_eq_some (h : oneValue value attributes = some x) :
    ∃ first rest, attributes = first :: rest ∧ x = value first ∧
      ∀ name ∈ rest, Value.same (value first) (value name) = true := by
  match attributes with
  | first :: rest =>
    rw [oneValue] at h
    split at h
    · next hsame =>
      cases h
      exact ⟨first, rest, rfl, rfl, hsame⟩
    · cases h

theorem getElem?_valueUnder (ht : t.length = columns.length) (h : name ∈ columns) :
    t[columns.idxOf name]? = some (valueUnder columns t name) := by
  have hi : columns.idxOf name < t.length := ht ▸ List.idxOf_lt_length_iff.2 h
  rw [valueUnder, List.getD_eq_getElem?_getD, List.getElem?_eq_getElem hi, Option.getD_some]

/-- Where values are compared, they have to be keys. -/
theorem commonValue_eq (ht : t.length = columns.length) (hn : attributes ≠ [])
    (hm : ∀ name ∈ attributes, name ∈ columns) (hk : 1 < attributes.length →
      ∀ name ∈ attributes, (valueUnder columns t name).isKey = true) :
    commonValue columns t attributes = .ok (oneValue (valueUnder columns t) attributes) := by
  have hget : ∀ name ∈ attributes,
      atPosition t (columns.idxOf name) = .ok (valueUnder columns t name) := fun name h =>
    atPosition_eq_ok.2 (getElem?_valueUnder ht (hm name h))
  match attributes, hn with
  | [name], _ =>
    rw [commonValue, hget name List.mem_cons_self, oneValue, if_pos nofun]
    rfl
  | first :: second :: rest, _ =>
    have hread : (first :: second :: rest).mapM (fun name => do
        let v ← atPosition t (columns.idxOf name)
        v.requireKey
        return v) = (.ok ((first :: second :: rest).map (valueUnder columns t)) :
          Checked (List Value)) := by
      refine Checked.mapM_of_forall fun name h => ?_
      rw [hget name h, Checked.bind_ok, Value.requireKey, hk (by simp) name h]
      rfl
    rw [commonValue, hread, Checked.bind_ok, List.map_cons]
    swap
    · simp
    have hd := Value.distinct_eq_single (valueUnder columns t first)
      ((second :: rest).map (valueUnder columns t))
    rw [List.forall_mem_map] at hd
    rw [oneValue]
    split
    · next heq => rw [if_pos (hd.1 ⟨_, heq⟩)]; rfl
    · next hne => rw [if_neg fun h => (hd.2 h).elim hne]; rfl

theorem isKey_of_commonValue {o : Option Value} (ht : t.length = columns.length)
    (hm : ∀ name ∈ attributes, name ∈ columns) (hl : 1 < attributes.length)
    (h : commonValue columns t attributes = .ok o) :
    ∀ name ∈ attributes, (valueUnder columns t name).isKey = true := by
  match attributes, hl with
  | first :: second :: rest, _ =>
    rw [commonValue] at h
    swap
    · simp
    obtain ⟨values, hread, -⟩ := Checked.bind_eq_ok.1 h
    intro name hname
    obtain ⟨x, -, hx⟩ := exists_of_forall₂ (Checked.mapM_eq_ok.1 hread).flip hname
    obtain ⟨v, hv, hx⟩ := Checked.bind_eq_ok.1 hx
    obtain ⟨_, hkey, -⟩ := Checked.bind_eq_ok.1 hx
    rw [atPosition_eq_ok, getElem?_valueUnder ht (hm name hname)] at hv
    cases hv
    exact Value.requireKey_eq_ok.1 hkey

/-- A tuple means an assignment if it has one value for each variable, and assigns these. -/
theorem variableBinding_go (ht : t.length = a.relation.attributes.length)
    (hn : ∀ e ∈ bindings, e.2 ≠ [])
    (hm : ∀ e ∈ bindings, ∀ name ∈ e.2, name ∈ a.relation.attributes)
    (hk : ∀ e ∈ bindings, 1 < e.2.length →
      ∀ name ∈ e.2, (valueUnder a.relation.attributes t name).isKey = true) :
    ∃ o, variableBinding.go a t bindings = .ok o ∧
      (o.isSome ↔ ∀ e ∈ bindings, (oneValue (valueUnder a.relation.attributes t) e.2).isSome) ∧
      ∀ found, o = some found → found.vars = bindings.map Prod.fst ∧
        ∀ e ∈ bindings, ∃ x, (e.1, x) ∈ found ∧
          oneValue (valueUnder a.relation.attributes t) e.2 = some x := by
  induction bindings with
  | nil =>
    refine ⟨some [], rfl, by simp, ?_⟩
    rintro _ ⟨⟩
    exact ⟨rfl, nofun⟩
  | cons e rest ih =>
    obtain ⟨v, attributes⟩ := e
    rw [List.forall_mem_cons] at hn hm hk
    obtain ⟨o, ho, hsome, hfound⟩ := ih hn.2 hm.2 hk.2
    simp only [variableBinding.go, commonValue_eq ht hn.1 hm.1 hk.1, Checked.bind_ok,
      List.forall_mem_cons]
    cases hx : oneValue (valueUnder a.relation.attributes t) attributes with
    | none => exact ⟨none, rfl, by simp, nofun⟩
    | some x =>
      refine ⟨o.map ((v, x) :: ·), by rw [ho]; rfl, by simpa using hsome, fun all hall => ?_⟩
      obtain ⟨found, rfl, rfl⟩ := Option.map_eq_some_iff.1 hall
      obtain ⟨hvars, hmem⟩ := hfound found rfl
      refine ⟨by simp [hvars], ⟨x, List.mem_cons_self, rfl⟩, fun e he => ?_⟩
      obtain ⟨y, hy, hone⟩ := hmem e he
      exact ⟨y, List.mem_cons_of_mem _ hy, hone⟩

theorem isKey_of_go {found : Assignment} (ht : t.length = a.relation.attributes.length)
    (hm : ∀ e ∈ bindings, ∀ name ∈ e.2, name ∈ a.relation.attributes)
    (h : variableBinding.go a t bindings = .ok (some found)) :
    ∀ e ∈ bindings, 1 < e.2.length →
      ∀ name ∈ e.2, (valueUnder a.relation.attributes t name).isKey = true := by
  induction bindings generalizing found with
  | nil => exact nofun
  | cons e rest ih =>
    obtain ⟨v, attributes⟩ := e
    rw [List.forall_mem_cons] at hm ⊢
    rw [variableBinding.go] at h
    obtain ⟨o, ho, h⟩ := Checked.bind_eq_ok.1 h
    cases o with
    | none => cases h
    | some x =>
      obtain ⟨o', ho', h⟩ := Checked.bind_eq_ok.1 h
      obtain ⟨found', rfl, -⟩ := Option.map_eq_some_iff.1 (Except.ok.inj h)
      exact ⟨fun hl => isKey_of_commonValue ht hm.1 hl ho, ih hm.2 ho'⟩

end

/-! ## Values of the variables -/

variable {a : Atom} {t : List Value} {T T' : Variable → Value → Prop}

/-- Each value of a tuple is one that its variable may have. -/
def TakesTuple (T : Variable → Value → Prop) (a : Atom) (t : List Value) : Prop :=
  ∀ e ∈ a.bindings, ∀ name ∈ e.2, ∀ x, t[a.relation.attributes.idxOf name]? = some x → T e.1 x

theorem TakesTuple.imp (H : a.TakesTuple T t) (h : ∀ v x, T v x → T' v x) : a.TakesTuple T' t :=
  fun e he name hname x hx => h e.1 x (H e he name hname x hx)

/-- A variable stands for several attributes, whose values are compared with each other. -/
def Repeats (a : Atom) (v : Variable) : Prop :=
  ∃ attributes, (v, attributes) ∈ a.bindings ∧ 1 < attributes.length

/-- Those values of a tuple may be keys. -/
def ComparesKeys (a : Atom) (t : List Value) : Prop :=
  a.TakesTuple (fun v x => a.Repeats v → x.isKey = true) t

/-- Those values of a tuple and its values for some variables may be keys. -/
def HashesKeys (a : Atom) (vars : List Variable) (t : List Value) : Prop :=
  a.TakesTuple (fun v x => v ∈ vars ∨ a.Repeats v → x.isKey = true) t

theorem ComparesKeys.isKey (H : a.ComparesKeys t) (h : a.WellFormed)
    (ht : t.length = a.relation.attributes.length) : ∀ e ∈ a.bindings, 1 < e.2.length →
      ∀ name ∈ e.2, (valueUnder a.relation.attributes t name).isKey = true :=
  fun e he hl name hname => H e he name hname _
    (getElem?_valueUnder ht (h.attributes_mem e he name hname)) ⟨e.2, he, hl⟩

/-- What a tuple means is only found if they may. -/
theorem comparesKeys_of_variableBinding {found : Assignment} (h : a.WellFormed)
    (ht : t.length = a.relation.attributes.length)
    (hf : a.variableBinding t = .ok (some found)) : a.ComparesKeys t := by
  rintro e he name hname x hx ⟨attributes, hattributes, hl⟩
  have hkeys := isKey_of_go ht h.attributes_mem hf
  rw [getElem?_valueUnder ht (h.attributes_mem e he name hname)] at hx
  cases hx
  have hone : e = (e.1, attributes) := List.inj_on_of_nodup_map h.vars_nodup he hattributes rfl
  exact hkeys e he (hone ▸ hl) name hname

end Atom

namespace ValueClass

variable {κ : Type} {K : ValueClass κ} {columns attributes : List Name} {name : Name}
  {t : List Value} {x : Value}

/-- A tuple has a value of the class for each of some names. -/
def Fits (K : ValueClass κ) (columns : List Name) (t : List Value) : Prop :=
  t.length = columns.length ∧ K.All t

theorem codes_getElem? (i : Nat) : (K.codes t)[i]? = t[i]?.map K.code := List.getElem?_map ..

theorem Fits.carrier (H : K.Fits columns t) (h : name ∈ columns) :
    K.carrier (Atom.valueUnder columns t name) :=
  H.2 _ (List.mem_of_getElem? (Atom.getElem?_valueUnder H.1 h))

theorem Fits.code (H : K.Fits columns t) (h : name ∈ columns) :
    (K.codes t)[columns.idxOf name]? = some (K.code (Atom.valueUnder columns t name)) := by
  rw [codes_getElem?, Atom.getElem?_valueUnder H.1 h, Option.map_some]

theorem Fits.value (H : K.Fits columns t) (h : name ∈ columns) :
    ∃ x, t[columns.idxOf name]? = some x ∧ K.carrier x ∧
      (K.codes t)[columns.idxOf name]? = some (K.code x) :=
  ⟨_, Atom.getElem?_valueUnder H.1 h, H.carrier h, H.code h⟩

/-- One value is found for some attributes exactly if they have the same code. -/
theorem Fits.oneValue (H : K.Fits columns t) (hn : attributes ≠ [])
    (hm : ∀ name ∈ attributes, name ∈ columns) :
    (∀ x, Atom.oneValue (Atom.valueUnder columns t) attributes = some x →
      (∃ name ∈ attributes, t[columns.idxOf name]? = some x) ∧
        ∀ name ∈ attributes, (K.codes t)[columns.idxOf name]? = some (K.code x)) ∧
      ∀ c, (∀ name ∈ attributes, (K.codes t)[columns.idxOf name]? = some c) →
        (Atom.oneValue (Atom.valueUnder columns t) attributes).isSome := by
  match attributes, hn with
  | first :: rest, _ =>
    rw [List.forall_mem_cons] at hm
    have hsame : ∀ name ∈ rest, Value.same (Atom.valueUnder columns t first)
        (Atom.valueUnder columns t name) = true ↔ K.code (Atom.valueUnder columns t first) =
          K.code (Atom.valueUnder columns t name) := fun name h =>
      same_iff (H.carrier hm.1) (H.carrier (hm.2 name h))
    refine ⟨fun x hx => ?_, fun c hc => ?_⟩
    · obtain ⟨_, _, ⟨⟩, rfl, hall⟩ := Atom.oneValue_eq_some hx
      refine ⟨⟨first, List.mem_cons_self, Atom.getElem?_valueUnder H.1 hm.1⟩, ?_⟩
      refine List.forall_mem_cons.2 ⟨H.code hm.1, fun name h => ?_⟩
      rw [H.code (hm.2 name h), (hsame name h).1 (hall name h)]
    · rw [List.forall_mem_cons] at hc
      have hall : ∀ name ∈ rest, Value.same (Atom.valueUnder columns t first)
          (Atom.valueUnder columns t name) = true := fun name h => by
        have hcode := (H.code hm.1).symm.trans (hc.1.trans (hc.2 name h).symm)
        rw [H.code (hm.2 name h)] at hcode
        exact (hsame name h).2 (Option.some.inj hcode)
      rw [Atom.oneValue, if_pos hall]
      rfl

/-- What is found for some of the variables of an atom. -/
theorem Fits.go {a : Atom} {bindings : List (Variable × List Name)}
    (H : K.Fits a.relation.attributes t) (hd : (bindings.map Prod.fst).Nodup)
    (hn : ∀ e ∈ bindings, e.2 ≠ [])
    (hm : ∀ e ∈ bindings, ∀ name ∈ e.2, name ∈ a.relation.attributes)
    (hk : ∀ e ∈ bindings, 1 < e.2.length →
      ∀ name ∈ e.2, (Atom.valueUnder a.relation.attributes t name).isKey = true) :
    ∃ o, Atom.variableBinding.go a t bindings = .ok o ∧
      (∀ found, o = some found → found.vars = bindings.map Prod.fst ∧
        ∀ e ∈ bindings, ∃ x, found.get? e.1 = some x ∧
          (∃ name ∈ e.2, t[a.relation.attributes.idxOf name]? = some x) ∧
          ∀ name ∈ e.2, (K.codes t)[a.relation.attributes.idxOf name]? = some (K.code x)) ∧
      ∀ f : View κ, (∀ e ∈ bindings, ∀ name ∈ e.2,
        f e.1 = (K.codes t)[a.relation.attributes.idxOf name]?) → o.isSome := by
  obtain ⟨o, ho, hsome, hfound⟩ := Atom.variableBinding_go H.1 hn hm hk
  refine ⟨o, ho, fun found hf => ?_, fun f hf => hsome.2 fun e he => ?_⟩
  · obtain ⟨hvars, hmem⟩ := hfound found hf
    refine ⟨hvars, fun e he => ?_⟩
    obtain ⟨x, hx, hone⟩ := hmem e he
    exact ⟨x, Assignment.get?_of_mem (hvars ▸ hd) hx, (H.oneValue (hn e he) (hm e he)).1 x hone⟩
  · obtain ⟨name, hname⟩ := List.exists_mem_of_ne_nil _ (hn e he)
    refine (H.oneValue (hn e he) (hm e he)).2
      (K.code (Atom.valueUnder a.relation.attributes t name)) fun other h => ?_
    rw [← hf e he other h, hf e he name hname, H.code (hm e he name hname)]

end ValueClass

/-! ## The meaning of a tuple -/

namespace Atom

variable {κ : Type} {K : ValueClass κ} {a : Atom} {f g : View κ} {cs : List κ} {t : List Value}

/-- The codes of a tuple, as a row of the variables of an atom. -/
structure Means (a : Atom) (cs : List κ) (f : View κ) : Prop where
  mapped : ∀ e ∈ a.bindings, ∀ name ∈ e.2, f e.1 = cs[a.relation.attributes.idxOf name]?
  unmapped : ∀ v, v ∉ a.vars → f v = none

theorem Means.unique (h : a.WellFormed) (hf : a.Means cs f) (hg : a.Means cs g) : f = g := by
  funext v
  by_cases hv : v ∈ a.vars
  · obtain ⟨e, he, rfl⟩ := List.mem_map.1 hv
    obtain ⟨name, hname⟩ := List.exists_mem_of_ne_nil _ (h.mapped e he)
    rw [hf.mapped e he name hname, hg.mapped e he name hname]
  · rw [hf.unmapped v hv, hg.unmapped v hv]

open Classical in
/-- The row that a tuple with these codes means, if its values are equal wherever a variable asks
for them. -/
noncomputable def meaning (a : Atom) (cs : List κ) : Option (View κ) :=
  if h : ∃ f, a.Means cs f then some h.choose else none

theorem meaning_eq_some (h : a.WellFormed) : a.meaning cs = some f ↔ a.Means cs f := by
  unfold meaning
  constructor
  · intro he
    split at he
    · next hf =>
      cases he
      exact hf.choose_spec
    · cases he
  · intro hf
    rw [dif_pos ⟨f, hf⟩, (Exists.choose_spec ⟨f, hf⟩ : a.Means cs _).unique h hf]

/-- What is found for a tuple is what its codes mean. -/
theorem variableBinding_spec (h : a.WellFormed) (H : K.Fits a.relation.attributes t)
    (hk : a.ComparesKeys t) : ∃ o, a.variableBinding t = .ok o ∧
      o.map K.view = a.meaning (K.codes t) ∧
      ∀ found, o = some found → K.Assigns a.vars found := by
  obtain ⟨o, ho, hsound, hcomplete⟩ := H.go h.vars_nodup h.mapped h.attributes_mem (hk.isKey h H.1)
  have hassigns : ∀ found, o = some found → K.Assigns a.vars found := fun found hf => by
    obtain ⟨hvars, hall⟩ := hsound found hf
    refine ⟨hvars ▸ h.vars_nodup, fun v => hvars ▸ Iff.rfl, fun v x hx => ?_⟩
    have hv : v ∈ a.bindings.map Prod.fst := hvars ▸ Assignment.get?_isSome_iff.1 (hx ▸ rfl)
    obtain ⟨e, he, rfl⟩ := List.mem_map.1 hv
    obtain ⟨y, hy, ⟨name, -, hname⟩, -⟩ := hall e he
    exact Option.some.inj (hx.symm.trans hy) ▸ H.2 y (List.mem_of_getElem? hname)
  refine ⟨o, ho, ?_, hassigns⟩
  cases o with
  | none =>
    symm
    rw [Option.map_none, Option.eq_none_iff_forall_ne_some]
    intro f hf
    simpa using hcomplete f ((meaning_eq_some h).1 hf).mapped
  | some found =>
    symm
    rw [Option.map_some, meaning_eq_some h]
    obtain ⟨hvars, hall⟩ := hsound found rfl
    refine ⟨fun e he name hname => ?_, fun v hv => ?_⟩
    · obtain ⟨x, hx, -, hk⟩ := hall e he
      rw [ValueClass.view, hx, hk name hname, Option.map_some]
    · rw [ValueClass.view_eq_none_iff, (hassigns found rfl).mem_vars]
      exact hv

/-- What is found for a tuple are values of it. -/
theorem takes_of_variableBinding {T : Variable → Value → Prop} {found : Assignment}
    (h : a.WellFormed) (H : K.Fits a.relation.attributes t) (hT : a.TakesTuple T t)
    (hf : a.variableBinding t = .ok (some found)) : found.Takes T := by
  obtain ⟨o, ho, hsound, -⟩ := H.go h.vars_nodup h.mapped h.attributes_mem
    (isKey_of_go H.1 h.attributes_mem hf)
  cases ho.symm.trans hf
  obtain ⟨hvars, hall⟩ := hsound found rfl
  intro v x hx
  have hv : v ∈ a.bindings.map Prod.fst := hvars ▸ Assignment.get?_isSome_iff.1 (hx ▸ rfl)
  obtain ⟨e, he, rfl⟩ := List.mem_map.1 hv
  obtain ⟨y, hy, ⟨name, hname, hget⟩, -⟩ := hall e he
  cases hx.symm.trans hy
  exact hT e he name hname x hget

/-- Where all values of the class may be keys, those of a tuple may. -/
theorem takesTuple_of_keys {T : Variable → Value → Prop} (hK : K.Keys) (h : K.All t)
    (hT : ∀ v x, x.isKey = true → T v x) : a.TakesTuple T t :=
  fun e _ _ _ x hx => hT e.1 x (hK (h x (List.mem_of_getElem? hx)))

end Atom
end JoinOrder
