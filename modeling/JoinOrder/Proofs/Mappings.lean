import JoinOrder.Proofs.Ordered
import JoinOrder.Proofs.Query

/-!
# The mappings of an atom

Each entry of a declaration maps a variable to the attributes that it mentions. No mapping is lost
as long as no two entries are about the same variable (`Atom.declare?_keeps`). A variable that is
given as it is by one entry and by its name in another one keeps the later mapping only.
-/

namespace JoinOrder

/-- Values that may be keys, and of which any two are the same if a third one is the same as
both. -/
structure Value.Equatable (vs : List Value) : Prop where
  isKey : ∀ v ∈ vs, v.isKey = true
  same : ∀ u ∈ vs, ∀ v ∈ vs, ∀ w ∈ vs, Value.same u v = true → Value.same u w = true →
    Value.same v w = true

theorem ValueClass.equatable {κ : Type} {K : ValueClass κ} {vs : List Value} (hK : K.Keys)
    (h : K.All vs) : Value.Equatable vs where
  isKey v hv := hK (h v hv)
  same u hu v hv w hw huv huw := by
    rw [same_iff (h u hu) (h v hv)] at huv
    rw [same_iff (h u hu) (h w hw)] at huw
    rw [same_iff (h v hv) (h w hw), ← huv, huw]

namespace Atom

variable {a : Atom} {relation : Relation} {entries : List (Value × Value)}
  {bindings : List (Variable × List Name)} {v : Variable} {attributes : List Name} {name : Name}
  {t : List Value} {value : Name → Value}

/-! ## Entries about different variables -/

theorem setBinding_of_not_mem (h : v ∉ bindings.map Prod.fst) :
    setBinding bindings v attributes = bindings ++ [(v, attributes)] := by
  induction bindings with
  | nil => rfl
  | cons b rest ih =>
    obtain ⟨w, old⟩ := b
    rw [List.map_cons, List.mem_cons, not_or] at h
    rw [setBinding, if_neg (Ne.symm h.1), ih h.2, List.cons_append]

theorem foldl_setBinding
    (hd : (bindings.map Prod.fst ++ entries.map fun e => e.1.asVariable).Nodup) :
    entries.foldl (fun found e => setBinding found e.1.asVariable (mentioned e.2)) bindings =
      bindings ++ entries.map fun e => (e.1.asVariable, mentioned e.2) := by
  induction entries generalizing bindings with
  | nil => exact (List.append_nil _).symm
  | cons e rest ih =>
    have hv : e.1.asVariable ∉ bindings.map Prod.fst := fun h =>
      (List.nodup_append.1 hd).2.2 _ h _ List.mem_cons_self rfl
    rw [List.foldl_cons, setBinding_of_not_mem hv, ih, List.map_cons, List.append_assoc,
      List.singleton_append]
    rwa [List.map_append, List.map_singleton, List.append_assoc, List.singleton_append]

/-- Each variable is mapped to what its entry mentions. -/
theorem bindings_of_declare? (h : declare? relation entries = .ok a)
    (hd : (entries.map fun e => e.1.asVariable).Nodup) :
    a.bindings = entries.map fun e => (e.1.asVariable, mentioned e.2) := by
  obtain ⟨-, -, hb⟩ := declare?_spec h
  rw [hb, foldl_setBinding (by simpa using hd), List.nil_append]

theorem WellFormed.lookup (h : a.WellFormed) {e : Variable × List Name} (he : e ∈ a.bindings) :
    a.bindings.lookup e.1 = some e.2 := by
  obtain ⟨before, behind, hb⟩ := List.append_of_mem he
  refine List.lookup_eq_some_iff.2 ⟨before, behind, hb, fun p hp => ?_⟩
  have hd := h.vars_nodup
  rw [vars, hb, List.map_append, List.nodup_append] at hd
  exact bne_iff_ne.2 (hd.2.2 _ (List.mem_map_of_mem hp) _ List.mem_cons_self).symm

/-- All variables together are mapped to what any of them is mapped to. -/
theorem WellFormed.mem_attributes_vars (h : a.WellFormed) :
    name ∈ a.attributes a.vars ↔ ∃ e ∈ a.bindings, name ∈ e.2 := by
  rw [attributes, vars, List.mem_flatMap]
  constructor
  · rintro ⟨_, hv, hn⟩
    obtain ⟨e, he, rfl⟩ := List.mem_map.1 hv
    rw [h.lookup he] at hn
    exact ⟨e, he, hn⟩
  · rintro ⟨e, he, hn⟩
    exact ⟨e.1, List.mem_map_of_mem he, by rwa [h.lookup he]⟩

/-! ## Tuples -/

/-- Some attributes have one value exactly if any two of their values are the same. -/
theorem oneValue_isSome (hn : attributes ≠ [])
    (hc : 1 < attributes.length → Value.Equatable (attributes.map value)) :
    (oneValue value attributes).isSome ↔
      (attributes.map value).Pairwise fun x y => Value.same x y = true := by
  cases attributes with
  | nil => exact (hn rfl).elim
  | cons first rest =>
    rw [List.map_cons, List.pairwise_cons, List.forall_mem_map, oneValue]
    split
    · next hsame =>
      have hall : ∀ x ∈ rest.map value, Value.same (value first) x = true :=
        List.forall_mem_map.2 hsame
      refine iff_of_true rfl ⟨hsame, List.pairwise_of_forall_mem_list fun x hx y hy => ?_⟩
      have hrest : 0 < rest.length := List.length_map value ▸ List.length_pos_of_mem hx
      exact (hc (Nat.succ_lt_succ hrest)).same _ List.mem_cons_self x (List.mem_cons_of_mem _ hx) y
        (List.mem_cons_of_mem _ hy) (hall x hx) (hall y hy)
    · next hsame => exact iff_of_false Bool.false_ne_true fun h => hsame h.1

/-- A tuple means an assignment exactly if it has the same values wherever a variable asks for
them. The assignment then stands for values of the tuple, or for ones that are the same. -/
theorem WellFormed.variableBinding_iff (h : a.WellFormed)
    (ht : t.length = a.relation.attributes.length)
    (hc : ∀ e ∈ a.bindings, 1 < e.2.length →
      Value.Equatable (e.2.map (valueUnder a.relation.attributes t))) :
    ∃ o, a.variableBinding t = .ok o ∧
      (o.isSome ↔ ∀ e ∈ a.bindings, (e.2.map (valueUnder a.relation.attributes t)).Pairwise
        fun x y => Value.same x y = true) ∧
      ∀ found, o = some found → ∀ e ∈ a.bindings, ∀ name ∈ e.2,
        ∃ x, (a.relationBinding found).lookup name = some x ∧
          (x = valueUnder a.relation.attributes t name ∨
            Value.same x (valueUnder a.relation.attributes t name) = true) := by
  obtain ⟨o, ho, hsome, hfound⟩ := variableBinding_go ht h.mapped h.attributes_mem
    fun e he hlen name hname => (hc e he hlen).isKey _ (List.mem_map_of_mem hname)
  refine ⟨o, ho, hsome.trans (forall₂_congr fun e he => ?_), fun found hf e he name hname => ?_⟩
  · exact oneValue_isSome (h.mapped e he) (hc e he)
  · obtain ⟨hvars, hmem⟩ := hfound found hf
    obtain ⟨x, hx, hone⟩ := hmem e he
    have hget : found.get? e.1 = some x := Assignment.get?_of_mem (hvars ▸ h.vars_nodup) hx
    refine ⟨x, NamedValues.lookup_of_mem h.names_relationBinding.1
      (mem_relationBinding.2 ⟨e, he, hname, hget⟩), ?_⟩
    obtain ⟨first, rest, hattributes, rfl, hsame⟩ := oneValue_eq_some hone
    rw [hattributes] at hname
    rcases List.mem_cons.1 hname with rfl | hname
    · exact .inl rfl
    · exact .inr (hsame name hname)

/-! ## Declarations -/

/-- A declaration whose entries are about different variables loses no attribute: each entry is
found again, all mentioned attributes are mapped, and tuples are asked for equal values under all
attributes of a variable. -/
theorem declare?_keeps (h : declare? relation entries = .ok a)
    (hd : (entries.map fun e => e.1.asVariable).Nodup) :
    (∀ e ∈ entries, ∃ attributes, a.attributesOf e.1.asVariable = .ok attributes ∧
      ∀ name ∈ mentioned e.2, name ∈ attributes) ∧
    (∀ name, name ∈ a.attributes a.vars ↔ ∃ e ∈ entries, name ∈ mentioned e.2) ∧
    ∀ row : List Value, row.length = relation.attributes.length →
      (∀ e ∈ entries, 1 < (mentioned e.2).length →
        Value.Equatable ((mentioned e.2).map (valueUnder relation.attributes row))) →
      ∃ o, a.variableBinding row = .ok o ∧
        (o.isSome ↔ ∀ e ∈ entries, ((mentioned e.2).map
          (valueUnder relation.attributes row)).Pairwise fun x y => Value.same x y = true) ∧
        ∀ found, o = some found → ∀ e ∈ entries, ∀ name ∈ mentioned e.2,
          ∃ x, (a.relationBinding found).lookup name = some x ∧
            (x = valueUnder relation.attributes row name ∨
              Value.same x (valueUnder relation.attributes row name) = true) := by
  obtain ⟨hwf, rfl, -⟩ := declare?_spec h
  have hb := bindings_of_declare? h hd
  refine ⟨fun e he => ⟨mentioned e.2, ?_, fun _ hn => hn⟩, fun name => ?_, fun row hrow hc => ?_⟩
  · have he : (e.1.asVariable, mentioned e.2) ∈ a.bindings := hb ▸ List.mem_map_of_mem he
    rw [attributesOf, hwf.lookup he]
  · simp [hwf.mem_attributes_vars, hb]
  · have hiff := hwf.variableBinding_iff hrow (by simpa only [hb, List.forall_mem_map] using hc)
    simpa only [hb, List.forall_mem_map] using hiff

/-- A relation of edges between nodes. -/
def edges : Relation := .listed ⟨.text "R", [.text "a", .text "b"], [], []⟩

/-- One variable for both ends of an edge asks for loops. -/
theorem declare?_keeps_loops : ∃ a, declare? edges
      [(.text "x", .list [.text "a", .text "b"])] = .ok a ∧
    ([⟨.text "x"⟩] : List Variable).Nodup ∧
    Value.Equatable [.int 1, .int 1] ∧
    (∀ name, name ∈ a.attributes a.vars ↔ name = .text "a" ∨ name = .text "b") ∧
    ∃ found, a.variableBinding [.int 1, .int 1] = .ok (some found) ∧
      ∃ x, (a.relationBinding found).lookup (.text "b") = some x ∧
        (x = .int 1 ∨ Value.same x (.int 1) = true) := by
  have hdeclare : declare? edges [(.text "x", .list [.text "a", .text "b"])] =
      .ok ⟨edges, [(⟨.text "x"⟩, [.text "a", .text "b"])]⟩ := rfl
  have hdistinct : ([⟨.text "x"⟩] : List Variable).Nodup := List.nodup_singleton _
  have hequatable : Value.Equatable [.int 1, .int 1] :=
    ValueClass.equatable OrderedClass.keys_ints (by simp [OrderedClass.ints])
  obtain ⟨-, hmentioned, hrows⟩ := declare?_keeps hdeclare hdistinct
  obtain ⟨o, ho, hsome, hfound⟩ := hrows [.int 1, .int 1] rfl
    (List.forall_mem_singleton.2 fun _ => hequatable)
  have hloop : o.isSome := hsome.2 (List.forall_mem_singleton.2 (by decide))
  obtain ⟨found, rfl⟩ := Option.isSome_iff_exists.1 hloop
  refine ⟨_, hdeclare, hdistinct, hequatable, fun name => ?_, found, ho, ?_⟩
  · rw [hmentioned]
    simp [mentioned, Value.elements, Value.toName]
  · exact hfound found rfl _ List.mem_cons_self (.text "b") (by decide)

/-- A variable that is named by one entry and given as it is by another one is mapped to the
attribute of the later entry only. -/
theorem not_declare?_keeps : ¬∀ (relation : Relation) (entries : List (Value × Value)) (a : Atom),
    declare? relation entries = .ok a →
    (∀ e ∈ entries, ∃ attributes, a.attributesOf e.1.asVariable = .ok attributes ∧
      ∀ name ∈ mentioned e.2, name ∈ attributes) ∧
    (∀ name, name ∈ a.attributes a.vars ↔ ∃ e ∈ entries, name ∈ mentioned e.2) ∧
    ∀ row : List Value, row.length = relation.attributes.length →
      (∀ e ∈ entries, 1 < (mentioned e.2).length →
        Value.Equatable ((mentioned e.2).map (valueUnder relation.attributes row))) →
      ∃ o, a.variableBinding row = .ok o ∧
        (o.isSome ↔ ∀ e ∈ entries, ((mentioned e.2).map
          (valueUnder relation.attributes row)).Pairwise fun x y => Value.same x y = true) ∧
        ∀ found, o = some found → ∀ e ∈ entries, ∀ name ∈ mentioned e.2,
          ∃ x, (a.relationBinding found).lookup name = some x ∧
            (x = valueUnder relation.attributes row name ∨
              Value.same x (valueUnder relation.attributes row name) = true) := by
  intro H
  have hdeclare : declare? edges [(.text "x", .text "a"), (.var ⟨.text "x"⟩, .text "b")] =
      .ok ⟨edges, [(⟨.text "x"⟩, [.text "b"])]⟩ := rfl
  obtain ⟨hentries, -⟩ := H _ _ _ hdeclare
  obtain ⟨attributes, hattributes, hmentioned⟩ := hentries _ List.mem_cons_self
  have hlater : attributesOf ⟨edges, [(⟨.text "x"⟩, [.text "b"])]⟩ ⟨.text "x"⟩ =
      .ok [.text "b"] := rfl
  cases hlater.symm.trans hattributes
  have ha := hmentioned (.text "a") List.mem_cons_self
  revert ha
  decide

end Atom
end JoinOrder
