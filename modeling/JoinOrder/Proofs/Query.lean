import JoinOrder.Execution
import JoinOrder.Proofs.Lookup

/-!
# The result of a query

`QueryGraph.results` joins the tuples of all atoms by nested loops. As a multiset it is the natural
join of the constants with the bags of the atoms.
-/

namespace JoinOrder

variable {κ : Type} {K : ValueClass κ}

namespace Atom

variable {a : Atom} {row : Assignment} {vars : List Variable} {f : View κ} {t : List Value}

theorem mem_relationBinding {e : Name × Value} : e ∈ a.relationBinding row ↔
    ∃ b ∈ a.bindings, e.1 ∈ b.2 ∧ row.get? b.1 = some e.2 := by
  obtain ⟨name, x⟩ := e
  simp only [relationBinding, List.mem_flatMap]
  refine exists_congr fun b => and_congr_right fun _ => ?_
  cases row.get? b.1 with
  | none => simp
  | some y => simp [eq_comm]

/-- Only attributes of the relation are bound, each once. -/
theorem WellFormed.names_relationBinding (h : a.WellFormed) :
    (a.relationBinding row).names.Nodup ∧
      ∀ name ∈ (a.relationBinding row).names, name ∈ a.relation.attributes := by
  constructor
  · refine h.attributes_nodup.sublist ?_
    rw [relationBinding]
    generalize a.bindings = bindings
    induction bindings with
    | nil => exact .slnil
    | cons b rest ih =>
      rw [List.flatMap_cons, List.flatMap_cons, NamedValues.names, List.map_append]
      refine .append ?_ ih
      obtain ⟨v, attributes⟩ := b
      cases hx : row.get? v with
      | none => simp [hx]
      | some x => simp [hx, Function.comp_def]
  · intro name hname
    obtain ⟨e, he, rfl⟩ := List.mem_map.1 hname
    obtain ⟨b, hb, hmem, -⟩ := mem_relationBinding.1 he
    exact h.attributes_mem b hb e.1 hmem

theorem carrier_relationBinding (H : ∀ v ∈ a.vars, ∀ x, row.get? v = some x → K.carrier x) :
    ∀ e ∈ a.relationBinding row, K.carrier e.2 := fun _ he => by
  obtain ⟨b, hb, -, hx⟩ := mem_relationBinding.1 he
  exact H _ (List.mem_map_of_mem hb) _ hx

/-- A tuple has the values of a row exactly if what it means agrees with the row. -/
theorem holds_relationBinding (h : a.WellFormed)
    (H : ∀ v ∈ a.vars, ∀ x, row.get? v = some x → K.carrier x)
    (ht : K.Fits a.relation.attributes t) (hf : a.Means (K.codes t) f) :
    (a.relationBinding row).holds a.relation.attributes t = true ↔ (K.view row).Agree f := by
  rw [NamedValues.holds_iff]
  constructor
  · intro hall v x y hx hy
    obtain ⟨z, hz, rfl⟩ := Option.map_eq_some_iff.1 hx
    have hv : v ∈ a.vars := by
      by_contra hv
      rw [hf.unmapped v hv] at hy
      cases hy
    obtain ⟨b, hb, rfl⟩ := List.mem_map.1 hv
    obtain ⟨name, hname⟩ := List.exists_mem_of_ne_nil _ (h.mapped b hb)
    obtain ⟨u, hu, hc, hk⟩ := ht.value (h.attributes_mem b hb name hname)
    obtain ⟨u', hu', he⟩ := hall (name, z) (mem_relationBinding.2 ⟨b, hb, hname, hz⟩)
    cases hu.symm.trans hu'
    rw [hf.mapped b hb name hname, hk] at hy
    rw [K.eq_iff hc (H _ (List.mem_map_of_mem hb) _ hz)] at he
    exact he.symm.trans (Option.some.inj hy)
  · rintro H' ⟨name, z⟩ he
    obtain ⟨b, hb, hname, hz⟩ := mem_relationBinding.1 he
    obtain ⟨u, hu, hc, hk⟩ := ht.value (h.attributes_mem b hb name hname)
    have hz' : K.view row b.1 = some (K.code z) := by rw [ValueClass.view, hz, Option.map_some]
    refine ⟨u, hu, (K.eq_iff hc (H _ (List.mem_map_of_mem hb) _ hz)).2 ?_⟩
    exact (H' _ _ _ hz' ((hf.mapped b hb name hname).trans hk)).symm

/-- What some tuples mean for an atom, as rows. -/
noncomputable def bag (K : ValueClass κ) (a : Atom) (tuples : List (List Value)) :
    Multiset (View κ) := ((tuples.map K.codes).filterMap a.meaning : List (View κ))

theorem bag_cons_none {tuples : List (List Value)} (h : a.meaning (K.codes t) = none) :
    a.bag K (t :: tuples) = a.bag K tuples := by
  rw [bag, bag, List.map_cons, List.filterMap_cons_none h]

theorem bag_cons_some {tuples : List (List Value)} (h : a.meaning (K.codes t) = some f) :
    a.bag K (t :: tuples) = f ::ₘ a.bag K tuples := by
  rw [bag, bag, List.map_cons, List.filterMap_cons_some h, Multiset.cons_coe]

open Classical in
/-- The tuples found for a row mean the rows of the atom that agree with it. -/
theorem bag_filter_holds (h : a.WellFormed) (H : K.Assigns vars row)
    {tuples : List (List Value)} (ht : ∀ t ∈ tuples, K.Fits a.relation.attributes t) :
    a.bag K (tuples.filter ((a.relationBinding row).holds a.relation.attributes)) =
      (a.bag K tuples).filter (K.view row).Agree := by
  unfold bag
  rw [Multiset.filter_coe, Multiset.coe_eq_coe]
  refine .of_eq ?_
  induction tuples with
  | nil => rfl
  | cons t rest ih =>
    rw [List.forall_mem_cons] at ht
    cases hm : a.meaning (K.codes t) with
    | none =>
      rw [List.map_cons, List.filterMap_cons_none hm, ← ih ht.2, List.filter_cons]
      split
      · rw [List.map_cons, List.filterMap_cons_none hm]
      · rfl
    | some f =>
      have hf := holds_relationBinding h (fun v _ => H.carrier v) ht.1 ((meaning_eq_some h).1 hm)
      rw [List.map_cons, List.filterMap_cons_some hm, List.filter_cons, List.filter_cons,
        ← ih ht.2]
      by_cases hb : (K.view row).Agree f
      · rw [if_pos (hf.2 hb), if_pos (decide_eq_true hb), List.map_cons,
          List.filterMap_cons_some hm]
      · rw [if_neg (mt hf.1 hb), if_neg (by simpa using hb)]

/-- Reading an atom for a row with some property finds the rows of a bag that agree with it. Their
variables have values that they may have. -/
def Answers (K : ValueClass κ) (P : Assignment → Prop) (T : Variable → Value → Prop) (a : Atom)
    (s : Multiset (View κ)) : Prop :=
  ∀ (vars : List Variable) (row : Assignment), K.Assigns vars row → P row →
    ∃ found, (Execution.assignments a (a.relationBinding row)).Yields found ∧
      (∀ f ∈ found, K.Assigns a.vars f ∧ f.Takes T) ∧
      {K.view row} * K.bag found = {K.view row} * s ∧ ∀ f ∈ found, (K.view row).Agree (K.view f)

/-- An atom answers with its bag, if its relation finds the tuples with the values of a row. -/
theorem answers {P : Assignment → Prop} {T : Variable → Value → Prop} (h : a.WellFormed)
    {tuples : List (List Value)} (ht : ∀ t ∈ tuples, K.Fits a.relation.attributes t)
    (hl : ∀ (vars : List Variable) (row : Assignment), K.Assigns vars row → P row →
      ∃ found rows, a.relation.lookup (a.relationBinding row) = .ok found ∧
        (found.rows ()).Yields rows ∧
        (∀ t ∈ rows, K.Fits a.relation.attributes t ∧ a.ComparesKeys t ∧ a.TakesTuple T t) ∧
        (rows.map K.codes).Perm ((tuples.filter
          ((a.relationBinding row).holds a.relation.attributes)).map K.codes)) :
    a.Answers K P T (a.bag K tuples) := by
  classical
  intro vars row H hP
  obtain ⟨result, rows, hl, hy, hrows, hp⟩ := hl vars row H hP
  have hspec := fun t ht => variableBinding_spec h (hrows t ht).1 (hrows t ht).2.1
  choose! o ho hview hassigns using hspec
  have hbag : K.bag (rows.filterMap o) = (a.bag K tuples).filter (K.view row).Agree := by
    rw [← bag_filter_holds h H ht]
    unfold ValueClass.bag bag
    rw [Multiset.coe_eq_coe, List.map_filterMap]
    refine .trans (.of_eq ?_) (hp.filterMap a.meaning)
    rw [List.filterMap_map]
    exact List.filterMap_congr hview
  have hagree : ∀ f ∈ rows.filterMap o, (K.view row).Agree (K.view f) := fun f hf => by
    have hmem : K.view f ∈ K.bag (rows.filterMap o) := List.mem_map_of_mem hf
    rw [hbag, Multiset.mem_filter] at hmem
    exact hmem.2
  refine ⟨rows.filterMap o, ?_, fun f hf => ?_, ?_, hagree⟩
  · refine Rows.yields_ofChecked_iff.2 ⟨_, ?_, hy.filterMap ho⟩
    rw [hl, Checked.bind_ok, Checked.pure_def]
  · obtain ⟨t, ht, hf⟩ := List.mem_filterMap.1 hf
    obtain ⟨hfit, -, htakes⟩ := hrows t ht
    exact ⟨hassigns t ht f hf, takes_of_variableBinding h hfit htakes (hf ▸ ho t ht)⟩
  · rw [hbag, single_join, single_join, Multiset.filter_filter]
    simp only [and_self]

/-- Where all values of a class may be looked up, all rows of such values are answered. -/
theorem answers_of_filters {P : Assignment → Prop} {T : Variable → Value → Prop}
    (h : a.WellFormed) {tuples : List (List Value)} (hr : a.relation.Filters K tuples)
    (hf : a.relation.Finds K fun t => a.ComparesKeys t ∧ a.TakesTuple T t) :
    a.Answers K P T (a.bag K tuples) := by
  refine answers h hr.fits fun vars row H _ => ?_
  obtain ⟨hn, hm⟩ := h.names_relationBinding
  have hc := carrier_relationBinding (a := a) fun v _ => H.carrier v
  obtain ⟨found, rows, hl, hy, hfit, hp⟩ := hr.lookup _ hn hm hc
  exact ⟨found, rows, hl, hy, fun t ht => ⟨hfit t ht, hf _ _ _ hn hm hc hl hy t ht⟩, hp⟩

end Atom

/-! ## Nested loops -/

namespace Assignment

/-- Whether the common variables of two assignments have equal values. -/
def agrees (a b : Assignment) : Bool := b.all fun (v, x) => (a.get? v).all (Value.eq · x)

end Assignment

namespace ValueClass

variable {a b : Assignment} {vars ws : List Variable}

theorem agrees_iff (H : K.Assigns vars a) (H' : K.Assigns ws b) :
    a.agrees b = true ↔ (K.view a).Agree (K.view b) := by
  unfold Assignment.agrees
  rw [List.all_eq_true]
  constructor
  · intro h v x y hx hy
    obtain ⟨x, hax, rfl⟩ := Option.map_eq_some_iff.1 hx
    obtain ⟨y, hby, rfl⟩ := Option.map_eq_some_iff.1 hy
    have he := h (v, y) (Assignment.mem_of_get? hby)
    simp only [hax, Option.all_some] at he
    exact (K.eq_iff (H.carrier v x hax) (H'.carrier v y hby)).1 he
  · rintro h ⟨v, y⟩ he
    have hy := Assignment.get?_of_mem H'.nodup he
    rw [Option.all_eq_true]
    intro x hx
    refine (K.eq_iff (H.carrier v x hx) (H'.carrier v y hy)).2 (h v _ _ ?_ ?_)
    · rw [view, hx, Option.map_some]
    · rw [view, hy, Option.map_some]

end ValueClass

/-- The ways to extend an assignment by one tuple of each atom, such that all agree. -/
def nestedLoop (tuples : Relation → List (List Value)) : List Atom → Assignment → List Assignment
  | [], row => [row]
  | a :: rest, row => (tuples a.relation).flatMap fun t =>
    match a.variableBinding t with
    | .ok (some found) =>
      if row.agrees found then nestedLoop tuples rest (row.merge found) else []
    | _ => []

namespace QueryGraph

/-- What declaring a query makes sure of. -/
structure WellFormed (q : QueryGraph) : Prop where
  atoms : ∀ a ∈ q.atoms, a.WellFormed
  constants_nodup : q.constants.vars.Nodup
  constants_mem : ∀ v ∈ q.constants.vars, v ∈ q.vars

/-- Queries over well-formed atoms that were declared are well-formed. -/
theorem declare?_wellFormed {atoms : List Atom} {constants : List (Value × Value)}
    {q : QueryGraph} (h : declare? atoms constants = .ok q) (ha : ∀ a ∈ atoms, a.WellFormed) :
    q.WellFormed := by
  simp only [declare?, Checked.guard_eq_ok] at h
  obtain ⟨-, hf, h⟩ := h
  cases h
  refine ⟨ha, Assignment.nodup_merge List.nodup_nil, fun v hv => ?_⟩
  rcases Assignment.mem_vars_merge.1 hv with hv | hv
  · cases hv
  · rw [Assignment.vars, List.map_map] at hv
    obtain ⟨e, he, rfl⟩ := List.mem_map.1 hv
    rw [Bool.not_eq_true', Bool.not_eq_false, List.isEmpty_iff, List.filter_eq_nil_iff] at hf
    simpa using hf e.1 (List.mem_map_of_mem he)

/-- The rows of a query: one for each choice of a tuple of each atom such that the values of all
variables agree with each other and with the constants. -/
def results (q : QueryGraph) (tuples : Relation → List (List Value)) : List Assignment :=
  nestedLoop tuples q.atoms q.constants

end QueryGraph

/-- One loop of the nest, where `extend` does what is inside for each row that agrees. -/
theorem bag_loop {a : Atom} (h : a.WellFormed) {row : Assignment} {vars : List Variable}
    (H : K.Assigns vars row) {tuples : List (List Value)}
    (ht : ∀ t ∈ tuples, K.Fits a.relation.attributes t ∧ a.ComparesKeys t)
    {extend : Assignment → List Assignment} {inner : Multiset (View κ)}
    (he : ∀ found, K.Assigns a.vars found → (K.view row).Agree (K.view found) →
      K.bag (extend found) = {(K.view row).union (K.view found)} * inner) :
    K.bag (tuples.flatMap fun t => match a.variableBinding t with
      | .ok (some found) => if row.agrees found then extend found else []
      | _ => []) = {K.view row} * (a.bag K tuples * inner) := by
  induction tuples with
  | nil =>
    rw [Atom.bag, List.map_nil, List.filterMap_nil, Multiset.coe_nil, zero_join, mul_comm]
    rfl
  | cons t rest ih =>
    rw [List.forall_mem_cons] at ht
    obtain ⟨o, ho, hview, hassigns⟩ := Atom.variableBinding_spec h ht.1.1 ht.1.2
    rw [List.flatMap_cons, ho, ValueClass.bag_append, ih ht.2]
    cases o with
    | none =>
      rw [Option.map_none] at hview
      rw [Atom.bag_cons_none hview.symm]
      simp
    | some found =>
      rw [Option.map_some] at hview
      have hf := hassigns found rfl
      rw [Atom.bag_cons_some hview.symm, ← Multiset.singleton_add, add_join, join_add]
      refine congrArg (· + _) ?_
      rw [← mul_assoc]
      by_cases hagree : (K.view row).Agree (K.view found)
      · simp only [(ValueClass.agrees_iff H hf).2 hagree, if_true, he found hf hagree,
          single_join_of_agree hagree]
      · simp [mt (ValueClass.agrees_iff H hf).1 hagree, single_join_of_not_agree hagree]

/-- Nested loops compute the natural join. -/
theorem nestedLoop_spec {tuples : Relation → List (List Value)} {atoms : List Atom}
    {row : Assignment} {vars : List Variable} (hw : ∀ a ∈ atoms, a.WellFormed)
    (hr : ∀ a ∈ atoms, ∀ t ∈ tuples a.relation,
      K.Fits a.relation.attributes t ∧ a.ComparesKeys t)
    (H : K.Assigns vars row) :
    K.bag (nestedLoop tuples atoms row) =
      {K.view row} * (atoms.map fun a => a.bag K (tuples a.relation)).prod := by
  induction atoms generalizing row vars with
  | nil =>
    rw [List.map_nil, List.prod_nil, mul_one]
    rfl
  | cons a rest ih =>
    rw [List.forall_mem_cons] at hw hr
    rw [List.map_cons, List.prod_cons]
    refine bag_loop hw.1 H hr.1 fun found hf hagree => ?_
    rw [ih hw.2 hr.2 (H.merge hf), ValueClass.view_merge hf.nodup hagree]

end JoinOrder
