import JoinOrder.Document.Export
import JoinOrder.Proofs.Document
import JoinOrder.Proofs.Sorting

/-!
# Exported values

`Document.Exports` says what a value looks like as a document: an infinite number is the text
`inf`, however deep it stands. Exporting finds such a document (`Document.ofValue_exports`), unless
an infinite number is an item of a set, and a plan is exported as the map of its fields
(`Document.exportedAs_plan`). No infinity is then named in the exported text
(`Document.infinities_exported`).
-/

namespace JoinOrder

/-- A map with texts as its keys. -/
def Value.ofFields (fields : List (String × Value)) : Value :=
  .map (fields.map fun f => (.text f.1, f.2))

namespace Document

/-- The values that an export is for. Among the items of a set (`inSet`) there is no infinite
number, except in objects of the library, and all items have a text. -/
inductive Exportable : (inSet : Bool) → Value → Prop
  | null {inSet : Bool} : Exportable inSet .null
  | bool {inSet : Bool} (b : Bool) : Exportable inSet (.bool b)
  | int {inSet : Bool} (n : Int) : Exportable inSet (.int n)
  | real {inSet : Bool} (x : Binary64) (h : inSet = true → x.isInfinite = false) :
    Exportable inSet (.real x)
  | text {inSet : Bool} (s : String) : Exportable inSet (.text s)
  | path {inSet : Bool} (s : String) : Exportable inSet (.path s)
  | tag {inSet : Bool} (t : Tag) : Exportable inSet (.tag t)
  | list {inSet : Bool} {xs : List Value} (h : ∀ x ∈ xs, Exportable inSet x) :
    Exportable inSet (.list xs)
  | tuple {inSet : Bool} {xs : List Value} (h : ∀ x ∈ xs, Exportable inSet x) :
    Exportable inSet (.tuple xs)
  | set {inSet : Bool} {xs : List Value} (hs : Value.requireAllShown xs = .ok ())
    (h : ∀ x ∈ xs, Exportable true x) : Exportable inSet (.set xs)
  | sealedSet {inSet : Bool} {xs : List Value} (hs : Value.requireAllShown xs = .ok ())
    (h : ∀ x ∈ xs, Exportable true x) : Exportable inSet (.sealedSet xs)
  | map {inSet : Bool} {fields : List (String × Value)}
    (h : ∀ f ∈ fields, Exportable inSet f.2) : Exportable inSet (.ofFields fields)
  | cardinality {inSet : Bool} (c : Cardinality) : Exportable inSet (.cardinality c)
  | constraint {inSet : Bool} (lower : Nat) (upper : Option Nat) (domain range : List String) :
    Exportable inSet (.constraint lower upper (domain.map .text) (range.map .text))
  | model {inSet : Bool} (m : CostModel) : Exportable inSet (.model m)
  | costs {inSet : Bool} {a b c : Value} (ha : Exportable false a) (hb : Exportable false b)
    (hc : Exportable false c) : Exportable inSet (.costs a b c)

/-- A document shows a value: every number is itself, or the text `inf` if it is infinite. The
items of a set and the fields of an object may come in any order. -/
inductive Exports : Value → Document → Prop
  | null : Exports .null .null
  | bool (b : Bool) : Exports (.bool b) (.bool b)
  | int (n : Int) : Exports (.int n) (.int n)
  | real (x : Binary64) : Exports (.real x) (ofReal x)
  | text (s : String) : Exports (.text s) (.text s)
  | path (s : String) : Exports (.path s) (.text s)
  | tag (t : Tag) : Exports (.tag t) (.text t.text)
  | list {xs : List Value} (doc : Value → Document) (h : ∀ x ∈ xs, Exports x (doc x)) :
    Exports (.list xs) (.list (xs.map doc))
  | tuple {xs : List Value} (doc : Value → Document) (h : ∀ x ∈ xs, Exports x (doc x)) :
    Exports (.tuple xs) (.list (xs.map doc))
  | set {xs : List Value} {items : List Document} (doc : Value → Document)
    (h : ∀ x ∈ xs, Exports x (doc x)) (hp : items.Perm (xs.map doc)) :
    Exports (.set xs) (.list items)
  | sealedSet {xs : List Value} {items : List Document} (doc : Value → Document)
    (h : ∀ x ∈ xs, Exports x (doc x)) (hp : items.Perm (xs.map doc)) :
    Exports (.sealedSet xs) (.list items)
  | map {fields : List (String × Value)} {shown : List (String × Document)}
    (doc : String × Value → Document) (h : ∀ f ∈ fields, Exports f.2 (doc f))
    (hp : shown.Perm (fields.map fun f => (f.1, doc f))) :
    Exports (.ofFields fields) (.object shown)
  | cardinality (c : Cardinality) : Exports (.cardinality c) (ofReal c.toBinary64)
  | constraint {lower : Nat} {upper : Option Nat} {domain range : List String}
    {first second : List Document} {shown : List (String × Document)}
    (hd : first.Perm (domain.map .text)) (hr : second.Perm (range.map .text))
    (hp : shown.Perm [("lower_bound", .int lower), ("upper_bound", ofUpper upper),
      ("domain", .list first), ("range", .list second)]) :
    Exports (.constraint lower upper (domain.map .text) (range.map .text)) (.object shown)
  | model {m : CostModel} {shown : List (String × Document)}
    (hp : shown.Perm (m.fields.map fun f => (f.1, ofNumber f.2))) :
    Exports (.model m) (.object shown)
  | costs {a b c : Value} {first second third : Document} {shown : List (String × Document)}
    (ha : Exports a first) (hb : Exports b second) (hc : Exports c third)
    (hp : shown.Perm [("iterate", first), ("intermediate", second), ("filter", third)]) :
    Exports (.costs a b c) (.object shown)

variable {v : Value} {d : Document} {xs : List Value} {items : List Document}
  {fields shown : List (String × Document)} {sortKeys inSet : Bool} {doc : Value → Document}
  {x : Binary64}

/-! ## Documents of values are finite -/

theorem isFinite_ofReal : (ofReal x).IsFinite := by
  unfold ofReal
  split
  · exact .text
  · next h => exact .real (Bool.eq_false_iff.2 h)

theorem isFinite_ofNumber {x : Number} : (ofNumber x).IsFinite := by
  cases x with
  | int n => exact .int
  | real x => exact isFinite_ofReal

theorem isFinite_ofUpper {upper : Option Nat} : (ofUpper upper).IsFinite := by
  cases upper with
  | none => exact .text
  | some n => exact .int

theorem isFinite_object (hp : shown.Perm fields) (h : ∀ f ∈ fields, f.2.IsFinite) :
    (object shown).IsFinite := .object fun f hf => h f (hp.mem_iff.1 hf)

theorem isFinite_list {α : Type} {xs : List α} {doc : α → Document}
    (hp : items.Perm (xs.map doc)) (h : ∀ x ∈ xs, (doc x).IsFinite) : (list items).IsFinite :=
  .list fun d hd => List.forall_mem_map.2 h d (hp.mem_iff.1 hd)

theorem Exports.isFinite (h : Exports v d) : d.IsFinite := by
  induction h with
  | null => exact .null
  | bool => exact .bool
  | int => exact .int
  | text | path | tag => exact .text
  | real | cardinality => exact isFinite_ofReal
  | list doc _ ih | tuple doc _ ih => exact isFinite_list (.refl _) ih
  | set doc _ hp ih | sealedSet doc _ hp ih => exact isFinite_list hp ih
  | map doc _ hp ih => exact isFinite_object hp (List.forall_mem_map.2 ih)
  | constraint hd hr hp =>
    refine isFinite_object hp ?_
    have hdomain := isFinite_list hd fun _ _ => .text
    have hrange := isFinite_list hr fun _ _ => .text
    simp [IsFinite.int, isFinite_ofUpper, hdomain, hrange]
  | model hp => exact isFinite_object hp (List.forall_mem_map.2 fun _ _ => isFinite_ofNumber)
  | costs _ _ _ hp iha ihb ihc => exact isFinite_object hp (by simp [iha, ihb, ihc])

/-! ## Sorting -/

theorem exists_sortItems (xs : List Value) (doc : Value → Document) :
    ∃ sorted, sortItems xs (xs.map doc) = .ok sorted ∧ sorted.Perm (xs.map doc) := by
  have hranks : Sorting.Ranks (total fun a b : String => decide (a < b)) id fun _ => True :=
    fun _ _ _ _ => rfl
  have hlen : (xs.map Value.display).length = (xs.map doc).length := by simp
  obtain ⟨ys, hys, hp⟩ := Sorting.sort_zip hranks (fun _ _ => trivial) hlen
  refine ⟨_, ?_, hp⟩
  unfold sortItems
  exact Checked.bind_eq_ok.2 ⟨ys, hys, rfl⟩

/-- Keys and attributes are texts, which have an order. -/
theorem exists_sortTexts {γ : Type} {texts : List String} {items : List γ}
    (h : texts.length = items.length) : ∃ sorted,
      Sorting.sort (fun a b => Value.lt a.1 b.1) ((texts.map Value.text).zip items) = .ok sorted ∧
      (sorted.map Prod.snd).Perm items :=
  Sorting.sort_zip Value.ranks_text (Value.forall_mem_texts texts) (by rw [List.length_map, h])

theorem exists_sortFields (names : List String) (h : names.length = fields.length) :
    ∃ sorted, sortFields (names.map .text) fields = .ok sorted ∧ sorted.Perm fields := by
  obtain ⟨ys, hys, hp⟩ := exists_sortTexts h
  exact ⟨_, Checked.bind_eq_ok.2 ⟨ys, hys, rfl⟩, hp⟩

theorem exists_sortByValue (texts : List String) :
    ∃ sorted, sortByValue (texts.map .text) (texts.map .text) = .ok sorted ∧
      sorted.Perm (texts.map .text) := by
  have hlen : texts.length = (texts.map Document.text).length := (List.length_map _).symm
  obtain ⟨ys, hys, hp⟩ := exists_sortTexts hlen
  exact ⟨_, Checked.bind_eq_ok.2 ⟨ys, hys, rfl⟩, hp⟩

theorem exists_inOrder (sortKeys : Bool) (fields : List (String × Document)) :
    ∃ shown, ofValue.inOrder sortKeys (object fields) = object shown ∧ shown.Perm fields := by
  unfold ofValue.inOrder
  split
  · next h =>
    cases h
    split
    · exact ⟨_, rfl, List.mergeSort_perm _ _⟩
    · exact ⟨_, rfl, .refl _⟩
  · next h => exact (h _ rfl).elim

/-! ## Exporting -/

theorem ofValues_eq (h : ∀ x ∈ xs, ofValue sortKeys inSet x = .ok (doc x)) :
    ofValues sortKeys inSet xs = .ok (xs.map doc) := by
  induction xs with
  | nil => rfl
  | cons x xs ih =>
    rw [List.forall_mem_cons] at h
    rw [ofValues, h.1, Checked.bind_ok, ih h.2, Checked.bind_ok]
    rfl

theorem ofEntries_eq {fields : List (String × Value)} {doc : String × Value → Document}
    (h : ∀ f ∈ fields, ofValue sortKeys inSet f.2 = .ok (doc f)) :
    ofEntries sortKeys inSet (fields.map fun f => (.text f.1, f.2)) =
      .ok (fields.map fun f => (f.1, doc f)) := by
  induction fields with
  | nil => rfl
  | cons f fields ih =>
    rw [List.forall_mem_cons] at h
    rw [List.map_cons, ofEntries, keyText, Checked.bind_ok, h.1, Checked.bind_ok, ih h.2,
      Checked.bind_ok]
    rfl

theorem ofValues_texts {texts : List String} :
    ofValues sortKeys inSet (texts.map .text) = .ok (texts.map .text) := by
  let doc : Value → Document := fun v => text (v.text?.getD "")
  have hdoc : ∀ v ∈ texts.map Value.text, ofValue sortKeys inSet v = .ok (doc v) :=
    List.forall_mem_map.2 fun _ _ => rfl
  rw [ofValues_eq hdoc, List.map_map]
  rfl

/-- The items of a set are exported in some order. -/
theorem exists_ofSet (hs : Value.requireAllShown xs = .ok ())
    (h : ∀ x ∈ xs, ofValue sortKeys true x = .ok (doc x)) :
    ∃ items, ofValue sortKeys inSet (.set xs) = .ok (list items) ∧
      ofValue sortKeys inSet (.sealedSet xs) = .ok (list items) ∧ items.Perm (xs.map doc) := by
  obtain ⟨items, hitems, hp⟩ := exists_sortItems xs doc
  refine ⟨items, ?_, ?_, hp⟩ <;>
  · rw [ofValue, hs, Checked.bind_ok, ofValues_eq h, Checked.bind_ok, hitems]
    rfl

theorem exists_ofFields {fields : List (String × Value)} {doc : String × Value → Document}
    (h : ∀ f ∈ fields, ofValue sortKeys inSet f.2 = .ok (doc f)) :
    ∃ shown, ofValue sortKeys inSet (.ofFields fields) = .ok (object shown) ∧
      shown.Perm (fields.map fun f => (f.1, doc f)) := by
  have hkeys : (fields.map fun f => (Value.text f.1, f.2)).map Prod.fst =
      (fields.map Prod.fst).map Value.text := by simp
  rw [Value.ofFields, ofValue, hkeys, ofEntries_eq h]
  cases sortKeys with
  | false => exact ⟨_, rfl, .refl _⟩
  | true =>
    obtain ⟨keys, hsorted⟩ := Value.exists_sort_texts (fields.map Prod.fst)
    have hlen : (fields.map Prod.fst).length = (fields.map fun f => (f.1, doc f)).length := by simp
    obtain ⟨shown, hshown, hp⟩ := exists_sortFields (fields.map Prod.fst) hlen
    refine ⟨shown, ?_, hp⟩
    simp only [if_true, hsorted, hshown, Checked.bind_ok, Checked.pure_def]

/-- A value is exported as a document that shows it. -/
theorem ofValue_exports (sortKeys : Bool) (h : Exportable inSet v) :
    ∃ d, ofValue sortKeys inSet v = .ok d ∧ Exports v d := by
  induction h with
  | null => exact ⟨_, rfl, .null⟩
  | bool b => exact ⟨_, rfl, .bool b⟩
  | int n => exact ⟨_, rfl, .int n⟩
  | text s => exact ⟨_, rfl, .text s⟩
  | path s => exact ⟨_, rfl, .path s⟩
  | tag t => exact ⟨_, rfl, .tag t⟩
  | cardinality c => exact ⟨_, rfl, .cardinality c⟩
  | @real inSet x h =>
    -- An item of a set is left as it is, which only shows if it is infinite.
    have hreal : (if inSet = true then real x else ofReal x) = ofReal x := by
      split
      · next hin => rw [ofReal, h hin]; rfl
      · rfl
    exact ⟨ofReal x, by rw [ofValue, hreal], .real x⟩
  | list _ ih =>
    choose! doc hdoc hexports using ih
    exact ⟨_, by rw [ofValue, ofValues_eq hdoc]; rfl, .list doc hexports⟩
  | tuple _ ih =>
    choose! doc hdoc hexports using ih
    exact ⟨_, by rw [ofValue, ofValues_eq hdoc]; rfl, .tuple doc hexports⟩
  | set hs _ ih =>
    choose! doc hdoc hexports using ih
    obtain ⟨items, hitems, -, hp⟩ := exists_ofSet hs hdoc
    exact ⟨_, hitems, .set doc hexports hp⟩
  | sealedSet hs _ ih =>
    choose! doc hdoc hexports using ih
    obtain ⟨items, -, hitems, hp⟩ := exists_ofSet hs hdoc
    exact ⟨_, hitems, .sealedSet doc hexports hp⟩
  | map _ ih =>
    choose! doc hdoc hexports using ih
    obtain ⟨shown, hshown, hp⟩ := exists_ofFields hdoc
    exact ⟨_, hshown, .map doc hexports hp⟩
  | constraint lower upper domain range =>
    obtain ⟨_, hdomain⟩ := Value.exists_sort_texts domain
    obtain ⟨_, hrange⟩ := Value.exists_sort_texts range
    obtain ⟨first, hfirst, hd⟩ := exists_sortByValue domain
    obtain ⟨second, hsecond, hr⟩ := exists_sortByValue range
    obtain ⟨shown, hshown, hp⟩ := exists_inOrder sortKeys _
    refine ⟨_, ?_, .constraint hd hr hp⟩
    simp only [ofValue, hdomain, hrange, ofValues_texts, hfirst, hsecond, Checked.bind_ok]
    exact congrArg _ hshown
  | model m =>
    obtain ⟨shown, hshown, hp⟩ := exists_inOrder sortKeys _
    exact ⟨_, congrArg _ hshown, .model hp⟩
  | costs _ _ _ iha ihb ihc =>
    obtain ⟨first, hfirst, ha⟩ := iha
    obtain ⟨second, hsecond, hb⟩ := ihb
    obtain ⟨third, hthird, hc⟩ := ihc
    obtain ⟨shown, hshown, hp⟩ := exists_inOrder sortKeys _
    refine ⟨_, ?_, .costs ha hb hc hp⟩
    rw [ofValue, hfirst, hsecond, hthird]
    exact congrArg _ hshown

end Document

/-! ## Plans -/

/-- Names that are texts, as the names of attributes and variables are as a rule. -/
def Name.AreTexts (names : List Name) : Prop := ∀ name ∈ names, ∃ s, name = .text s

namespace DegreeConstraint

def IsNamed (c : DegreeConstraint) : Prop := Name.AreTexts c.domain ∧ Name.AreTexts c.range

/-- The fields of a constraint, with its attributes as they are. -/
def toValue (c : DegreeConstraint) : Value :=
  .ofFields [
    ("lower_bound", .int c.lower),
    ("upper_bound", match c.upper with
      | some n => .int n
      | none => .real (.infinity false)),
    ("domain", .names c.domain),
    ("range", .names c.range)]

end DegreeConstraint

namespace Estimate

structure IsNamed (e : Estimate) : Prop where
  constraint : ∀ c, e.constraint = some c → c.IsNamed
  indexKey : ∀ key, e.indexKey = some key → Name.AreTexts key

/-- The fields of an estimate of an atom. -/
def toValue (e : Estimate) (atom : Nat) : Value :=
  .ofFields [
    ("cardinality", .cardinality e.cardinality),
    ("method", .tag (.method e.method)),
    ("atom", .int atom),
    ("variable", (e.target.map fun v => .text v.text).getD .null),
    ("unbound", .int e.unbound),
    ("constraint", (e.constraint.map DegreeConstraint.toValue).getD .null),
    ("index_key", (e.indexKey.map Value.nameTuple).getD .null)]

end Estimate

namespace Step

structure IsNamed (s : Step) : Prop where
  bound : Name.AreTexts (Variable.names s.boundVariables)
  estimate : s.estimate.IsNamed

/-- The fields of a step; its candidates are not exported. -/
def toValue (s : Step) : Value :=
  .ofFields [
    ("atom", .int s.atom),
    ("label", .text s.label),
    ("kind", .tag (.step s.kind)),
    ("strategy", .tag (.strategy s.strategy)),
    ("bound_variables", .names (Variable.names s.boundVariables)),
    ("estimate", s.estimate.toValue s.atom),
    ("bound_size", .cardinality s.boundSize),
    ("extent", .cardinality s.extent),
    ("fanout", .cardinality s.fanout),
    ("costs", (s.costs.map fun c =>
      .costs (.real c.iterate) (.real c.intermediate) (.real c.filter)).getD .null)]

end Step

namespace Plan

/-- A plan for atoms whose attributes and variables have texts as their names. -/
inductive IsNamed : Plan → Prop
  | node {steps : List Step} {branches : List Plan} {cut : List Variable} {size : Cardinality}
    (hs : ∀ s ∈ steps, s.IsNamed) (hb : ∀ b ∈ branches, IsNamed b)
    (hc : Name.AreTexts (Variable.names cut)) : IsNamed (.node steps branches cut size)

mutual

/-- The fields of a plan. -/
def toValue : Plan → Value
  | node steps branches cut cardinality =>
    .ofFields [
      ("steps", .list (steps.map Step.toValue)),
      ("branches", .list (toValues branches)),
      ("cut_variables", .names (Variable.names cut)),
      ("cardinality", .cardinality cardinality)]

def toValues : List Plan → List Value
  | [] => []
  | p :: rest => toValue p :: toValues rest

end

end Plan

namespace Document

/-- What has been exported is the document of a value. -/
def ExportedAs (found : Checked Document) (v : Value) : Prop :=
  ∃ d, found = .ok d ∧ ofValue false false v = .ok d

theorem ofNames_eq {names : List Name} (h : Name.AreTexts names) :
    ofNames names = .ok (list (names.map fun name => text name.display)) := by
  have hread : names.mapM Name.requireText = .ok (names.map Name.display) :=
    Checked.mapM_of_forall fun name hname => by
      obtain ⟨s, rfl⟩ := h name hname
      rfl
  rw [ofNames, hread, Checked.bind_ok, List.map_map]
  rfl

theorem ofValues_names {names : List Name} : ofValues sortKeys inSet (names.map Value.ofName) =
    .ok (names.map fun name => text name.display) := by
  have hnames : names.map Value.ofName = (names.map Name.display).map Value.text := by
    rw [List.map_map]
    rfl
  rw [hnames, ofValues_texts, List.map_map]
  rfl

theorem exportedAs_option {α : Type} {f : α → Checked Document} {g : α → Value} {o : Option α}
    (h : ∀ x, o = some x → ExportedAs (f x) (g x)) :
    ∃ d, o.mapM f = .ok d ∧ ofValue false false ((o.map g).getD .null) = .ok (d.getD null) := by
  cases o with
  | none => exact ⟨none, rfl, rfl⟩
  | some x =>
    obtain ⟨d, hd, hv⟩ := h x rfl
    exact ⟨some d, by rw [Option.mapM_some, hd]; rfl, hv⟩

theorem exportedAs_constraint {c : DegreeConstraint} (h : c.IsNamed) :
    ExportedAs (ofConstraint c) c.toValue := by
  rw [ofConstraint, ofNames_eq h.1, ofNames_eq h.2]
  -- What is left is to compute the document of the map.
  refine ⟨_, rfl, ?_⟩
  simp only [DegreeConstraint.toValue, Value.ofFields, Value.names, ofValue, ofEntries, List.map,
    keyText, ofValues_names, Checked.bind_ok, Checked.pure_def]
  cases c.upper <;> rfl

theorem exportedAs_estimate {e : Estimate} (atom : Nat) (h : e.IsNamed) :
    ExportedAs (ofEstimate e atom) (e.toValue atom) := by
  obtain ⟨constraint, hc, hcv⟩ := exportedAs_option fun c hc =>
    exportedAs_constraint (h.constraint c hc)
  obtain ⟨key, hk, hkv⟩ := exportedAs_option (g := Value.nameTuple) fun key hk =>
    ⟨_, ofNames_eq (h.indexKey key hk), by rw [Value.nameTuple, ofValue, ofValues_names]; rfl⟩
  rw [ofEstimate, hc, hk]
  refine ⟨_, rfl, ?_⟩
  simp only [Estimate.toValue, Value.ofFields, ofValue, ofEntries, List.map, keyText, hcv, hkv,
    Checked.bind_ok, Checked.pure_def]
  cases e.target <;> rfl

theorem exportedAs_step {s : Step} (h : s.IsNamed) : ExportedAs (ofStep s) s.toValue := by
  obtain ⟨estimate, he, hev⟩ := exportedAs_estimate s.atom h.estimate
  rw [ofStep, ofNames_eq h.bound, he]
  refine ⟨_, rfl, ?_⟩
  simp only [Step.toValue, Value.ofFields, Value.names, ofValue, ofEntries, List.map, keyText,
    ofValues_names, hev, Checked.bind_ok, Checked.pure_def]
  cases s.costs <;> rfl

theorem exportedAs_list {α : Type} {f : α → Checked Document} {g : α → Value} {xs : List α}
    (h : ∀ x ∈ xs, ExportedAs (f x) (g x)) :
    ∃ items, xs.mapM f = .ok items ∧ ofValues false false (xs.map g) = .ok items := by
  induction xs with
  | nil => exact ⟨[], rfl, rfl⟩
  | cons x rest ih =>
    rw [List.forall_mem_cons] at h
    obtain ⟨⟨d, hd, hv⟩, h⟩ := h
    obtain ⟨items, hitems, hvs⟩ := ih h
    refine ⟨d :: items, ?_, ?_⟩
    · rw [List.mapM_cons, hd, Checked.bind_ok, hitems]
      rfl
    · rw [List.map_cons, ofValues, hv, Checked.bind_ok, hvs]
      rfl

theorem ofPlans_eq_mapM (plans : List Plan) : ofPlans plans = plans.mapM ofPlan := by
  induction plans with
  | nil => rfl
  | cons p rest ih => rw [ofPlans, ih, List.mapM_cons]

theorem toValues_eq_map (plans : List Plan) : Plan.toValues plans = plans.map Plan.toValue := by
  induction plans with
  | nil => rfl
  | cons p rest ih => rw [Plan.toValues, ih, List.map_cons]

theorem exportedAs_plan {p : Plan} (h : p.IsNamed) : ExportedAs (ofPlan p) p.toValue := by
  induction h with
  | @node steps branches cut size hs _ hc ih =>
    obtain ⟨first, hfirst, hsteps⟩ := exportedAs_list fun s h => exportedAs_step (hs s h)
    obtain ⟨second, hsecond, hbranches⟩ := exportedAs_list ih
    rw [ofPlan, hfirst, Checked.bind_ok, ofPlans_eq_mapM, hsecond, Checked.bind_ok, ofNames_eq hc]
    refine ⟨_, rfl, ?_⟩
    simp only [Plan.toValue, Value.ofFields, Value.names, ofValue, ofEntries, List.map, keyText,
      ofValues_names, hsteps, toValues_eq_map, hbranches, Checked.bind_ok, Checked.pure_def]
    rfl

/-! ## Values of plans can be exported -/

theorem exportable_names {names : List Name} : Exportable inSet (.names names) :=
  .list (List.forall_mem_map.2 fun _ _ => .text _)

theorem exportable_option {α : Type} {g : α → Value} {o : Option α}
    (h : ∀ x, Exportable inSet (g x)) : Exportable inSet ((o.map g).getD .null) := by
  cases o with
  | none => exact .null
  | some x => exact h x

theorem exportable_constraint (c : DegreeConstraint) : Exportable false c.toValue := by
  have hupper : Exportable false (match c.upper with
      | some n => .int n
      | none => .real (.infinity false)) := by
    cases c.upper with
    | some n => exact .int n
    | none => exact .real _ nofun
  refine .map ?_
  simp only [List.forall_mem_cons]
  exact ⟨.int _, hupper, exportable_names, exportable_names, nofun⟩

theorem exportable_estimate (e : Estimate) (atom : Nat) : Exportable false (e.toValue atom) := by
  refine .map ?_
  simp only [List.forall_mem_cons]
  exact ⟨.cardinality _, .tag _, .int _, exportable_option fun _ => .text _, .int _,
    exportable_option exportable_constraint,
    exportable_option fun _ => .tuple (List.forall_mem_map.2 fun _ _ => .text _), nofun⟩

theorem exportable_step (s : Step) : Exportable false s.toValue := by
  refine .map ?_
  simp only [List.forall_mem_cons]
  exact ⟨.int _, .text _, .tag _, .tag _, exportable_names, exportable_estimate _ _,
    .cardinality _, .cardinality _, .cardinality _,
    exportable_option fun _ => .costs (.real _ nofun) (.real _ nofun) (.real _ nofun), nofun⟩

theorem exportable_plan {p : Plan} (h : p.IsNamed) : Exportable false p.toValue := by
  induction h with
  | node _ _ _ ih =>
    rw [Plan.toValue, toValues_eq_map]
    refine .map ?_
    simp only [List.forall_mem_cons]
    exact ⟨.list (List.forall_mem_map.2 fun s _ => exportable_step s),
      .list (List.forall_mem_map.2 ih), exportable_names, .cardinality _, nofun⟩

/-! ## Infinities -/

/-- The text of what has been exported names no infinity outside of its quotes: infinite numbers
are shown as the text `inf`. -/
theorem infinities_exported {style : Style} (hs : style.IsBlank) :
    (∀ (sortKeys : Bool) (v : Value), Exportable false v →
      ∃ d, ofValue sortKeys false v = .ok d ∧ Exports v d ∧
        ¬"Infinity".toList <:+: unquoted .outside (d.toText style).toList) ∧
    ∀ p : Plan, p.IsNamed → ∃ d, ofPlan p = .ok d ∧ Exports p.toValue d ∧
      ¬"Infinity".toList <:+: unquoted .outside (d.toText style).toList := by
  refine ⟨fun sortKeys v h => ?_, fun p h => ?_⟩
  · obtain ⟨d, hd, hexports⟩ := ofValue_exports sortKeys h
    exact ⟨d, hd, hexports, hexports.isFinite.no_infinity hs⟩
  · obtain ⟨d, hd, hexports⟩ := ofValue_exports false (exportable_plan h)
    obtain ⟨_, hfound, hvalue⟩ := exportedAs_plan h
    cases hvalue.symm.trans hd
    exact ⟨d, hfound, hexports, hexports.isFinite.no_infinity hs⟩

/-- Infinities in a list, in the costs of a join and in a size that is an item of a set. -/
def nested : Value :=
  .list [.real (.infinity true), .set [.int 1, .cardinality .infinite],
    .costs (.real (.infinity false)) (.real 1) (.tuple [.real (.infinity false)])]

theorem infinities_exported_nested : Style.compact.IsBlank ∧ Exportable false nested ∧
    ∃ d, ofValue true false nested = .ok d ∧ Exports nested d ∧
      ¬"Infinity".toList <:+: unquoted .outside (d.toText .compact).toList := by
  have hblank : Style.compact.IsBlank := nofun
  have hset : Exportable false (.set [.int 1, .cardinality .infinite]) := by
    refine .set rfl ?_
    simp only [List.forall_mem_cons]
    exact ⟨.int _, .cardinality _, nofun⟩
  have hcosts : Exportable false (.costs (.real (.infinity false)) (.real 1)
      (.tuple [.real (.infinity false)])) :=
    .costs (.real _ nofun) (.real _ nofun)
      (.tuple (List.forall_mem_singleton.2 (.real _ nofun)))
  have hnested : Exportable false nested := by
    refine .list ?_
    simp only [List.forall_mem_cons]
    exact ⟨.real _ nofun, hset, hcosts, nofun⟩
  exact ⟨hblank, hnested, (infinities_exported hblank).1 true nested hnested⟩

/-- The items of a set may not be infinite: such an item is exported by its name. -/
theorem not_infinities_exported : ¬∀ (sortKeys : Bool) (xs : List Value) (d : Document),
    (∀ x ∈ xs, Exportable false x) → ofValue sortKeys false (.set xs) = .ok d →
    ¬"Infinity".toList <:+: unquoted .outside (d.toText .compact).toList := by
  intro H
  have hset : ofValue false false (.set [.real (.infinity false)]) =
      .ok (.list [.real (.infinity false)]) := rfl
  exact H _ _ _ (List.forall_mem_singleton.2 (.real _ nofun)) hset ⟨['['], [']'], rfl⟩

end Document
end JoinOrder
