import JoinOrder.Proofs.Query

/-!
# Strategies

Whatever its strategy, a step joins the rows that reach it with the bag of its atom
(`joins_extend`), provided that the rows extend the constants and that the join variables are the
variables of the atom that are bound. Unless the relation is probed for each row, the values of the
join variables have to be keys.
-/

namespace JoinOrder

variable {κ : Type} {K : ValueClass κ}

/-- A row gives values to exactly the bound variables, and it contains the constants. -/
structure Extends (K : ValueClass κ) (constants : Assignment) (bound : List Variable)
    (row : Assignment) : Prop where
  assigns : K.Assigns bound row
  within : (K.view constants).Within (K.view row)

namespace Extends

variable {constants row found : Assignment} {bound vars : List Variable}

/-- Such a row cannot tell apart what the constants cannot. -/
theorem join_congr (H : Extends K constants bound row) {s t : Multiset (View κ)}
    (h : {K.view constants} * s = {K.view constants} * t) :
    {K.view row} * s = {K.view row} * t := by
  rw [← single_join_of_within H.within, mul_assoc, h, mul_assoc]

theorem congr (H : Extends K constants bound row) (h : ∀ v, v ∈ bound ↔ v ∈ vars) :
    Extends K constants vars row := ⟨H.assigns.congr h, H.within⟩

/-- A row that contains another one binds its variables. -/
theorem subset_of_within (H : Extends K constants bound row) (H' : Extends K constants vars found)
    (h : (K.view row).Within (K.view found)) {v : Variable} (hv : v ∈ bound) : v ∈ vars := by
  obtain ⟨x, hx, -⟩ := H.assigns.get? hv
  have hf := h v (K.code x) (by rw [ValueClass.view, hx, Option.map_some])
  by_contra hn
  rw [ValueClass.view_eq_none_iff.2 (mt (H'.assigns.mem_vars v).1 hn)] at hf
  cases hf

theorem merge (H : Extends K constants bound row) (H' : K.Assigns vars found)
    (hagree : (K.view row).Agree (K.view found)) :
    Extends K constants (bound ++ vars) (row.merge found) where
  assigns := H.assigns.merge H'
  within := ValueClass.view_merge H'.nodup hagree ▸ H.within.union _

end Extends

/-- A row that extends the constants, and whose variables have values that they may have. -/
structure Admitted (K : ValueClass κ) (T : Variable → Value → Prop) (constants : Assignment)
    (bound : List Variable) (row : Assignment) : Prop extends Extends K constants bound row where
  takes : row.Takes T

namespace Admitted

variable {T : Variable → Value → Prop} {constants row found : Assignment}
  {bound vars : List Variable}

theorem congr (H : Admitted K T constants bound row) (h : ∀ v, v ∈ bound ↔ v ∈ vars) :
    Admitted K T constants vars row := ⟨H.toExtends.congr h, H.takes⟩

theorem merge (H : Admitted K T constants bound row) (H' : K.Assigns vars found)
    (hT : found.Takes T) (hagree : (K.view row).Agree (K.view found)) :
    Admitted K T constants (bound ++ vars) (row.merge found) :=
  ⟨H.toExtends.merge H' hagree, H.takes.merge hT H'.nodup⟩

end Admitted

namespace Execution

open ValueClass

variable {P : Assignment → Prop} {T : Variable → Value → Prop} {a : Atom}
  {constants row : Assignment} {bound vars join : List Variable} {rows found : List Assignment}
  {s : Multiset (View κ)}

/-! ## Join keys -/

/-- The values of the join variables of a row that has them. -/
def joinValues (join : List Variable) (row : Assignment) : List Value :=
  join.map fun v => (row.get? v).getD .null

/-- The values of the join variables of a row have the codes of its view. -/
theorem joinValues_spec (H : K.Assigns vars row) (hj : ∀ v ∈ join, v ∈ vars) :
    K.All (joinValues join row) ∧
      (K.codes (joinValues join row)).map some = join.map (K.view row) := by
  have hv : ∀ v ∈ join, ∃ x, row.get? v = some x ∧ K.carrier x := fun v hv => H.get? (hj v hv)
  constructor
  · intro x hx
    obtain ⟨v, hmem, rfl⟩ := List.mem_map.1 hx
    obtain ⟨x, hx, hc⟩ := hv v hmem
    rwa [hx]
  · rw [codes, joinValues, List.map_map, List.map_map]
    refine List.map_congr_left fun v hmem => ?_
    obtain ⟨x, hx, -⟩ := hv v hmem
    rw [Function.comp_apply, Function.comp_apply, view, hx]
    rfl

/-- The values of the join variables of a row may be keys. -/
def HasKey (join : List Variable) (row : Assignment) : Prop :=
  row.Takes fun v x => v ∈ join → x.isKey = true

/-- They are then the key of the row. -/
theorem HasKey.joinKey_eq (hk : HasKey join row) (H : K.Assigns vars row)
    (hj : ∀ v ∈ join, v ∈ vars) : joinKey join row = .ok (joinValues join row) := by
  have hv : ∀ v ∈ join, ∃ x, row.get? v = some x := fun v hv =>
    (H.get? (hj v hv)).imp fun _ hx => hx.1
  have hread : join.mapM row.get = .ok (joinValues join row) :=
    Checked.mapM_of_forall fun v hmem => by
      obtain ⟨x, hx⟩ := hv v hmem
      rw [Assignment.get_eq_ok, hx, Option.getD_some]
  rw [joinKey, hread, Checked.bind_ok, Value.requireKeys]
  · rfl
  · intro x hx
    obtain ⟨v, hmem, rfl⟩ := List.mem_map.1 hx
    obtain ⟨x, hx⟩ := hv v hmem
    rw [hx]
    exact hk v x hx hmem

section

variable {f : Assignment} (H : K.Assigns bound row) (H' : K.Assigns a.vars f)
  (hj : ∀ v, v ∈ join ↔ v ∈ a.vars ∧ v ∈ bound)

include H H' hj

/-- A bound row and a row of an atom have equal join keys exactly if they agree. -/
theorem eqList_joinValues : Value.eqList (joinValues join f) (joinValues join row) = true ↔
    (K.view row).Agree (K.view f) := by
  obtain ⟨hall, hcodes⟩ := joinValues_spec H fun v hv => ((hj v).1 hv).2
  obtain ⟨hall', hcodes'⟩ := joinValues_spec H' fun v hv => ((hj v).1 hv).1
  have hinj : Function.Injective (List.map (some : κ → Option κ)) :=
    List.map_injective_iff.2 (Option.some_injective κ)
  rw [eqList_iff hall' hall, eq_comm, ← hinj.eq_iff, hcodes, hcodes', agree_iff H,
    List.map_inj_left]
  refine forall_congr' fun v => ?_
  rw [hj v, and_imp, H'.mem_vars v]
  exact forall_comm

/-- It does not matter which of the two is looked up. -/
theorem eqList_joinValues_comm : Value.eqList (joinValues join row) (joinValues join f) =
    Value.eqList (joinValues join f) (joinValues join row) := by
  obtain ⟨hall, -⟩ := joinValues_spec H fun v hv => ((hj v).1 hv).2
  obtain ⟨hall', -⟩ := joinValues_spec H' fun v hv => ((hj v).1 hv).1
  rw [Bool.eq_iff_iff, eqList_iff hall hall', eqList_iff hall' hall, eq_comm]

end

/-! ## Bags of merged rows -/

/-- Of some rows, those that agree with a row are merged with it; the others contribute nothing to
the join. -/
theorem bag_matching {u : View κ} {p : Assignment → Bool} {g : Assignment → Assignment}
    (hp : ∀ f ∈ found, p f = true ↔ u.Agree (K.view f))
    (hg : ∀ f ∈ found, u.Agree (K.view f) → K.view (g f) = u.union (K.view f)) :
    K.bag ((found.filter p).map g) = {u} * K.bag found := by
  induction found with
  | nil => rw [List.filter_nil, List.map_nil, bag_nil, mul_comm, zero_join]
  | cons f rest ih =>
    rw [List.forall_mem_cons] at hp hg
    rw [List.filter_cons, bag_cons, ← Multiset.singleton_add, join_add, ← ih hp.2 hg.2]
    by_cases hf : u.Agree (K.view f)
    · rw [if_pos (hp.1.2 hf), List.map_cons, bag_cons, hg.1 hf, single_join_of_agree hf,
        Multiset.singleton_add]
    · rw [if_neg (mt hp.1.1 hf), single_join_of_not_agree hf, zero_add]

/-- A row merged with rows that agree with it. -/
theorem bag_merge (H : ∀ f ∈ found, K.Assigns vars f ∧ (K.view row).Agree (K.view f)) :
    K.bag (found.map row.merge) = {K.view row} * K.bag found := by
  rw [← bag_matching (p := fun _ => true) (g := row.merge) (fun f hf => by simp [(H f hf).2])
    fun f hf hagree => view_merge (H f hf).1.nodup hagree, List.filter_true]

/-- Each row is replaced by what it is joined to. -/
theorem bag_flatMap {g : Assignment → List Assignment} {t : Multiset (View κ)}
    (h : ∀ r ∈ rows, K.bag (g r) = {K.view r} * t) : K.bag (rows.flatMap g) = K.bag rows * t := by
  induction rows with
  | nil => rw [List.flatMap_nil, bag_nil, zero_join]
  | cons r rest ih =>
    rw [List.forall_mem_cons] at h
    rw [List.flatMap_cons, bag_append, h.1, ih h.2, bag_cons, ← Multiset.singleton_add, add_join]

theorem bag_join_congr {s t : Multiset (View κ)}
    (h : ∀ r ∈ rows, {K.view r} * s = {K.view r} * t) : K.bag rows * s = K.bag rows * t := by
  rw [join_eq_bind, join_eq_bind (t := t)]
  refine Multiset.bind_congr fun f hf => ?_
  obtain ⟨r, hr, rfl⟩ := List.mem_map.1 hf
  exact h r hr

/-! ## Lists of merged rows -/

variable {input : Rows Assignment}

theorem iterate_yields {found : Assignment → List Assignment} (hin : input.Yields rows)
    (hy : ∀ r ∈ rows, (assignments a (a.relationBinding r)).Yields (found r)) :
    (iterate a input).Yields (rows.flatMap fun r => (found r).map r.merge) :=
  hin.bind fun r hrow => (hy r hrow).map fun _ _ => rfl

/-- The rows with a key, among rows that are listed with theirs. -/
theorem matching_keyed {key : Assignment → List Value} (k : List Value) :
    matching (rows.map fun r => (key r, r)) k = rows.filter fun r => Value.eqList (key r) k := by
  unfold matching
  rw [List.filter_map, List.map_map]
  exact List.map_id _

theorem collect_keyed {key : Assignment → List Value} (hin : input.Yields rows)
    (hk : ∀ r ∈ rows, joinKey join r = .ok (key r)) :
    (input.map (keyed join)).collect = .ok (rows.map fun r => (key r, r)) :=
  hin.map fun r hr => by rw [keyed, hk r hr]; rfl

section

variable (hy : (assignments a (a.relationBinding constants)).Yields found)
  (hfound : ∀ f ∈ found, K.Assigns a.vars f ∧ HasKey join f)
  (hj : ∀ v, v ∈ join ↔ v ∈ a.vars ∧ v ∈ bound)
  (hin : input.Yields rows) (H : ∀ r ∈ rows, K.Assigns bound r ∧ HasKey join r)

include hy hfound hj hin H

/-- Each row in turn is merged with what has been read and has its key. -/
theorem intermediate_yields : (intermediate a join constants input).Yields
    (rows.flatMap fun r => (found.filter fun f =>
      Value.eqList (joinValues join f) (joinValues join r)).map r.merge) := by
  have hread := fun f hf => (hfound f hf).2.joinKey_eq (hfound f hf).1 fun v hv => ((hj v).1 hv).1
  have hprobe := fun r hr => (H r hr).2.joinKey_eq (H r hr).1 fun v hv => ((hj v).1 hv).2
  cases input with
  | done => cases Rows.yields_done_iff.1 hin; exact Rows.yields_done
  | broken fault => exact (Rows.not_yields_broken hin).elim
  | row x tail =>
    rw [intermediate, collect_keyed hy hread, Checked.bind_ok]
    refine Rows.yields_ofChecked_iff.2 ⟨_, rfl, hin.bind fun r hrow => ?_⟩
    rw [hprobe r hrow, Checked.bind_ok, matching_keyed]
    exact Rows.yields_ofList _

/-- What is read in turn is merged into each row that has its key. -/
theorem filter_yields : (filter a join constants input).Yields
    (found.flatMap fun f => (rows.filter fun r =>
      Value.eqList (joinValues join r) (joinValues join f)).map (·.merge f)) := by
  have hread := fun f hf => (hfound f hf).2.joinKey_eq (hfound f hf).1 fun v hv => ((hj v).1 hv).1
  have hprobe := fun r hr => (H r hr).2.joinKey_eq (H r hr).1 fun v hv => ((hj v).1 hv).2
  refine Rows.yields_ofChecked_iff.2 ?_
  rw [collect_keyed hin hprobe, Checked.bind_ok]
  cases rows with
  | nil => exact ⟨_, rfl, Rows.yields_done_iff.2 (List.flatMap_eq_nil_iff.2 fun _ _ => rfl)⟩
  | cons first rest =>
    refine ⟨_, rfl, hy.bind fun f hf => ?_⟩
    rw [hread f hf, Checked.bind_ok, matching_keyed]
    exact Rows.yields_ofList _

end

/-! ## The strategies -/

/-- Rows come out joined with the bag of an atom. -/
def Joins (K : ValueClass κ) (T : Variable → Value → Prop) (constants : Assignment)
    (bound : List Variable) (a : Atom) (s : Multiset (View κ)) (rows : List Assignment)
    (out : Rows Assignment) : Prop :=
  ∃ found, out.Yields found ∧ K.bag found = K.bag rows * s ∧
    ∀ r ∈ found, Admitted K T constants (bound ++ a.vars) r

theorem iterate_spec (hr : a.Answers K P T s) (hP : ∀ r ∈ rows, P r) (hin : input.Yields rows)
    (H : ∀ r ∈ rows, Admitted K T constants bound r) :
    Joins K T constants bound a s rows (iterate a input) := by
  have hspec := fun r hrow => hr bound r (H r hrow).assigns (hP r hrow)
  choose! found hy hassigns hbag hagree using hspec
  refine ⟨_, iterate_yields hin hy, ?_, fun out hout => ?_⟩
  · refine bag_flatMap fun r hrow => ?_
    rw [bag_merge fun f hf => ⟨(hassigns r hrow f hf).1, hagree r hrow f hf⟩, hbag r hrow]
  · obtain ⟨r, hrow, hf⟩ := List.mem_flatMap.1 hout
    obtain ⟨f, hmem, rfl⟩ := List.mem_map.1 hf
    obtain ⟨hassign, htakes⟩ := hassigns r hrow f hmem
    exact (H r hrow).merge hassign htakes (hagree r hrow f hmem)

section

variable (hr : a.Answers K P T s) (hc : K.Assigns constants.vars constants) (hP : P constants)
  (hj : ∀ v, v ∈ join ↔ v ∈ a.vars ∧ v ∈ bound)
  (hk : ∀ v ∈ join, ∀ x, T v x → x.isKey = true) (hin : input.Yields rows)
  (H : ∀ r ∈ rows, Admitted K T constants bound r)

include hr hc hP hj hk hin H

theorem intermediate_spec :
    Joins K T constants bound a s rows (intermediate a join constants input) := by
  obtain ⟨found, hy, hfound, hbag, -⟩ := hr constants.vars constants hc hP
  have hassigns := fun f hf => (hfound f hf).1
  have hkeys : ∀ row : Assignment, row.Takes T → HasKey join row := fun row h v x hx hv =>
    hk v hv x (h v x hx)
  have hagree := fun r hrow f hf => eqList_joinValues (H r hrow).assigns (hassigns f hf) hj
  refine ⟨_, intermediate_yields hy (fun f hf => ⟨hassigns f hf, hkeys f (hfound f hf).2⟩) hj hin
    fun r hrow => ⟨(H r hrow).assigns, hkeys r (H r hrow).takes⟩, ?_, fun out hout => ?_⟩
  · refine bag_flatMap fun r hrow => ?_
    rw [bag_matching (hagree r hrow) fun f hf => view_merge (hassigns f hf).nodup,
      (H r hrow).join_congr hbag]
  · obtain ⟨r, hrow, hf⟩ := List.mem_flatMap.1 hout
    obtain ⟨f, hmem, rfl⟩ := List.mem_map.1 hf
    obtain ⟨hmem, he⟩ := List.mem_filter.1 hmem
    exact (H r hrow).merge (hassigns f hmem) (hfound f hmem).2 ((hagree r hrow f hmem).1 he)

theorem filter_spec : Joins K T constants bound a s rows (filter a join constants input) := by
  obtain ⟨found, hy, hfound, hbag, -⟩ := hr constants.vars constants hc hP
  have hassigns := fun f hf => (hfound f hf).1
  have hkeys : ∀ row : Assignment, row.Takes T → HasKey join row := fun row h v x hx hv =>
    hk v hv x (h v x hx)
  have hagree : ∀ f ∈ found, ∀ r ∈ rows,
      Value.eqList (joinValues join r) (joinValues join f) = true ↔
        (K.view f).Agree (K.view r) := fun f hf r hrow => by
    rw [eqList_joinValues_comm (H r hrow).assigns (hassigns f hf) hj, View.agree_comm]
    exact eqList_joinValues (H r hrow).assigns (hassigns f hf) hj
  refine ⟨_, filter_yields hy (fun f hf => ⟨hassigns f hf, hkeys f (hfound f hf).2⟩) hj hin
    fun r hrow => ⟨(H r hrow).assigns, hkeys r (H r hrow).takes⟩, ?_, fun out hout => ?_⟩
  · rw [← bag_join_congr fun r hrow => (H r hrow).join_congr hbag, mul_comm]
    refine bag_flatMap fun f hf => bag_matching (hagree f hf) fun r hrow hagree => ?_
    rw [view_merge (hassigns f hf).nodup hagree.symm, hagree.union_comm]
  · obtain ⟨f, hf, hr'⟩ := List.mem_flatMap.1 hout
    obtain ⟨r, hmem, rfl⟩ := List.mem_map.1 hr'
    obtain ⟨hmem, he⟩ := List.mem_filter.1 hmem
    exact (H r hmem).merge (hassigns f hf) (hfound f hf).2 ((hagree f hf r hmem).1 he).symm

end

/-- Only probing the relation for each row hashes no values. -/
theorem joins_extend {strategy : JoinStrategy} (hr : a.Answers K P T s)
    (hc : K.Assigns constants.vars constants) (hP : P constants)
    (hj : ∀ v, v ∈ join ↔ v ∈ a.vars ∧ v ∈ bound)
    (hk : strategy ≠ .iterate → ∀ v ∈ join, ∀ x, T v x → x.isKey = true)
    (hin : input.Yields rows) (H : ∀ r ∈ rows, Admitted K T constants bound r)
    (hrows : ∀ r ∈ rows, P r) :
    Joins K T constants bound a s rows (extend strategy a join constants input) := by
  cases strategy with
  | iterate => exact iterate_spec hr hrows hin H
  | intermediate => exact intermediate_spec hr hc hP hj (hk nofun) hin H
  | filter => exact filter_spec hr hc hP hj (hk nofun) hin H

end Execution
end JoinOrder
