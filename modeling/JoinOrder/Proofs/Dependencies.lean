import Mathlib.Data.Prod.Lex
import JoinOrder.Proofs.Estimates
import JoinOrder.Proofs.Magnitude

/-!
# Functional dependencies

Where the bound attributes determine an attribute of a variable, the variable is estimated to have
one value, unless an index counts the tuples with the bound values (`Atom.estimate_le_one`).
-/

namespace JoinOrder

/-! ## Sizes up to one -/

theorem Binary64.not_le_of_atLeast {x : Binary64} {n : Nat} (hx : x.AtLeast 1) (hn : n ≤ 1) :
    x.le (ofInt n) = false := by
  have hy : ofInt n = .finite (.ofInt n) := ofInt_eq (Nat.le_trans hn (by decide))
  have hne : x ≠ nan := hx.nonneg.ne_nan
  have hyne : ofInt n ≠ nan := by rw [hy]; exact Binary64.noConfusion
  have hlt : (ofInt n).rank < x.rank := by
    rw [hy]
    cases x with
    | finite d =>
      refine WithBot.coe_lt_coe.2 (WithTop.coe_lt_coe.2 ?_)
      rw [toRat_ofInt]
      calc ((n : Int) : Rat) ≤ 1 := by exact_mod_cast hn
        _ < 2 ^ (1 : Int) := by norm_num
        _ ≤ d.toRat := hx
    | infinity negative =>
      cases hx
      exact WithBot.coe_lt_coe.2 (WithTop.coe_lt_top _)
    | _ => exact hx.elim
  rw [Binary64.le, (compare_eq_rank hne hyne).1, (compare_eq_rank hne hyne).2,
    decide_eq_false (not_lt_of_gt hlt), decide_eq_false (ne_of_gt hlt), Bool.or_false]

/-- A size can be compared with one, and it is known if it is no greater. -/
theorem Cardinality.leValue_le_one (c : Cardinality) {n : Nat} (hn : n ≤ 1) :
    ∃ less, c.leValue (.ofNat n) = .ok less ∧ (less = true → ∃ m ≤ 1, c = .known m) := by
  have hy : operand (.ofNat n) = .ok (Binary64.ofInt n) := by
    rcases Nat.le_one_iff_eq_zero_or_eq_one.1 hn with rfl | rfl <;> rfl
  refine ⟨c.toBinary64.le (.ofInt n), by rw [leValue, hy]; rfl, fun hle => ?_⟩
  by_contra hc
  have hatLeast : c.toBinary64.AtLeast 1 := by
    cases c with
    | known m =>
      have hm : ¬m ≤ 1 := fun hm => hc ⟨m, hm, rfl⟩
      have hpow : 2 ^ 1 ≤ m := Nat.succ_le_of_lt (Nat.lt_of_not_le hm)
      exact Binary64.atLeast_ofInt hpow
    | infinite => rfl
    | unknown => cases hle
  rw [Binary64.not_le_of_atLeast hatLeast hn] at hle
  cases hle

namespace Atom

variable {a : Atom} {b : Binding} {v : Variable} {constraints : List DegreeConstraint}
  {bound targets : List Name} {c : DegreeConstraint} {target : Name} {n : Nat}

/-! ## The tightest constraint -/

theorem ranks_tighter : Sorting.Ranks (total tighter)
    (fun p : Nat × DegreeConstraint => toLex (p.1, p.2.domain.length)) fun _ => True := by
  intro p q _ _
  rw [total, tighter]
  refine congrArg Except.ok ?_
  rw [Bool.eq_iff_iff, decide_eq_true_iff, Prod.Lex.toLex_lt_toLex]
  simp

/-- A bound that is out of the range of numbers is a fault. -/
def Overflows (constraints : List DegreeConstraint) (f : Fault) : Prop :=
  f = .tooLarge ∧ ∃ c ∈ constraints, ∃ n, c.upper = some n ∧ Binary64.ofInt? n = none

theorem ends_applicable : Checked.Ends (Overflows constraints)
    (fun all => ∀ c ∈ constraints, ∀ n, c.upper = some n → (Binary64.ofInt? n).isSome = true →
      (∃ target ∈ targets, c.appliesTo bound target = true) → (n, c) ∈ all)
    (applicable constraints bound targets) := by
  unfold applicable
  refine (Checked.ends_filterMapM fun c hc => ?_).imp (fun _ => id)
    fun all hall c hc n hu hs ht => hall c hc (n, c) ?_
  · rw [DegreeConstraint.hasBound]
    cases hu : c.upper with
    | none => trivial
    | some n =>
      rw [hasUpper]
      cases hn : Binary64.ofInt? n with
      | none => exact ⟨rfl, c, hc, n, hu, hn⟩
      | some y => trivial
  · have hany : targets.any (c.appliesTo bound) = true := List.any_eq_true.2 ht
    simp only [DegreeConstraint.hasBound, hu, hasUpper, hs, hany, if_true, Checked.bind_ok,
      Checked.pure_def]

/-- The tightest constraint is no looser than any other that applies. -/
theorem ends_tightestConstraint : Checked.Ends (Overflows constraints)
    (fun o => ∀ c ∈ constraints, ∀ n, c.upper = some n → (Binary64.ofInt? n).isSome = true →
      (∃ target ∈ targets, c.appliesTo bound target = true) → ∃ t ∈ o, t.1 ≤ n)
    (tightestConstraint constraints bound targets) := by
  refine ends_applicable.bind fun all hall => ?_
  cases all with
  | nil => exact fun c hc n hn hs ht => absurd (hall c hc n hn hs ht) List.not_mem_nil
  | cons first rest =>
    obtain ⟨least, hleast⟩ := Sorting.exists_least tighter first rest
    dsimp only
    rw [hleast, Checked.bind_ok]
    intro c hc n hn hs ht
    have hle := Sorting.least_spec ranks_tighter (fun _ _ => trivial) hleast (n, c)
      (hall c hc n hn hs ht)
    refine ⟨least, rfl, ?_⟩
    rcases Prod.Lex.toLex_le_toLex.1 hle with hlt | ⟨heq, -⟩
    · exact Nat.le_of_lt hlt
    · exact Nat.le_of_eq heq

/-! ## What an index says -/

/-- An index counts the tuples with the bound values: they are all known, and an index key has
exactly their attributes. -/
def CountsBound (a : Atom) (b : Binding) : Prop :=
  a.boundVariables b ≠ [] ∧ (∀ v ∈ a.boundVariables b, b.isKnown v = true) ∧
    (a.relation.indexMatch (a.attributes (a.boundVariables b))).any IndexMatch.exact = true

theorem ends_indexEstimate_counts (h : a.CountsBound b) : Checked.Ends
    (fun f => a.relation.lookup (a.relationBinding b.values) = .error f)
    (fun o => ∃ found key, a.relation.lookup (a.relationBinding b.values) = .ok found ∧
      o = some ⟨found.cardinality, key, true⟩)
    (a.indexEstimate b (a.boundVariables b)) := by
  obtain ⟨hne, hknown, hexact⟩ := h
  rw [Option.any_eq_true] at hexact
  obtain ⟨⟨key, exact⟩, hm, rfl⟩ := hexact
  have hempty : ¬(a.boundVariables b).isEmpty = true := mt List.isEmpty_iff.1 hne
  unfold indexEstimate
  rw [if_neg hempty]
  dsimp only
  rw [hm]
  dsimp only
  rw [if_pos (List.all_eq_true.2 hknown)]
  cases hl : a.relation.lookup (a.relationBinding b.values) with
  | error f => exact rfl
  | ok found => exact ⟨found, key, rfl, rfl⟩

theorem ends_indexEstimate_statistics (h : ¬a.CountsBound b) : Checked.Ends
    (fun f => a.relation.keyFrequency (a.attributes (a.boundVariables b)) = .error f)
    (fun o => ∀ i ∈ o, i.exact = false) (a.indexEstimate b (a.boundVariables b)) := by
  unfold indexEstimate
  split
  · exact nofun
  next hempty =>
  dsimp only
  split
  · next key hm =>
    split
    · next hknown =>
      refine absurd ⟨mt List.isEmpty_iff.2 hempty, List.all_eq_true.1 hknown, ?_⟩ h
      rw [hm]
      rfl
    · cases hl : a.relation.keyFrequency (a.attributes (a.boundVariables b)) with
      | error f => exact rfl
      | ok o =>
        intro i hi
        obtain ⟨size, -, rfl⟩ := Option.map_eq_some_iff.1 hi
        rfl
  · exact nofun

/-! ## Estimates of determined variables -/

theorem exists_attributesOf (h : target ∈ a.attributes [v]) :
    ∃ targets, a.attributesOf v = .ok targets ∧ target ∈ targets := by
  rw [attributes, List.flatMap_singleton] at h
  cases hl : a.bindings.lookup v with
  | none =>
    rw [hl] at h
    cases h
  | some targets =>
    rw [hl] at h
    exact ⟨targets, by rw [attributesOf, hl], h⟩

/-- Statistics prevail over a bound up to one only if they are no greater. -/
theorem exists_prevails {i : IndexEstimate} (h : i.exact = false) (hn : n ≤ 1)
    (c : DegreeConstraint) : ∃ prevails, indexPrevails i (some (n, c)) = .ok prevails ∧
      (prevails = true → ∃ m ≤ 1, i.cardinality = .known m) := by
  obtain ⟨less, hless, hknown⟩ := i.cardinality.leValue_le_one hn
  exact ⟨less, by rw [indexPrevails, if_neg (Bool.eq_false_iff.1 h), hless], hknown⟩

/-- What an index counts is the estimate. -/
theorem ends_estimate_counts (hv : v ∈ a.vars) (htargets : a.attributesOf v = .ok targets)
    (h : a.CountsBound b) : Checked.Ends
    (fun f => a.relation.lookup (a.relationBinding b.values) = .error f ∨
      Overflows a.relation.constraints f)
    (fun e => ∃ found, a.relation.lookup (a.relationBinding b.values) = .ok found ∧
      e.cardinality = found.cardinality) (a.estimate b v) := by
  unfold estimate
  rw [if_neg (not_not.2 hv)]
  refine ((ends_indexEstimate_counts h).imp (fun _ => .inl) fun _ => id).bind fun index hindex => ?_
  obtain ⟨found, key, hfound, rfl⟩ := hindex
  rw [htargets, Checked.bind_ok]
  refine (ends_tightestConstraint.imp (fun _ => .inr) fun _ => id).bind fun constraint _ => ?_
  exact ⟨found, hfound, rfl⟩

/-- Where no index counts, the estimate is no greater than a bound up to one. -/
theorem ends_estimate_bound (hv : v ∈ a.vars) (htargets : a.attributesOf v = .ok targets)
    (h : ¬a.CountsBound b) (hc : c ∈ a.relation.constraints) (hu : c.upper = some 1)
    (happlies : ∃ target ∈ targets, c.appliesTo (a.attributes (a.boundVariables b)) target = true) :
    Checked.Ends
      (fun f => a.relation.keyFrequency (a.attributes (a.boundVariables b)) = .error f ∨
        Overflows a.relation.constraints f)
      (fun e => ∃ n ≤ 1, e.cardinality = .known n) (a.estimate b v) := by
  unfold estimate
  rw [if_neg (not_not.2 hv)]
  refine ((ends_indexEstimate_statistics h).imp (fun _ => .inl) fun _ => id).bind
    fun index hindex => ?_
  rw [htargets, Checked.bind_ok]
  refine (ends_tightestConstraint.imp (fun _ => .inr) fun _ => id).bind
    fun constraint hconstraint => ?_
  obtain ⟨⟨n, c'⟩, hn, hle⟩ := hconstraint c hc 1 hu rfl happlies
  cases hn
  have hsize : Cardinality.ofValue (.ofNat n) = .ok (.known n) := by
    refine Cardinality.ofValue_of_isSome (Binary64.ofInt?_isSome ?_)
    exact Nat.lt_of_le_of_lt hle (by decide)
  cases index with
  | none =>
    simp only [Checked.pure_def, Checked.bind_ok, hsize]
    exact ⟨n, hle, rfl⟩
  | some i =>
    obtain ⟨prevails, hprevails, hsmall⟩ := exists_prevails (hindex i rfl) hle c'
    cases prevails with
    | true =>
      simp only [hprevails, Checked.bind_ok]
      exact hsmall rfl
    | false =>
      simp only [hprevails, Checked.bind_ok, Checked.pure_def, Bool.false_eq_true, if_false, hsize]
      exact ⟨n, hle, rfl⟩

/-- A variable of which an attribute is determined by the bound attributes is estimated to have one
value at most. Only where an index counts the tuples with the bound values, the estimate is their
number. -/
theorem estimate_le_one (hv : v ∈ a.unboundVariables b) (hc : c ∈ a.relation.constraints)
    (hu : c.upper = some 1) (ht : target ∈ a.attributes [v]) (hrange : target ∈ c.range)
    (hdomain : ∀ name ∈ c.domain, name ∈ a.attributes (a.boundVariables b)) :
    (¬a.CountsBound b → Checked.Ends
      (fun f => a.relation.keyFrequency (a.attributes (a.boundVariables b)) = .error f ∨
        Overflows a.relation.constraints f)
      (fun e => ∃ n ≤ 1, e.cardinality = .known n) (a.estimate b v)) ∧
    (a.CountsBound b → Checked.Ends
      (fun f => a.relation.lookup (a.relationBinding b.values) = .error f ∨
        Overflows a.relation.constraints f)
      (fun e => ∃ found, a.relation.lookup (a.relationBinding b.values) = .ok found ∧
        e.cardinality = found.cardinality) (a.estimate b v)) := by
  have hmem : v ∈ a.vars := List.mem_of_mem_filter hv
  obtain ⟨targets, htargets, htarget⟩ := exists_attributesOf ht
  have happlies : c.appliesTo (a.attributes (a.boundVariables b)) target = true := by
    rw [DegreeConstraint.appliesTo, Bool.and_eq_true, StoredRelation.covers_iff,
      decide_eq_true_iff]
    exact ⟨hdomain, hrange⟩
  constructor
  · intro hcounts
    exact ends_estimate_bound hmem htargets hcounts hc hu ⟨target, htarget, happlies⟩
  · intro hcounts
    exact ends_estimate_counts hmem htargets hcounts

end Atom

/-! ## Members of groups with a leader each -/

namespace Groups

def group : Name := .text "group"
def leader : Name := .text "leader"
def member : Name := .text "member"

/-- One group with two members. -/
def source : Source :=
  .ofSchema ⟨.table, [group, leader, member], none, [0]⟩ (some (SortedTable.handle
    ⟨[.ofNat 0], #[[.int 1, .int 5, .int 1], [.int 1, .int 5, .int 2]], #[[.int 1], [.int 1]]⟩))

/-- The leader of a group. -/
def dependency : DegreeConstraint := ⟨1, some 1, [group], [leader]⟩

def leaders : Atom where
  relation :=
    .stored ⟨.text "R", [group, leader, member], [], source, [], [dependency]⟩
  bindings := [(.named "x", [group]), (.named "y", [leader])]

end Groups

open Groups in
/-- The members of a known group are counted, although they have the same leader. -/
theorem Atom.not_estimate_le_one : ¬∀ (a : Atom) (b : Binding) (v : Variable)
    (c : DegreeConstraint) (target : Name), v ∈ a.unboundVariables b →
    c ∈ a.relation.constraints → c.upper = some 1 → target ∈ a.attributes [v] →
    target ∈ c.range → (∀ name ∈ c.domain, name ∈ a.attributes (a.boundVariables b)) →
    ∃ e, a.estimate b v = .ok e ∧ ∃ n ≤ 1, e.cardinality = .known n := by
  intro H
  obtain ⟨e, he, n, hn, hc⟩ := H leaders (.ofParts [(.named "x", .int 1)] []) (.named "y")
    dependency leader (by decide) (by decide) rfl (by decide) (by decide) (by decide)
  have hestimate : leaders.estimate (.ofParts [(.named "x", .int 1)] []) (.named "y") =
      .ok ⟨.known 2, .index, some (.named "y"), 1, none, some [group]⟩ := rfl
  rw [hestimate] at he
  cases he
  cases hc
  exact absurd hn (by decide)

open Groups in
/-- Two members per group are no reason to expect two leaders of a group that is not known. -/
theorem Atom.estimate_le_one_leaders :
    Variable.named "y" ∈ leaders.unboundVariables (.ofParts [] [.named "x"]) ∧
    dependency ∈ leaders.relation.constraints ∧ dependency.upper = some 1 ∧
    leader ∈ leaders.attributes [.named "y"] ∧ leader ∈ dependency.range ∧
    (∀ name ∈ dependency.domain, name ∈ leaders.attributes [.named "x"]) ∧
    leaders.relation.keyFrequency [group] = .ok (some (.known 2)) ∧
    ∃ e, leaders.estimate (.ofParts [] [.named "x"]) (.named "y") = .ok e ∧
      ∃ n ≤ 1, e.cardinality = .known n := by
  have hv : Variable.named "y" ∈ leaders.unboundVariables (.ofParts [] [.named "x"]) := by decide
  have ht : leader ∈ leaders.attributes [.named "y"] := by decide
  have hd : ∀ name ∈ dependency.domain, name ∈ leaders.attributes [.named "x"] := by decide
  have hf : leaders.relation.keyFrequency [group] = .ok (some (.known 2)) := rfl
  have hcounts : ¬leaders.CountsBound (.ofParts [] [.named "x"]) :=
    fun h => absurd (h.2.1 (.named "x") (by decide)) (by decide)
  have hends := (Atom.estimate_le_one hv (List.mem_singleton_self dependency) rfl ht
    (List.mem_singleton_self leader) hd).1 hcounts
  refine ⟨hv, List.mem_singleton_self _, rfl, ht, List.mem_singleton_self _, hd, hf, ?_⟩
  have he : leaders.estimate (.ofParts [] [.named "x"]) (.named "y") =
      .ok ⟨.known 1, .degree, some (.named "y"), 1, some dependency, none⟩ := rfl
  rw [he] at hends
  exact ⟨_, he, hends⟩

end JoinOrder
