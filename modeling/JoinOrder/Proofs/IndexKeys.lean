import JoinOrder.Proofs.Source
import JoinOrder.Relation.Basic

/-!
# Exact index keys

A relation has an exact match for some bound attributes if and only if these are the attributes of
an index key of one of its sources (`Relation.indexMatch_exact`).
-/

namespace JoinOrder

variable {bound key : List Name}

theorem NameSet.agree_iff {a b : List Name} : agree a b = true ↔ ∀ name, name ∈ a ↔ name ∈ b := by
  simp only [agree, covers, Bool.and_eq_true, List.all_eq_true, decide_eq_true_eq]
  exact ⟨fun h name => ⟨h.2 name, h.1 name⟩,
    fun h => ⟨fun x hx => (h x).2 hx, fun x hx => (h x).1 hx⟩⟩

namespace Source

variable {s : Source}

theorem indexKeys_subset (h : key ∈ s.indexKeys) : ∀ name ∈ key, name ∈ s.columns := by
  intro name hn
  rw [columns_eq, List.mem_append, Option.mem_toList]
  rcases mem_indexKeys.1 h with ⟨n, -, rfl⟩ | ⟨p, hp, n, -, rfl⟩
  · exact .inl (sortKey_subset name (List.mem_of_mem_take hn))
  · rcases List.mem_append.1 hn with hn | hn
    · exact .inl (sortKey_subset name (List.mem_of_mem_take hn))
    · cases List.mem_singleton.1 hn
      exact .inr hp

/-- The best key is exact if one of the keys agrees with the bound attributes. -/
theorem bestAmong_exact {best : Option IndexMatch} {keys : List (List Name)}
    (hb : best.any IndexMatch.exact = false) :
    (bestAmong bound best keys).any IndexMatch.exact = true ↔
      ∃ key ∈ keys, NameSet.agree key bound = true := by
  induction keys generalizing best with
  | nil => simp [bestAmong, hb]
  | cons key rest ih =>
    rw [bestAmong]
    split
    · next ha => simp [ha]
    next ha =>
    have hrest : ∀ best : Option IndexMatch, best.any IndexMatch.exact = false →
        ((bestAmong bound best rest).any IndexMatch.exact = true ↔
          ∃ key' ∈ key :: rest, NameSet.agree key' bound = true) := by
      intro best hb
      rw [ih hb]
      simp [ha]
    split
    · exact hrest _ rfl
    · exact hrest _ hb

end Source

namespace StoredRelation

variable {r : StoredRelation} {s : Source}

/-- A source has an exact match if one of its keys agrees with the bound attributes of the
relation. -/
theorem sourceMatch_exact : (sourceMatch bound s).any IndexMatch.exact = true ↔
    ∃ key ∈ s.indexKeys, ∀ name, name ∈ key ↔ name ∈ bound := by
  have hexact : ∀ o : Option IndexMatch, ∀ b : Bool,
      (o.map fun m : IndexMatch => ⟨m.key, m.exact && b⟩).any IndexMatch.exact =
        (o.any IndexMatch.exact && b) := by
    intro o b
    cases o <;> rfl
  rw [sourceMatch]
  rw [hexact, Bool.and_eq_true, Source.bestMatch, Source.bestAmong_exact rfl]
  simp only [NameSet.agree_iff, List.mem_filter, decide_eq_true_eq]
  constructor
  · rintro ⟨⟨key, hkey, hagree⟩, hall⟩
    exact ⟨key, hkey, fun name => (hagree name).trans (hall name)⟩
  · rintro ⟨key, hkey, hagree⟩
    have hall : ∀ name, name ∈ bound ∧ name ∈ s.columns ↔ name ∈ bound := fun name =>
      ⟨And.left, fun hn => ⟨hn, Source.indexKeys_subset hkey name ((hagree name).2 hn)⟩⟩
    exact ⟨⟨key, hkey, fun name => (hagree name).trans (hall name).symm⟩, hall⟩

theorem selectAmong_exact {best : Source × Option IndexMatch} {sources : List Source}
    (hb : best.2.any IndexMatch.exact = false) :
    (selectAmong bound best sources).2.any IndexMatch.exact = true ↔
      ∃ s ∈ sources, (sourceMatch bound s).any IndexMatch.exact = true := by
  induction sources generalizing best with
  | nil => simp [selectAmong, hb]
  | cons source rest ih =>
    rw [selectAmong]
    split
    · next hm => simp [ih hb, hm]
    next m hm =>
    split
    · next he => simp [hm, he]
    next he =>
    split
    · rw [ih (by simpa using he)]
      simp [hm, he]
    · rw [ih hb]
      simp [hm, he]

end StoredRelation

namespace Relation

/-- The index keys of all sources. Views have those of the relation below. -/
def indexKeys : Relation → List (List Name)
  | stored r => r.sources.flatMap Source.indexKeys
  | view v => v.base.sources.flatMap Source.indexKeys
  | listed _ => []

/-- A match is exact if and only if the bound attributes are those of an index key. -/
theorem indexMatch_exact {r : Relation} : (r.indexMatch bound).any IndexMatch.exact = true ↔
    ∃ key ∈ r.indexKeys, ∀ name, name ∈ key ↔ name ∈ bound := by
  have hstored : ∀ r : StoredRelation, (r.indexMatch bound).any IndexMatch.exact = true ↔
      ∃ key ∈ r.sources.flatMap Source.indexKeys, ∀ name, name ∈ key ↔ name ∈ bound := by
    intro r
    rw [StoredRelation.indexMatch, StoredRelation.selectSource,
      StoredRelation.selectAmong_exact rfl]
    simp only [StoredRelation.sourceMatch_exact, List.mem_flatMap]
    constructor
    · rintro ⟨s, hs, key, hkey, h⟩
      exact ⟨key, ⟨s, hs, hkey⟩, h⟩
    · rintro ⟨key, ⟨s, hs, hkey⟩, h⟩
      exact ⟨s, hs, key, hkey, h⟩
  cases r with
  | stored r => exact hstored r
  | view v => exact hstored v.base
  | listed r => simp [indexMatch, indexKeys]

end Relation
end JoinOrder
