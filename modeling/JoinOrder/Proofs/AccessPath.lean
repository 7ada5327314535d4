import Mathlib.Data.List.Find
import JoinOrder.Proofs.Declared
import JoinOrder.Proofs.IndexKeys
import JoinOrder.Proofs.Stored

/-!
# Choosing an access path

A source chooses among its index keys, and a relation among its sources, by one rule: the first
exact match is taken, or else the first of the longest keys (`IndexMatch.Chosen`). Together they find
the best key of all sources (`StoredRelation.selectSource_optimal`).
-/

namespace JoinOrder

variable {bound key : List Name}

theorem NameSet.covers_of_agree (h : agree key bound = true) : covers bound key = true := by
  rw [agree, Bool.and_eq_true] at h
  exact h.2

/-! ## The first exact match, or else the longest one -/

namespace IndexMatch

variable {α : Type} {offer : α → Option IndexMatch} {best : Option (α × IndexMatch)} {x : α}
  {xs before : List α} {m : IndexMatch} {o o' : Option (α × IndexMatch)}

/-- The first item that offers an exact match, or else the first of those that offer the longest
key. -/
def choose (offer : α → Option IndexMatch) : (best : Option (α × IndexMatch)) → List α →
    Option (α × IndexMatch)
  | best, [] => best
  | best, x :: rest =>
    match offer x with
    | none => choose offer best rest
    | some m =>
      if m.exact then some (x, m)
      else if best.all (·.2.key.length < m.key.length) then choose offer (some (x, m)) rest
      else choose offer best rest

/-- What an item offers is an exact match. -/
def IsExact (offer : α → Option IndexMatch) (x : α) : Bool := (offer x).any IndexMatch.exact

/-- What an item offers is a key of this length. -/
def HasLength (offer : α → Option IndexMatch) (n : Nat) (x : α) : Bool :=
  (offer x).any (·.key.length = n)

/-- The items with what they offer, one of which has been chosen by the rule. -/
inductive Chosen (offer : α → Option IndexMatch) (xs : List α) : Option (α × IndexMatch) → Prop
  | unmatched (h : ∀ x ∈ xs, offer x = none) : Chosen offer xs none
  | exact {x : α} {m : IndexMatch} (hm : offer x = some m) (he : m.exact = true)
      (h : xs.find? (IsExact offer) = some x) : Chosen offer xs (some (x, m))
  | longest {x : α} {m : IndexMatch} (hm : offer x = some m) (he : m.exact = false)
      (hne : ∀ y ∈ xs, IsExact offer y = false)
      (hle : ∀ y ∈ xs, ∀ m', offer y = some m' → m'.key.length ≤ m.key.length)
      (h : xs.find? (HasLength offer m.key.length) = some x) : Chosen offer xs (some (x, m))

/-- As long as there is no exact match, the first of the longest keys is kept. -/
structure Keeps (offer : α → Option IndexMatch) (before : List α) (best : Option (α × IndexMatch)) :
    Prop where
  inexact : ∀ x ∈ before, IsExact offer x = false
  first : ∀ b ∈ best, offer b.1 = some b.2 ∧
    before.find? (HasLength offer b.2.key.length) = some b.1
  longest : ∀ x ∈ before, ∀ m, offer x = some m → ∃ b ∈ best, m.key.length ≤ b.2.key.length

theorem Keeps.chosen (H : Keeps offer xs best) : Chosen offer xs best := by
  match best, H with
  | none, H =>
    refine .unmatched fun x hx => Option.eq_none_iff_forall_ne_some.2 fun m hm => ?_
    obtain ⟨b, hb, -⟩ := H.longest x hx m hm
    cases hb
  | some (x, m), H =>
    obtain ⟨hm, hfind⟩ := H.first _ rfl
    have he : m.exact = false := by
      have hx := H.inexact x (List.mem_of_find?_eq_some hfind)
      rwa [IsExact, hm] at hx
    refine .longest hm he H.inexact (fun y hy m' hm' => ?_) hfind
    obtain ⟨b, hb, hle⟩ := H.longest y hy m' hm'
    cases hb
    exact hle

/-- An item that offers nothing better is passed over. -/
theorem Keeps.pass (H : Keeps offer before best) (he : IsExact offer x = false)
    (hle : ∀ m, offer x = some m → ∃ b ∈ best, m.key.length ≤ b.2.key.length) :
    Keeps offer (before ++ [x]) best where
  inexact := List.forall_mem_append.2 ⟨H.inexact, List.forall_mem_singleton.2 he⟩
  first b hb := by
    rw [List.find?_append, (H.first b hb).2]
    exact ⟨(H.first b hb).1, rfl⟩
  longest := List.forall_mem_append.2 ⟨H.longest, List.forall_mem_singleton.2 hle⟩

/-- An item that offers a longer key is the best one. -/
theorem Keeps.take (H : Keeps offer before best) (hm : offer x = some m)
    (he : IsExact offer x = false) (hlt : ∀ b ∈ best, b.2.key.length < m.key.length) :
    Keeps offer (before ++ [x]) (some (x, m)) where
  inexact := List.forall_mem_append.2 ⟨H.inexact, List.forall_mem_singleton.2 he⟩
  first := by
    rintro _ ⟨⟩
    refine ⟨hm, ?_⟩
    have hbefore : before.find? (HasLength offer m.key.length) = none := by
      rw [List.find?_eq_none]
      intro y hy hlen
      rw [HasLength, Option.any_eq_true] at hlen
      obtain ⟨m', hm', hlen⟩ := hlen
      obtain ⟨b, hb, hle⟩ := H.longest y hy m' hm'
      have hlt := hlt b hb
      have hlen := of_decide_eq_true hlen
      omega
    have hx : HasLength offer m.key.length x = true := by simp [HasLength, hm]
    rw [List.find?_append, hbefore, Option.none_or, List.find?_cons_of_pos hx]
  longest := by
    refine List.forall_mem_append.2 ⟨fun y hy m' hm' => ?_, List.forall_mem_singleton.2 ?_⟩
    · obtain ⟨b, hb, hle⟩ := H.longest y hy m' hm'
      exact ⟨_, rfl, Nat.le_of_lt (Nat.lt_of_le_of_lt hle (hlt b hb))⟩
    · intro m' hm'
      cases hm.symm.trans hm'
      exact ⟨_, rfl, Nat.le_refl _⟩

theorem choose_spec (H : Keeps offer before best) :
    Chosen offer (before ++ xs) (choose offer best xs) := by
  induction xs generalizing before best with
  | nil => exact (List.append_nil before).symm ▸ H.chosen
  | cons x xs ih =>
    rw [choose]
    split
    · next hx =>
      rw [List.append_cons]
      refine ih (H.pass (by rw [IsExact, hx]; rfl) fun m hm => ?_)
      cases hx.symm.trans hm
    next m hm =>
    split
    · next he =>
      refine .exact hm he ?_
      have hbefore : before.find? (IsExact offer) = none :=
        List.find?_eq_none.2 fun y hy => by rw [H.inexact y hy]; exact Bool.false_ne_true
      have hx : IsExact offer x = true := by rw [IsExact, hm]; exact he
      rw [List.find?_append, hbefore, Option.none_or, List.find?_cons_of_pos hx]
    next he =>
    have hx : IsExact offer x = false := by
      rw [IsExact, hm]
      exact Bool.eq_false_iff.2 he
    rw [List.append_cons]
    split
    · next hlt =>
      refine ih (H.take hm hx fun b hb => ?_)
      cases hb
      exact of_decide_eq_true hlt
    · next hlt =>
      refine ih (H.pass hx fun m' hm' => ?_)
      cases hm.symm.trans hm'
      cases best with
      | none => exact absurd rfl hlt
      | some b => exact ⟨b, rfl, by simpa using hlt⟩

theorem chosen_choose : Chosen offer xs (choose offer none xs) := by
  have hstart : Keeps offer [] none := ⟨nofun, nofun, nofun⟩
  exact choose_spec hstart

theorem choose_congr {offer' : α → Option IndexMatch} (h : ∀ x ∈ xs, offer x = offer' x) :
    choose offer best xs = choose offer' best xs := by
  induction xs generalizing best with
  | nil => rfl
  | cons x xs ih =>
    rw [List.forall_mem_cons] at h
    rw [choose, choose, h.1]
    simp only [ih h.2]

theorem Chosen.mem (h : Chosen offer xs (some (x, m))) : x ∈ xs ∧ offer x = some m := by
  cases h with
  | exact hm _ h => exact ⟨List.mem_of_find?_eq_some h, hm⟩
  | longest hm _ _ _ h => exact ⟨List.mem_of_find?_eq_some h, hm⟩

theorem Chosen.find_exact (h : Chosen offer xs (some (x, m))) (he : m.exact = true) :
    xs.find? (IsExact offer) = some x := by
  cases h with
  | exact _ _ h => exact h
  | longest _ hne _ _ _ => exact absurd (hne.symm.trans he) Bool.false_ne_true

theorem Chosen.find_longest (h : Chosen offer xs (some (x, m))) (he : m.exact = false) :
    (∀ y ∈ xs, IsExact offer y = false) ∧
      (∀ y ∈ xs, ∀ m', offer y = some m' → m'.key.length ≤ m.key.length) ∧
      xs.find? (HasLength offer m.key.length) = some x := by
  cases h with
  | exact _ ht _ => exact absurd (he.symm.trans ht) Bool.false_ne_true
  | longest _ _ hne hle h => exact ⟨hne, hle, h⟩

theorem Chosen.eq_none_iff (h : Chosen offer xs o) : o = none ↔ ∀ x ∈ xs, offer x = none := by
  constructor
  · rintro rfl
    cases h with
    | unmatched h => exact h
  · intro hnone
    cases o with
    | none => rfl
    | some b => exact absurd (hnone b.1 h.mem.1) (by rw [h.mem.2]; exact Option.some_ne_none _)

theorem Chosen.exact_iff (h : Chosen offer xs o) :
    o.any (·.2.exact) = true ↔ ∃ x ∈ xs, IsExact offer x = true := by
  cases h with
  | unmatched h =>
    refine ⟨nofun, fun ⟨x, hx, he⟩ => ?_⟩
    rw [IsExact, h x hx] at he
    cases he
  | exact hm he h => exact ⟨fun _ => ⟨_, List.mem_of_find?_eq_some h, List.find?_some h⟩, fun _ => he⟩
  | longest hm he hne _ _ =>
    refine ⟨fun ht => absurd (he.symm.trans ht) Bool.false_ne_true, fun ⟨y, hy, ht⟩ => ?_⟩
    exact absurd ((hne y hy).symm.trans ht) Bool.false_ne_true

/-- The rule leaves no choice. -/
theorem Chosen.unique (h : Chosen offer xs o) (h' : Chosen offer xs o') : o = o' := by
  match o, o', h, h' with
  | none, _, h, h' => exact (h'.eq_none_iff.2 (h.eq_none_iff.1 rfl)).symm
  | _, none, h, h' => exact h.eq_none_iff.2 (h'.eq_none_iff.1 rfl)
  | some (x, m), some (y, m'), h, h' =>
    have hexact : m.exact = m'.exact := Bool.eq_iff_iff.2 (h.exact_iff.trans h'.exact_iff.symm)
    have hxy : x = y := by
      cases he : m.exact with
      | true =>
        have hfind := h.find_exact he
        exact Option.some.inj (hfind.symm.trans (h'.find_exact (hexact.symm.trans he)))
      | false =>
        obtain ⟨-, hle, hfind⟩ := h.find_longest he
        obtain ⟨-, hle', hfind'⟩ := h'.find_longest (hexact.symm.trans he)
        have hlen : m.key.length = m'.key.length :=
          Nat.le_antisymm (hle' x h.mem.1 m h.mem.2) (hle y h'.mem.1 m' h'.mem.2)
        rw [hlen] at hfind
        exact Option.some.inj (hfind.symm.trans hfind')
    subst hxy
    cases h.mem.2.symm.trans h'.mem.2
    rfl

end IndexMatch

/-! ## The keys of a source -/

namespace Source

variable {s : Source}

/-- What an index key offers for some bound attributes. -/
def keyMatch (bound key : List Name) : Option IndexMatch :=
  if NameSet.agree key bound then some ⟨key, true⟩
  else if NameSet.covers bound key then some ⟨key, false⟩
  else none

open IndexMatch (choose Chosen)

theorem bestAmong_eq (best : Option (List Name × IndexMatch)) (keys : List (List Name)) :
    bestAmong bound (best.map Prod.snd) keys =
      (choose (keyMatch bound) best keys).map Prod.snd := by
  induction keys generalizing best with
  | nil => rfl
  | cons key rest ih =>
    rw [bestAmong, choose, keyMatch]
    by_cases ha : NameSet.agree key bound = true
    · simp [ha]
    by_cases hc : NameSet.covers bound key = true
    · have hall : (best.map Prod.snd).all (·.key.length < key.length) =
          best.all (·.2.key.length < key.length) := Option.all_map
      simp only [ha, hc, hall, Bool.false_eq_true, if_false, if_true, Bool.true_and]
      by_cases hl : best.all (·.2.key.length < key.length) = true
      · rw [if_pos hl, if_pos hl, ← ih]
        rfl
      · rw [if_neg hl, if_neg hl, ih]
    · simp only [ha, hc, Bool.false_eq_true, if_false, Bool.false_and, ih]

theorem keyMatch_eq_some {m : IndexMatch} (h : keyMatch bound key = some m) :
    m.key = key ∧ NameSet.covers bound key = true := by
  unfold keyMatch at h
  split at h
  · next ha =>
    cases h
    exact ⟨rfl, NameSet.covers_of_agree ha⟩
  split at h
  · next hc =>
    cases h
    exact ⟨rfl, hc⟩
  · cases h

theorem keyMatch_of_agree (h : NameSet.agree key bound = true) :
    keyMatch bound key = some ⟨key, true⟩ := if_pos h

theorem keyMatch_of_not_agree (h : NameSet.agree key bound = false) :
    keyMatch bound key = if NameSet.covers bound key then some ⟨key, false⟩ else none :=
  if_neg (Bool.eq_false_iff.1 h)

theorem keyMatch_isSome : (keyMatch bound key).isSome = NameSet.covers bound key := by
  unfold keyMatch
  by_cases ha : NameSet.agree key bound = true
  · rw [if_pos ha, NameSet.covers_of_agree ha]
    rfl
  · rw [if_neg ha]
    split
    · next hc => exact hc.symm
    · next hc => exact (Bool.eq_false_iff.2 hc).symm

theorem isExact_keyMatch : IndexMatch.IsExact (keyMatch bound) key = NameSet.agree key bound := by
  unfold IndexMatch.IsExact
  by_cases ha : NameSet.agree key bound = true
  · rw [keyMatch_of_agree ha, ha]
    rfl
  · rw [Bool.not_eq_true] at ha
    rw [keyMatch_of_not_agree ha, ha]
    split <;> rfl

theorem hasLength_keyMatch {n : Nat} : IndexMatch.HasLength (keyMatch bound) n key =
    (NameSet.covers bound key && decide (key.length = n)) := by
  rw [← keyMatch_isSome, IndexMatch.HasLength]
  cases hm : keyMatch bound key with
  | none => rfl
  | some m => rw [Option.any_some, (keyMatch_eq_some hm).1, Option.isSome_some, Bool.true_and]

/-- The best match of a source is chosen among its index keys. -/
theorem bestMatch_eq (s : Source) (bound : List Name) :
    s.bestMatch bound = (choose (keyMatch bound) none s.indexKeys).map Prod.snd :=
  bestAmong_eq none s.indexKeys

theorem bestMatch_eq_none_iff :
    s.bestMatch bound = none ↔ ∀ key ∈ s.indexKeys, NameSet.covers bound key = false := by
  have C : Chosen (keyMatch bound) s.indexKeys (choose (keyMatch bound) none s.indexKeys) :=
    IndexMatch.chosen_choose
  rw [bestMatch_eq, Option.map_eq_none_iff, C.eq_none_iff]
  refine forall₂_congr fun key _ => ?_
  rw [← keyMatch_isSome, Option.isSome_eq_false_iff, Option.isNone_iff_eq_none]

theorem isExact_bestMatch : IndexMatch.IsExact (bestMatch · bound) s =
    s.indexKeys.any (NameSet.agree · bound) := by
  rw [Bool.eq_iff_iff, IndexMatch.IsExact, bestMatch, bestAmong_exact rfl, List.any_eq_true]

theorem bestMatch_exact (h : s.bestMatch bound = some ⟨key, true⟩) :
    s.indexKeys.find? (NameSet.agree · bound) = some key := by
  have C : Chosen (keyMatch bound) s.indexKeys (choose (keyMatch bound) none s.indexKeys) :=
    IndexMatch.chosen_choose
  rw [bestMatch_eq, Option.map_eq_some_iff] at h
  obtain ⟨⟨k, m⟩, hb, rfl⟩ := h
  rw [hb] at C
  obtain ⟨rfl, -⟩ := keyMatch_eq_some C.mem.2
  exact (List.find?_congr fun _ _ => isExact_keyMatch.symm).trans (C.find_exact rfl)

theorem bestMatch_longest (h : s.bestMatch bound = some ⟨key, false⟩) :
    (∀ k ∈ s.indexKeys, NameSet.covers bound k = true → k.length ≤ key.length) ∧
      s.indexKeys.find? (fun k => NameSet.covers bound k && k.length = key.length) = some key := by
  have C : Chosen (keyMatch bound) s.indexKeys (choose (keyMatch bound) none s.indexKeys) :=
    IndexMatch.chosen_choose
  rw [bestMatch_eq, Option.map_eq_some_iff] at h
  obtain ⟨⟨k, m⟩, hb, rfl⟩ := h
  rw [hb] at C
  obtain ⟨rfl, -⟩ := keyMatch_eq_some C.mem.2
  obtain ⟨-, hle, hfind⟩ := C.find_longest rfl
  refine ⟨fun k hk hc => ?_, (List.find?_congr fun _ _ => hasLength_keyMatch.symm).trans hfind⟩
  obtain ⟨m, hm⟩ := Option.isSome_iff_exists.1 (keyMatch_isSome.trans hc)
  rw [← (keyMatch_eq_some hm).1]
  exact hle k hk m hm

/-- No key of bound attributes is longer than the best match, if none has all of them. -/
theorem length_le_bestMatch (hnot : ∀ key ∈ s.indexKeys, NameSet.agree key bound = false)
    (hk : key ∈ s.indexKeys) (hc : NameSet.covers bound key = true) :
    ∃ m, s.bestMatch bound = some m ∧ key.length ≤ m.key.length := by
  cases hm : s.bestMatch bound with
  | none =>
    rw [bestMatch_eq_none_iff.1 hm key hk] at hc
    cases hc
  | some m =>
    obtain ⟨k, exact⟩ := m
    cases exact with
    | true =>
      have hfind := bestMatch_exact hm
      have hagree := List.find?_some hfind
      rw [hnot k (List.mem_of_find?_eq_some hfind)] at hagree
      cases hagree
    | false => exact ⟨_, rfl, (bestMatch_longest hm).1 key hk hc⟩

/-- The length of the best match tells whether there is a key of the greatest length. -/
theorem hasLength_bestMatch {n : Nat} (hnot : ∀ key ∈ s.indexKeys, NameSet.agree key bound = false)
    (hle : ∀ m, s.bestMatch bound = some m → m.key.length ≤ n) :
    IndexMatch.HasLength (bestMatch · bound) n s =
      s.indexKeys.any fun k => NameSet.covers bound k && k.length = n := by
  rw [Bool.eq_iff_iff, List.any_eq_true, IndexMatch.HasLength, Option.any_eq_true]
  constructor
  · rintro ⟨m, hm, hlen⟩
    obtain ⟨hkey, hbound⟩ := bestMatch_mem hm
    refine ⟨m.key, hkey, Bool.and_eq_true_iff.2 ⟨?_, hlen⟩⟩
    simpa only [NameSet.covers, List.all_eq_true, decide_eq_true_iff] using hbound
  · rintro ⟨k, hk, hc⟩
    rw [Bool.and_eq_true, decide_eq_true_iff] at hc
    obtain ⟨m, hm, hlen⟩ := length_le_bestMatch hnot hk hc.1
    exact ⟨m, hm, decide_eq_true (Nat.le_antisymm (hle m hm) (hc.2 ▸ hlen))⟩

theorem keyMatch_congr {bound' : List Name} (h : ∀ name, name ∈ bound ↔ name ∈ bound') :
    keyMatch bound = keyMatch bound' := by
  funext key
  have ha : NameSet.agree key bound = NameSet.agree key bound' := by
    rw [Bool.eq_iff_iff, NameSet.agree_iff, NameSet.agree_iff]
    simp only [h]
  have hc : NameSet.covers bound key = NameSet.covers bound' key := by
    simp only [NameSet.covers, h]
  rw [keyMatch, keyMatch, ha, hc]

/-- No key of bound attributes is longer than one that has all of them. -/
theorem length_le_of_agree {k : List Name} (hk : k.Nodup) (ha : NameSet.agree key bound = true)
    (hc : NameSet.covers bound k = true) : k.length ≤ key.length := by
  simp only [NameSet.covers, List.all_eq_true, decide_eq_true_iff] at hc
  exact (hk.subperm fun name hm => (NameSet.agree_iff.1 ha name).2 (hc name hm)).length_le

/-- Of the keys that repeat no attribute, those of bound attributes that are as long as one that has
all of them have all of them as well. -/
theorem agree_of_length {k : List Name} (hk : k.Nodup)
    (ha : NameSet.agree key bound = true) (hc : NameSet.covers bound k = true)
    (hl : k.length = key.length) : NameSet.agree k bound = true := by
  simp only [NameSet.covers, List.all_eq_true, decide_eq_true_iff] at hc
  have hp : k.Perm key := (hk.subperm fun name hm =>
    (NameSet.agree_iff.1 ha name).2 (hc name hm)).perm_of_length_le hl.ge
  exact NameSet.agree_iff.2 fun name => hp.mem_iff.trans (NameSet.agree_iff.1 ha name)

section

variable {keys : List (List Name)} {m : IndexMatch} (hn : ∀ key ∈ keys, key.Nodup)
  (C : Chosen (keyMatch bound) keys (some (key, m)))

include hn C

/-- The chosen key is one of the longest, also if it has all bound attributes. -/
theorem length_le_chosen : ∀ k ∈ keys, NameSet.covers bound k = true → k.length ≤ key.length := by
  intro k hk hc
  obtain ⟨rfl, -⟩ := keyMatch_eq_some C.mem.2
  cases he : m.exact with
  | true =>
    have ha := isExact_keyMatch.symm.trans (List.find?_some (C.find_exact he))
    exact length_le_of_agree (hn k hk) ha hc
  | false =>
    obtain ⟨m', hm'⟩ := Option.isSome_iff_exists.1 (keyMatch_isSome.trans hc)
    rw [← (keyMatch_eq_some hm').1]
    exact (C.find_longest he).2.1 k hk m' hm'

/-- The chosen key is the first of the longest, also if it has all bound attributes. -/
theorem find_chosen :
    keys.find? (fun k => NameSet.covers bound k && decide (k.length = key.length)) = some key := by
  obtain ⟨hk, hm⟩ := C.mem
  obtain ⟨rfl, -⟩ := keyMatch_eq_some hm
  cases he : m.exact with
  | true =>
    have hfind := C.find_exact he
    have ha := isExact_keyMatch.symm.trans (List.find?_some hfind)
    refine (List.find?_congr fun k hk' => ?_).trans hfind
    rw [isExact_keyMatch, Bool.eq_iff_iff, Bool.and_eq_true, decide_eq_true_iff]
    refine ⟨fun h => agree_of_length (hn k hk') ha h.1 h.2, fun h => ?_⟩
    have hc := NameSet.covers_of_agree h
    exact ⟨hc, Nat.le_antisymm (length_le_of_agree (hn k hk') ha hc)
      (length_le_of_agree (hn _ hk) h (NameSet.covers_of_agree ha))⟩
  | false =>
    refine (List.find?_congr fun k _ => ?_).trans (C.find_longest he).2.2
    rw [hasLength_keyMatch]

end

/-- The choice for some of the bound attributes is that for all of them, where these include all that
the keys have but no key has all of them. -/
theorem chosen_within {shared : List Name} {keys : List (List Name)}
    (hn : ∀ key ∈ keys, key.Nodup)
    (hcovers : ∀ key ∈ keys, NameSet.covers shared key = NameSet.covers bound key)
    (hnot : ∀ key ∈ keys, NameSet.agree key bound = false) :
    Chosen (keyMatch bound) keys ((choose (keyMatch shared) none keys).map
      fun b => (b.1, ⟨b.2.key, false⟩)) := by
  have C : Chosen (keyMatch shared) keys (choose (keyMatch shared) none keys) :=
    IndexMatch.chosen_choose
  cases hb : choose (keyMatch shared) none keys with
  | none =>
    rw [hb] at C
    refine .unmatched fun key hk => ?_
    rw [← Option.isNone_iff_eq_none, ← Option.not_isSome, keyMatch_isSome, ← hcovers key hk,
      ← keyMatch_isSome, C.eq_none_iff.1 rfl key hk]
    rfl
  | some b =>
    rw [hb] at C
    obtain ⟨key, m⟩ := b
    obtain ⟨hk, hm⟩ := C.mem
    obtain ⟨rfl, hc⟩ := keyMatch_eq_some hm
    refine .longest ?_ rfl (fun k hk' => isExact_keyMatch.trans (hnot k hk')) ?_ ?_
    · rw [keyMatch_of_not_agree (hnot _ hk), ← hcovers _ hk, hc, if_pos rfl]
    · intro k hk' m' hm'
      obtain ⟨rfl, hc'⟩ := keyMatch_eq_some hm'
      exact length_le_chosen hn C _ hk' ((hcovers _ hk').trans hc')
    · refine (List.find?_congr fun k hk' => ?_).trans (find_chosen hn C)
      rw [hasLength_keyMatch, hcovers k hk']

/-- Each attribute occurs once in an index key. -/
theorem Declared.indexKeys_nodup (H : s.Declared) : ∀ key ∈ s.indexKeys, key.Nodup := by
  have hkey : s.sortKey.Nodup := H.wellFormed.attributes_nodup.sublist H.sortKey_sublist
  intro key hk
  rcases mem_indexKeys.1 hk with ⟨n, -, rfl⟩ | ⟨p, hp, n, -, rfl⟩
  · exact hkey.sublist (List.take_sublist _ _)
  · refine (hkey.sublist (List.take_sublist _ _)).append (List.nodup_singleton p) ?_
    rw [List.disjoint_singleton]
    exact fun hm => H.wellFormed.position_not_mem hp (sortKey_subset p (List.mem_of_mem_take hm))

end Source

namespace StoredRelation

variable {s : Source} {r : StoredRelation}

open IndexMatch (choose Chosen)

/-- A source offers its best match for the bound attributes, although it is only asked for those
that it has. -/
theorem sourceMatch_eq (hn : ∀ key ∈ s.indexKeys, key.Nodup) :
    sourceMatch bound s = s.bestMatch bound := by
  have hshared : ∀ name, name ∈ bound.filter (· ∈ s.columns) ↔ name ∈ bound ∧ name ∈ s.columns := by
    intro name
    rw [List.mem_filter, decide_eq_true_iff]
  have hcovers : ∀ key ∈ s.indexKeys,
      NameSet.covers (bound.filter (· ∈ s.columns)) key = NameSet.covers bound key := by
    intro key hk
    rw [Bool.eq_iff_iff]
    simp only [NameSet.covers, List.all_eq_true, decide_eq_true_iff, hshared]
    exact ⟨fun h name hm => (h name hm).1, fun h name hm =>
      ⟨h name hm, Source.indexKeys_subset hk name hm⟩⟩
  rw [sourceMatch, Source.bestMatch_eq, Source.bestMatch_eq]
  by_cases hall : NameSet.agree (bound.filter (· ∈ s.columns)) bound = true
  · have hagree : ∀ key,
        NameSet.agree key (bound.filter (· ∈ s.columns)) = NameSet.agree key bound := by
      intro key
      rw [Bool.eq_iff_iff, NameSet.agree_iff, NameSet.agree_iff]
      simp only [NameSet.agree_iff.1 hall]
    have hoffer : ∀ key ∈ s.indexKeys, Source.keyMatch (bound.filter (· ∈ s.columns)) key =
        Source.keyMatch bound key := by
      intro key hk
      rw [Source.keyMatch, Source.keyMatch, hagree, hcovers key hk]
    rw [IndexMatch.choose_congr hoffer, hall, Option.map_map]
    simp only [Function.comp_def, Bool.and_true]
  · rw [Bool.not_eq_true] at hall
    -- No index key of the source has all bound attributes.
    have hnot : ∀ key ∈ s.indexKeys, NameSet.agree key bound = false := by
      intro key hk
      rw [Bool.eq_false_iff, ne_eq, NameSet.agree_iff]
      intro ha
      refine Bool.eq_false_iff.1 hall (NameSet.agree_iff.2 fun name => ?_)
      rw [hshared]
      exact ⟨And.left, fun hm => ⟨hm, Source.indexKeys_subset hk name ((ha name).2 hm)⟩⟩
    rw [IndexMatch.chosen_choose.unique (Source.chosen_within hn hcovers hnot), hall,
      Option.map_map, Option.map_map]
    simp only [Function.comp_def, Bool.and_false]

theorem selectAmong_eq (bound : List Name) (primary : Source)
    (best : Option (Source × IndexMatch)) (sources : List Source) :
    selectAmong bound (best.elim (primary, none) fun b => (b.1, some b.2)) sources =
      (choose (sourceMatch bound) best sources).elim (primary, none) fun b => (b.1, some b.2) := by
  induction sources generalizing best with
  | nil => rfl
  | cons source rest ih =>
    rw [selectAmong, choose]
    cases hm : sourceMatch bound source with
    | none => exact ih best
    | some m =>
      dsimp only
      by_cases he : m.exact = true
      · rw [if_pos he, if_pos he]
        rfl
      · rw [if_neg he, if_neg he]
        have hall : (best.elim (primary, none) fun b => (b.1, some b.2)).2.all
            (·.key.length < m.key.length) = best.all (·.2.key.length < m.key.length) := by
          cases best <;> rfl
        rw [hall]
        by_cases hl : best.all (·.2.key.length < m.key.length) = true
        · rw [if_pos hl, if_pos hl, ← ih]
          rfl
        · rw [if_neg hl, if_neg hl, ih]

/-- The source that a lookup uses is chosen by its best match. -/
theorem selectSource_eq (hn : ∀ s ∈ r.sources, ∀ key ∈ s.indexKeys, key.Nodup)
    (bound : List Name) :
    r.selectSource bound = (choose (Source.bestMatch · bound) none r.sources).elim
      (r.primary, none) fun b => (b.1, some b.2) := by
  have hselect := selectAmong_eq bound r.primary none r.sources
  rw [IndexMatch.choose_congr fun s hs => sourceMatch_eq (hn s hs)] at hselect
  exact hselect

/-- The chosen source has the best index key of all sources: one that has exactly the bound
attributes if there is any, or else one of the longest with bound attributes only. Of several such
sources it is the first one. -/
structure IsBest (r : StoredRelation) (bound : List Name) (s : Source) (m : Option IndexMatch) :
    Prop where
  mem : s ∈ r.sources
  eq_none_iff : m = none ↔
    ∀ t ∈ r.sources, ∀ key ∈ t.indexKeys, ∃ name ∈ key, name ∉ bound
  primary : m = none → s = r.primary
  exact_iff : m.any IndexMatch.exact = true ↔
    ∃ t ∈ r.sources, ∃ key ∈ t.indexKeys, ∀ name, name ∈ key ↔ name ∈ bound
  exact : ∀ key, m = some ⟨key, true⟩ →
    r.sources.find? (fun t => t.indexKeys.any (NameSet.agree · bound)) = some s ∧
      s.indexKeys.find? (NameSet.agree · bound) = some key
  longest : ∀ key, m = some ⟨key, false⟩ →
    (∀ t ∈ r.sources, ∀ k ∈ t.indexKeys, (∀ name ∈ k, name ∈ bound) → k.length ≤ key.length) ∧
      r.sources.find? (fun t => t.indexKeys.any fun k =>
        NameSet.covers bound k && k.length = key.length) = some s ∧
      s.indexKeys.find? (fun k => NameSet.covers bound k && k.length = key.length) = some key

section

variable {sources : List Source}

theorem find_of_exact (C : Chosen (Source.bestMatch · bound) sources (some (s, ⟨key, true⟩))) :
    sources.find? (fun t => t.indexKeys.any (NameSet.agree · bound)) = some s :=
  (List.find?_congr fun _ _ => Source.isExact_bestMatch.symm).trans (C.find_exact rfl)

section

variable (C : Chosen (Source.bestMatch · bound) sources (some (s, ⟨key, false⟩)))

include C

theorem not_agree_of_chosen : ∀ t ∈ sources, ∀ k ∈ t.indexKeys, NameSet.agree k bound = false := by
  intro t ht k hk
  rw [Bool.eq_false_iff]
  intro ha
  have hany := Source.isExact_bestMatch.symm.trans ((C.find_longest rfl).1 t ht)
  exact Bool.eq_false_iff.1 hany (List.any_eq_true.2 ⟨k, hk, ha⟩)

theorem length_le_of_chosen : ∀ t ∈ sources, ∀ k ∈ t.indexKeys, (∀ name ∈ k, name ∈ bound) →
    k.length ≤ key.length := by
  intro t ht k hk hsub
  have hc : NameSet.covers bound k = true := by
    simpa only [NameSet.covers, List.all_eq_true, decide_eq_true_iff] using hsub
  obtain ⟨m, hm, hle⟩ := Source.length_le_bestMatch (not_agree_of_chosen C t ht) hk hc
  exact Nat.le_trans hle ((C.find_longest rfl).2.1 t ht m hm)

theorem find_of_longest : sources.find? (fun t => t.indexKeys.any fun k =>
    NameSet.covers bound k && k.length = key.length) = some s := by
  obtain ⟨-, hle, hfind⟩ := C.find_longest rfl
  refine (List.find?_congr fun t ht => ?_).trans hfind
  exact (Source.hasLength_bestMatch (not_agree_of_chosen C t ht) (hle t ht)).symm

end

end

theorem isBest_selectSource (hn : ∀ s ∈ r.sources, ∀ key ∈ s.indexKeys, key.Nodup) :
    r.IsBest bound (r.selectSource bound).1 (r.selectSource bound).2 := by
  have hexact : (r.selectSource bound).2.any IndexMatch.exact = true ↔
      ∃ t ∈ r.sources, ∃ key ∈ t.indexKeys, ∀ name, name ∈ key ↔ name ∈ bound := by
    refine (Relation.indexMatch_exact (r := .stored r)).trans ?_
    simp only [Relation.indexKeys, List.mem_flatMap]
    constructor
    · rintro ⟨key, ⟨t, ht, hkey⟩, h⟩
      exact ⟨t, ht, key, hkey, h⟩
    · rintro ⟨t, ht, key, hkey, h⟩
      exact ⟨key, ⟨t, ht, hkey⟩, h⟩
  have hnone : (∀ t ∈ r.sources, t.bestMatch bound = none) ↔
      ∀ t ∈ r.sources, ∀ key ∈ t.indexKeys, ∃ name ∈ key, name ∉ bound := by
    simp only [Source.bestMatch_eq_none_iff, NameSet.covers, List.all_eq_false,
      decide_eq_true_iff]
  have C : Chosen (Source.bestMatch · bound) r.sources
      (choose (Source.bestMatch · bound) none r.sources) := IndexMatch.chosen_choose
  have hselect := selectSource_eq hn bound
  cases hb : choose (Source.bestMatch · bound) none r.sources with
  | none =>
    rw [hb] at C hselect
    refine ⟨selectSource_mem, ?_, fun _ => congrArg Prod.fst hselect, hexact, ?_, ?_⟩
    · rw [hselect]
      exact ⟨fun _ => hnone.1 (C.eq_none_iff.1 rfl), fun _ => rfl⟩
    · rw [hselect]
      intro key h
      cases h
    · rw [hselect]
      intro key h
      cases h
  | some b =>
    rw [hb] at C hselect
    obtain ⟨s, m⟩ := b
    obtain ⟨hs, hm⟩ := C.mem
    refine ⟨selectSource_mem, ?_, ?_, hexact, ?_, ?_⟩
    · rw [hselect, ← hnone]
      constructor
      · intro h
        cases h
      · intro h
        cases (h s hs).symm.trans hm
    · rw [hselect]
      intro h
      cases h
    · rw [hselect]
      rintro key ⟨⟩
      exact ⟨find_of_exact C, Source.bestMatch_exact hm⟩
    · rw [hselect]
      rintro key ⟨⟩
      exact ⟨length_le_of_chosen C, find_of_longest C, (Source.bestMatch_longest hm).2⟩

theorem selectSource_congr {bound' : List Name} (h : ∀ name, name ∈ bound ↔ name ∈ bound') :
    r.selectSource bound = r.selectSource bound' := by
  have hmatch : sourceMatch bound = sourceMatch bound' := by
    funext s
    have hshared : ∀ name, name ∈ bound.filter (· ∈ s.columns) ↔
        name ∈ bound'.filter (· ∈ s.columns) := by
      intro name
      rw [List.mem_filter, List.mem_filter, h]
    have hagree : NameSet.agree (bound.filter (· ∈ s.columns)) bound =
        NameSet.agree (bound'.filter (· ∈ s.columns)) bound' := by
      rw [Bool.eq_iff_iff, NameSet.agree_iff, NameSet.agree_iff]
      simp only [hshared, h]
    rw [sourceMatch, sourceMatch, Source.bestMatch_eq, Source.bestMatch_eq,
      Source.keyMatch_congr hshared, hagree]
  rw [selectSource, selectSource]
  refine (selectAmong_eq bound r.primary none r.sources).trans ?_
  rw [hmatch]
  exact (selectAmong_eq bound' r.primary none r.sources).symm

/-- The best access path is chosen for each set of bound attributes, and statistics as well as lookups
use it. -/
theorem selectSource_optimal (h : ∀ s ∈ r.sources, s.Declared) (bound : List Name) :
    ∃ s m, r.indexMatch bound = m ∧ r.IsBest bound s m ∧
      r.keyFrequency bound = (match m with
        | some ⟨key, true⟩ => do
          match ← s.maxFrequency key with
          | some v => return some (← Cardinality.ofValue v)
          | none => return none
        | _ => return none) ∧
      ((∀ name ∈ bound, name ∈ r.attributes) →
        ∀ binding : NamedValues, (∀ name, name ∈ binding.names ↔ name ∈ bound) →
          r.lookup binding = do
            let cardinality ← Cardinality.ofValue (← s.estimate (binding.restrict s.columns))
            return ⟨cardinality, s.isFinite, fun _ => r.produce s binding⟩) := by
  refine ⟨(r.selectSource bound).1, (r.selectSource bound).2, rfl,
    isBest_selectSource fun s hs => (h s hs).indexKeys_nodup, ?_, ?_⟩
  · rw [keyFrequency]
    rcases r.selectSource bound with ⟨s, _ | ⟨key, _ | _⟩⟩ <;> rfl
  · intro hattributes binding hnames
    have hforeign : binding.names.filter (· ∉ r.attributes) = [] := by
      rw [List.filter_eq_nil_iff]
      intro name hm
      simpa using hattributes name ((hnames name).1 hm)
    rw [lookup, requireAttributes, if_pos hforeign, Checked.bind_ok, selectSource_congr hnames]

end StoredRelation

/-! ## Triples with an index on their middle items -/

namespace Triples

/-- The middle items in their order, with the positions of their triples. -/
def middles : Source :=
  .ofSchema ⟨.table, [.text "b", .text "p"], none, [0]⟩ (some (SortedTable.handle
    ⟨[.ofNat 0], #[[.int 5, .int 1], [.int 6, .int 2], [.int 7, .int 0]],
      #[[.int 5], [.int 6], [.int 7]]⟩))

def relation : StoredRelation :=
  ⟨.text "T", [.text "a", .text "b", .text "c"], [], source, [middles], []⟩

theorem relation_declared : ∀ s ∈ relation.sources, s.Declared := by
  have hsource : Schema.declare? (.tag (.source .table))
      (.list [.text "a", .text "b", .text "c"]) (.text "p") (.list [.int 0, .int 2]) =
      .ok schema := rfl
  have hmiddles : Schema.declare? (.tag (.source .table)) (.list [.text "b", .text "p"]) .null
      (.int 1) = .ok ⟨.table, [.text "b", .text "p"], none, [0]⟩ := rfl
  intro s hs
  simp only [StoredRelation.sources, relation, List.mem_cons, List.not_mem_nil, or_false] at hs
  rcases hs with rfl | rfl
  · exact .schema _ hsource
  · exact .schema _ hmiddles

end Triples

/-- Middle items are looked up in their own index. Together with the first items they are an exact
match for neither source, so that the first source is used. -/
theorem StoredRelation.selectSource_optimal_triples :
    (∀ s ∈ Triples.relation.sources, s.Declared) ∧
    Triples.relation.IsBest [.text "b"] Triples.middles (some ⟨[.text "b"], true⟩) ∧
    Triples.relation.IsBest [.text "b", .text "a"] Triples.source (some ⟨[.text "a"], false⟩) := by
  obtain ⟨s, m, hm, hbest, -⟩ :=
    StoredRelation.selectSource_optimal Triples.relation_declared [.text "b"]
  obtain ⟨s', m', hm', hbest', -⟩ :=
    StoredRelation.selectSource_optimal Triples.relation_declared [.text "b", .text "a"]
  obtain rfl : some ⟨[.text "b"], true⟩ = m := hm
  obtain rfl : some ⟨[.text "a"], false⟩ = m' := hm'
  obtain rfl : Triples.middles = s := Option.some.inj (hbest.exact _ rfl).1
  obtain rfl : Triples.source = s' := Option.some.inj (hbest'.longest _ rfl).2.1
  exact ⟨Triples.relation_declared, hbest, hbest'⟩

end JoinOrder
