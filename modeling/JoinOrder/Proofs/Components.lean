import Mathlib.Data.List.Nodup
import Mathlib.Data.List.Pairwise
import Mathlib.Data.List.Perm.Basic
import Mathlib.Logic.Relation
import JoinOrder.Proofs.Checked

/-!
# Connected components

Nodes under a symmetric link relation are divided into nonempty connected classes without links
between them, so that the classes are the connected components.
-/

namespace JoinOrder
namespace Components

variable {linked : Nat → Nat → Bool} {nodes c d : List Nat} {classes classes' : List (List Nat)}
  {x y : Nat}

/-- There is a chain of links between two nodes that stays among some nodes. -/
def Reaches (linked : Nat → Nat → Bool) (nodes : List Nat) : Nat → Nat → Prop :=
  Relation.ReflTransGen fun x y => x ∈ nodes ∧ y ∈ nodes ∧ linked x y = true

/-- Some nodes reach each other without leaving them. -/
def Connected (linked : Nat → Nat → Bool) (nodes : List Nat) : Prop :=
  ∀ x ∈ nodes, ∀ y ∈ nodes, Reaches linked nodes x y

/-- A connected component of some nodes: connected, and without links to the others. -/
structure IsComponent (linked : Nat → Nat → Bool) (nodes c : List Nat) : Prop where
  nonempty : c ≠ []
  subset : ∀ x ∈ c, x ∈ nodes
  connected : Connected linked c
  closed : ∀ x ∈ c, ∀ y ∈ nodes, linked x y = true → y ∈ c

/-- Nonempty connected classes that contain each node once and are not linked. -/
structure Divides (linked : Nat → Nat → Bool) (nodes : List Nat) (classes : List (List Nat)) :
    Prop where
  perm : classes.flatten.Perm nodes
  nonempty : ∀ c ∈ classes, c ≠ []
  connected : ∀ c ∈ classes, Connected linked c
  apart : classes.Pairwise fun c d => ∀ x ∈ c, ∀ y ∈ d, linked x y = false

/-! ## Chains of links -/

theorem Reaches.mono (h : ∀ x ∈ c, x ∈ d) (H : Reaches linked c x y) : Reaches linked d x y :=
  H.lift id fun _ _ ⟨hx, hy, hl⟩ => ⟨h _ hx, h _ hy, hl⟩

theorem Reaches.symm (hs : ∀ x y, linked x y = linked y x) (H : Reaches linked c x y) :
    Reaches linked c y x := by
  have : Std.Symm fun x y => x ∈ c ∧ y ∈ c ∧ linked x y = true :=
    ⟨fun x y ⟨hx, hy, hl⟩ => ⟨hy, hx, hs x y ▸ hl⟩⟩
  exact Relation.ReflTransGen.stdSymm.symm _ _ H

theorem Connected.congr (h : ∀ x, x ∈ c ↔ x ∈ d) (H : Connected linked c) : Connected linked d :=
  fun x hx y hy => (H x ((h x).2 hx) y ((h y).2 hy)).mono fun z hz => (h z).1 hz

/-- Nodes that can all be reached from one of them are connected. -/
theorem Connected.of_reaches (hs : ∀ x y, linked x y = linked y x)
    (h : ∀ y ∈ c, Reaches linked c x y) : Connected linked c :=
  fun y hy z hz => ((h y hy).symm hs).trans (h z hz)

/-! ## Rearranging classes -/

/-- The order within classes does not matter. -/
theorem Divides.congr (h : List.Forall₂ List.Perm classes classes')
    (H : Divides linked nodes classes) : Divides linked nodes classes' where
  perm := (List.Perm.flatten_congr h).symm.trans H.perm
  nonempty := by
    intro d hd
    obtain ⟨c, hc, hp⟩ := exists_of_forall₂ h hd
    exact fun hnil => H.nonempty c hc (List.Perm.eq_nil (hnil ▸ hp))
  connected := by
    intro d hd
    obtain ⟨c, hc, hp⟩ := exists_of_forall₂ h hd
    exact (H.connected c hc).congr fun x => hp.mem_iff
  apart := by
    have ha := H.apart
    clear H
    induction h with
    | nil => exact .nil
    | cons hcd h ih =>
      rw [List.pairwise_cons] at ha ⊢
      refine ⟨fun d hd x hx y hy => ?_, ih ha.2⟩
      obtain ⟨c, hc, hp⟩ := exists_of_forall₂ h hd
      exact ha.1 c hc x (hcd.mem_iff.2 hx) y (hp.mem_iff.2 hy)

/-- Nor does the order of the classes. -/
theorem Divides.of_perm (hs : ∀ x y, linked x y = linked y x) (h : classes.Perm classes')
    (H : Divides linked nodes classes) : Divides linked nodes classes' where
  perm := h.flatten.symm.trans H.perm
  nonempty c hc := H.nonempty c (h.mem_iff.2 hc)
  connected c hc := H.connected c (h.mem_iff.2 hc)
  apart := h.pairwise H.apart fun hcd x hx y hy => hs y x ▸ hcd y hy x hx

theorem Divides.subset (H : Divides linked nodes classes) (hc : c ∈ classes) :
    ∀ x ∈ c, x ∈ nodes :=
  fun _ hx => H.perm.mem_iff.1 (List.mem_flatten.2 ⟨c, hc, hx⟩)

theorem Divides.nodup (H : Divides linked nodes classes) (hn : nodes.Nodup) (hc : c ∈ classes) :
    c.Nodup :=
  (H.perm.nodup_iff.2 hn).sublist (List.sublist_flatten_of_mem hc)

/-- Of classes that divide some nodes, each is a component. -/
theorem Divides.isComponent (hs : ∀ x y, linked x y = linked y x) (H : Divides linked nodes classes)
    (hc : c ∈ classes) : IsComponent linked nodes c where
  nonempty := H.nonempty c hc
  subset := H.subset hc
  connected := H.connected c hc
  closed x hx y hy hl := by
    obtain ⟨d, hd, hyd⟩ := List.mem_flatten.1 (H.perm.mem_iff.2 hy)
    by_cases hcd : c = d
    · exact hcd ▸ hyd
    · have : Std.Symm fun c d : List Nat => ∀ x ∈ c, ∀ y ∈ d, linked x y = false :=
        ⟨fun _ _ h a ha b hb => hs b a ▸ h b hb a ha⟩
      have hn := H.apart.forall hc hd hcd x hx y hyd
      rw [hl] at hn
      cases hn

/-- A chain of links does not leave a component. -/
theorem IsComponent.mem_of_reaches (H : IsComponent linked nodes c) (hx : x ∈ c)
    (h : Reaches linked nodes x y) : y ∈ c := by
  induction h with
  | refl => exact hx
  | tail _ hl ih => exact H.closed _ ih _ hl.2.1 hl.2.2

theorem Reaches.within (H : IsComponent linked nodes c) {y : Nat} (hx : x ∈ c)
    (h : Reaches linked nodes x y) : Reaches linked c x y := by
  induction h with
  | refl => exact .refl
  | tail hxy hl ih =>
    have hy := H.mem_of_reaches hx hxy
    exact ih.tail ⟨hy, H.closed _ hy _ hl.2.1 hl.2.2, hl.2.2⟩

theorem Reaches.mem {y : Nat} (h : Reaches linked nodes x y) (hx : x ∈ nodes) : y ∈ nodes := by
  cases h with
  | refl => exact hx
  | tail _ hl => exact hl.2.1

/-- Components that share a node are the same. -/
theorem IsComponent.mem_iff (H : IsComponent linked nodes c) (H' : IsComponent linked nodes d)
    (hc : x ∈ c) (hd : x ∈ d) (y : Nat) : y ∈ c ↔ y ∈ d :=
  ⟨fun hy => H'.mem_of_reaches hd ((H.connected x hc y hy).mono H.subset),
    fun hy => H.mem_of_reaches hc ((H'.connected x hd y hy).mono H'.subset)⟩

/-- Nodes that are not divided are connected. -/
theorem Divides.connected_of_length (H : Divides linked nodes classes) (hl : classes.length ≤ 1) :
    Connected linked nodes := by
  match classes, H with
  | [], H =>
    cases H.perm.nil_eq
    exact nofun
  | [c], H =>
    refine (H.connected c List.mem_cons_self).congr fun x => ?_
    rw [← H.perm.mem_iff, List.flatten_singleton]

/-- Where there are several classes, none has all nodes. -/
theorem Divides.length_lt (D : Divides linked nodes classes) (h : 2 ≤ classes.length)
    (hc : c ∈ classes) : c.length < nodes.length := by
  obtain ⟨before, behind, rfl⟩ := List.append_of_mem hc
  have hother : ∃ d ∈ before ++ behind, d ≠ [] := by
    have hlen : (before ++ behind).length ≠ 0 := by
      simp only [List.length_append, List.length_cons] at h ⊢
      omega
    obtain ⟨d, hd⟩ :=
      List.exists_mem_of_ne_nil _ (List.ne_nil_of_length_pos (Nat.pos_of_ne_zero hlen))
    exact ⟨d, hd, D.nonempty d (by simp at hd ⊢; tauto)⟩
  obtain ⟨d, hd, hne⟩ := hother
  have hpos : 0 < (before ++ behind).flatten.length :=
    Nat.lt_of_lt_of_le (List.length_pos_of_ne_nil hne) (List.sublist_flatten_of_mem hd).length_le
  have hlen := D.perm.length_eq
  simp only [List.flatten_append, List.flatten_cons, List.length_append] at hlen hpos
  omega

/-- Connected nodes are not divided. -/
theorem Divides.length_le_one (hs : ∀ x y, linked x y = linked y x)
    (H : Divides linked nodes classes) (hn : nodes.Nodup) (hc : Connected linked nodes) :
    classes.length ≤ 1 := by
  match classes, H with
  | [], _ | [_], _ => simp
  | c :: d :: rest, H =>
    obtain ⟨x, hx⟩ := List.exists_mem_of_ne_nil c (H.nonempty c List.mem_cons_self)
    obtain ⟨y, hy⟩ := List.exists_mem_of_ne_nil d
      (H.nonempty d (List.mem_cons_of_mem _ List.mem_cons_self))
    have hcomp := H.isComponent hs List.mem_cons_self
    have hmem : ∀ z, z ∈ (c :: d :: rest).flatten → z ∈ nodes := fun z hz => H.perm.mem_iff.1 hz
    have hyc : y ∈ c := hcomp.mem_of_reaches hx (hc x (hcomp.subset x hx) y (hmem y (by simp [hy])))
    have hdis := (List.nodup_flatten.1 (H.perm.nodup_iff.2 hn)).2
    exact ((List.pairwise_cons.1 hdis).1 d List.mem_cons_self hyc hy).elim

/-! ## Classes in order -/

/-- Classes in increasing order that are listed by their least nodes. -/
structure Ordered (classes : List (List Nat)) : Prop where
  increasing : ∀ c ∈ classes, c.Pairwise (· < ·)
  leading : classes.Pairwise fun c d => ∃ x ∈ c, ∀ y ∈ d, x < y

end Components
end JoinOrder
