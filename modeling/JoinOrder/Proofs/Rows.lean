import JoinOrder.Proofs.Checked
import JoinOrder.Rows

/-!
# What rows yield

Rows yield a list if they come to an end without a fault. The operations on rows act on what is
yielded as the corresponding operations on lists do.
-/

namespace JoinOrder
namespace Rows

variable {α β γ : Type}

/-- The rows end without a fault, and these are all of them. -/
def Yields (rows : Rows α) (xs : List α) : Prop := rows.collect = .ok xs

theorem collectAfter_eq (found : List α) (rows : Rows α) :
    collectAfter found rows = rows.collect.map (found.reverse ++ ·) := by
  suffices h : ∀ more, collectAfter (more ++ found) rows =
      (collectAfter more rows).map (found.reverse ++ ·) from h []
  induction rows with
  | done => simp [collectAfter]
  | broken fault => intro; rfl
  | row x tail ih => exact fun more => ih () (x :: more)

theorem collect_row (x : α) (tail : Unit → Rows α) :
    (row x tail).collect = (tail ()).collect.map (x :: ·) := collectAfter_eq [x] (tail ())

theorem yields_done_iff {xs : List α} : (done : Rows α).Yields xs ↔ xs = [] :=
  ⟨fun h => by cases h; rfl, fun h => h ▸ rfl⟩

theorem not_yields_broken {fault : Fault} {xs : List α} : ¬(broken fault).Yields xs := nofun

theorem yields_row_iff {x : α} {tail : Unit → Rows α} {xs : List α} :
    (row x tail).Yields xs ↔ ∃ ys, (tail ()).Yields ys ∧ xs = x :: ys := by
  unfold Yields
  rw [collect_row, Checked.map_eq_ok]
  exact ⟨fun ⟨ys, h, e⟩ => ⟨ys, h, e.symm⟩, fun ⟨ys, h, e⟩ => ⟨ys, h, e.symm⟩⟩

/-- Rows end in one way only. -/
theorem Yields.unique {rows : Rows α} {xs ys : List α} (h : rows.Yields xs) (h' : rows.Yields ys) :
    xs = ys := Except.ok.inj (h.symm.trans h')

theorem yields_done : (done : Rows α).Yields [] := rfl

theorem yields_ofList (xs : List α) : (ofList xs).Yields xs := by
  induction xs with
  | nil => rfl
  | cons x xs ih => exact yields_row_iff.2 ⟨xs, ih, rfl⟩

theorem yields_single (x : α) : (single x).Yields [x] := rfl

theorem yields_ofChecked_iff {rows : Checked (Rows α)} {xs : List α} :
    (ofChecked rows).Yields xs ↔ ∃ r, rows = .ok r ∧ r.Yields xs := by
  cases rows with
  | ok r => exact ⟨fun h => ⟨r, rfl, h⟩, fun ⟨_, rfl, h⟩ => h⟩
  | error e => exact ⟨fun h => (not_yields_broken h).elim, fun ⟨_, h, _⟩ => nomatch h⟩

theorem Yields.append {rows : Rows α} {more : Unit → Rows α} {xs ys : List α}
    (h : rows.Yields xs) (h' : (more ()).Yields ys) : (rows.append more).Yields (xs ++ ys) := by
  induction rows generalizing xs with
  | done => cases yields_done_iff.1 h; exact h'
  | broken fault => exact (not_yields_broken h).elim
  | row x tail ih =>
    obtain ⟨xs, ht, rfl⟩ := yields_row_iff.1 h
    exact yields_row_iff.2 ⟨xs ++ ys, ih () ht, rfl⟩

theorem Yields.bind {rows : Rows α} {f : α → Rows β} {g : α → List β} {xs : List α}
    (h : rows.Yields xs) (hf : ∀ x ∈ xs, (f x).Yields (g x)) :
    (rows.bind f).Yields (xs.flatMap g) := by
  induction rows generalizing xs with
  | done => cases yields_done_iff.1 h; exact yields_done
  | broken fault => exact (not_yields_broken h).elim
  | row x tail ih =>
    obtain ⟨xs, ht, rfl⟩ := yields_row_iff.1 h
    rw [List.forall_mem_cons] at hf
    exact hf.1.append (ih () ht hf.2)

theorem Yields.filterMap {rows : Rows α} {f : α → Checked (Option β)} {g : α → Option β}
    {xs : List α} (h : rows.Yields xs) (hf : ∀ x ∈ xs, f x = .ok (g x)) :
    (rows.filterMap f).Yields (xs.filterMap g) := by
  induction rows generalizing xs with
  | done => cases yields_done_iff.1 h; exact yields_done
  | broken fault => exact (not_yields_broken h).elim
  | row x tail ih =>
    obtain ⟨xs, ht, rfl⟩ := yields_row_iff.1 h
    rw [List.forall_mem_cons] at hf
    rw [Rows.filterMap, hf.1, List.filterMap_cons]
    cases g x with
    | none => exact ih () ht hf.2
    | some y => exact yields_row_iff.2 ⟨_, ih () ht hf.2, rfl⟩

theorem Yields.map {rows : Rows α} {f : α → Checked β} {g : α → β} {xs : List α}
    (h : rows.Yields xs) (hf : ∀ x ∈ xs, f x = .ok (g x)) :
    (rows.map f).Yields (xs.map g) := by
  have hs : ∀ x ∈ xs, (f x).map some = .ok (some (g x)) := fun x hx => by rw [hf x hx]; rfl
  have := h.filterMap hs
  rwa [show (fun x => some (g x)) = some ∘ g from rfl, List.filterMap_eq_map] at this

theorem Yields.first? {rows : Rows α} {xs : List α} (h : rows.Yields xs) :
    rows.first? = .ok xs.head? := by
  cases rows with
  | done => cases yields_done_iff.1 h; rfl
  | broken fault => exact (not_yields_broken h).elim
  | row x tail => obtain ⟨xs, _, rfl⟩ := yields_row_iff.1 h; rfl

/-! ## Kinds of rows -/

/-- All rows that are produced are of a kind, also those in front of a fault. -/
def Each (P : α → Prop) : Rows α → Prop
  | done => True
  | broken _ => True
  | row x tail => P x ∧ Each P (tail ())

theorem Yields.each {P : α → Prop} {rows : Rows α} {xs : List α} (h : rows.Yields xs)
    (hx : ∀ x ∈ xs, P x) : rows.Each P := by
  induction rows generalizing xs with
  | done => trivial
  | broken fault => trivial
  | row x tail ih =>
    obtain ⟨xs, ht, rfl⟩ := yields_row_iff.1 h
    rw [List.forall_mem_cons] at hx
    exact ⟨hx.1, ih () ht hx.2⟩

theorem Each.mono {P Q : α → Prop} {rows : Rows α} (h : rows.Each P) (hpq : ∀ x, P x → Q x) :
    rows.Each Q := by
  induction rows with
  | done => trivial
  | broken fault => trivial
  | row x tail ih => exact ⟨hpq x h.1, ih () h.2⟩

/-- What is kept of rows of a kind, if the same rows are kept in another form. -/
theorem Each.map_filterMap {P : α → Prop} {f : α → Checked (Option β)}
    {f' : α → Checked (Option γ)} {g : β → γ} {rows : Rows α} (h : rows.Each P)
    (hf : ∀ x, P x → f' x = (f x).map (Option.map g)) :
    rows.filterMap f' = (rows.filterMap f).map fun y => .ok (g y) := by
  induction rows with
  | done => rfl
  | broken fault => rfl
  | row x tail ih =>
    obtain ⟨hx, ht⟩ := h
    rw [filterMap, filterMap, hf x hx]
    cases f x with
    | error fault => rfl
    | ok o =>
      cases o with
      | none => exact ih () ht
      | some y => exact congrArg (row (g y)) (funext fun _ => ih () ht)

theorem each_of_forall {P : α → Prop} (h : ∀ x, P x) (rows : Rows α) : rows.Each P := by
  induction rows with
  | done => trivial
  | broken fault => trivial
  | row x tail ih => exact ⟨h x, ih ()⟩

theorem Each.filterMap {P : α → Prop} {Q : β → Prop} {f : α → Checked (Option β)} {rows : Rows α}
    (h : rows.Each P) (hf : ∀ x, P x → ∀ y, f x = .ok (some y) → Q y) :
    (rows.filterMap f).Each Q := by
  induction rows with
  | done => trivial
  | broken fault => trivial
  | row x tail ih =>
    obtain ⟨hx, ht⟩ := h
    rw [Rows.filterMap]
    split
    · next y hy => exact ⟨hf x hx y hy, ih () ht⟩
    · exact ih () ht
    · trivial

theorem Each.first? {P : α → Prop} {rows : Rows α} {x : α} (h : rows.Each P)
    (hx : rows.first? = .ok (some x)) : P x := by
  cases rows with
  | done => cases hx
  | broken fault => cases hx
  | row y tail =>
    cases hx
    exact h.1

theorem Each.map_congr {P : α → Prop} {f f' : α → Checked β} {rows : Rows α} (h : rows.Each P)
    (hf : ∀ x, P x → f x = f' x) : rows.map f = rows.map f' := by
  induction rows with
  | done => rfl
  | broken fault => rfl
  | row x tail ih =>
    obtain ⟨hx, ht⟩ := h
    rw [map, map, Rows.filterMap, Rows.filterMap, hf x hx]
    cases f' x with
    | error fault => rfl
    | ok y => exact congrArg (row y) (funext fun _ => ih () ht)

/-- Rows that are replaced by themselves. -/
theorem Each.map_eq_self {P : α → Prop} {g : α → α} {rows : Rows α} (h : rows.Each P)
    (hg : ∀ x, P x → g x = x) : rows.map (fun x => .ok (g x)) = rows := by
  induction rows with
  | done => rfl
  | broken fault => rfl
  | row x tail ih =>
    have htail : (fun _ => (tail ()).map fun x => .ok (g x)) = tail := funext fun _ => ih () h.2
    exact congrArg₂ row (hg x h.1) htail

theorem first?_map (g : α → β) (rows : Rows α) :
    (rows.map fun x => .ok (g x)).first? = rows.first?.map (Option.map g) := by
  cases rows <;> rfl

theorem filterMap_map (g : α → β) (f : β → Checked (Option γ)) (rows : Rows α) :
    (rows.map fun x => .ok (g x)).filterMap f = rows.filterMap fun x => f (g x) := by
  induction rows with
  | done => rfl
  | broken fault => rfl
  | row x tail ih =>
    rw [map, filterMap, Checked.map_ok, filterMap, filterMap]
    split
    · exact congrArg (row _) (funext fun _ => ih ())
    · exact ih ()
    · rfl

theorem map_ofChecked {rows : Checked (Rows α)} {f : α → Checked β} :
    (ofChecked rows).map f = ofChecked (rows.map (Rows.map f)) := by
  cases rows <;> rfl

end Rows
end JoinOrder
