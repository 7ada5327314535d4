import JoinOrder.Sorting.Search

/-! # Merging ordered runs

`mergeRuns` merges two ordered runs that stand one behind the other. Equal items keep their
order: an item of the right run only comes before those of the left run that it is smaller than.
The merge begins at the heads of the runs if the left one is not the longer, and at their ends
otherwise. It goes item by item until one run wins often in a row; then the number of further
wins is searched for at once, as long as that pays off. -/

namespace JoinOrder
namespace Sorting

variable {α : Type}

/-- A merge in progress. `left` and `right` hold what is left of the runs, and `taken` what has
been taken, the last item first. A merge that is `backward` has all three the other way round. -/
structure Merge (α : Type) where
  backward : Bool
  taken : List α
  left : List α
  right : List α

namespace Merge

variable (lt : α → α → Checked Bool)

/-- Items are taken until the longer run is used up or one item of the shorter run is left. -/
def isOver (m : Merge α) : Bool :=
  if m.backward then m.left.isEmpty || m.right.length ≤ 1
  else m.right.isEmpty || m.left.length ≤ 1

/-- All items in their order, where what is left of the longer run is taken first. -/
def items (m : Merge α) : List α :=
  if m.backward then m.right.reverse ++ m.left.reverse ++ m.taken
  else m.taken.reverse ++ m.right ++ m.left

def takeLeft (m : Merge α) (n : Nat) : Merge α :=
  { m with taken := (m.left.take n).reverse ++ m.taken, left := m.left.drop n }

def takeRight (m : Merge α) (n : Nat) : Merge α :=
  { m with taken := (m.right.take n).reverse ++ m.taken, right := m.right.drop n }

/-- Whether the right item `y` is to be taken before the left item `x`. -/
def prefersRight (m : Merge α) (x y : α) : Checked Bool :=
  if m.backward then (lt y x).map (!·) else lt y x

/-- How many of some items, taken from the first one on, a merge goes through, where `low` holds
for the items that come first in the order. -/
def span (m : Merge α) (low : α → Checked Bool) (xs : List α) : Checked Nat :=
  let at? (i : Nat) : Checked Bool :=
    match xs[i]? with
    | some x => low x
    | none => .ok false
  if m.backward then do
    let kept ← gallop (fun i => at? (xs.length - 1 - i)) xs.length (xs.length - 1)
    return xs.length - kept
  else gallop at? xs.length 0

/-- How many left items come before the right item `y`. -/
def leftSpan (m : Merge α) (y : α) : Checked Nat :=
  m.span (fun x => (lt y x).map (!·)) m.left

/-- How many right items come before the left item `x`. -/
def rightSpan (m : Merge α) (x : α) : Checked Nat := m.span (lt · x) m.right

/-- A run is worth searching as long as this many wins are found. -/
def worthwhile : Nat := 7

mutual

/-- Takes item by item until a run has won `patience` times in a row. Returns the patience for
the next merge as well. -/
def alternate : (fuel patience leftWins rightWins : Nat) → Merge α → Checked (Nat × Merge α)
  | 0, patience, _, _, m => .ok (patience, m)
  | fuel + 1, patience, leftWins, rightWins, m =>
    if m.isOver then .ok (patience, m)
    else if patience ≤ leftWins ∨ patience ≤ rightWins then search fuel patience m
    else
      match m.left, m.right with
      | x :: _, y :: _ => do
        if ← m.prefersRight lt x y then
          alternate fuel patience 0 (rightWins + 1) (m.takeRight 1)
        else alternate fuel patience (leftWins + 1) 0 (m.takeLeft 1)
      | _, _ => .ok (patience, m)

/-- Searches for the wins of both runs in turn. Long wins make the merge less patient, short ones
more patient. -/
def search : (fuel patience : Nat) → Merge α → Checked (Nat × Merge α)
  | fuel + 1, patience, m@{ right := y :: _, .. } => do
    let leftWins ← m.leftSpan lt y
    let m := m.takeLeft leftWins
    if m.isOver then return (patience, m)
    let m := m.takeRight 1
    match m.left with
    | [] => return (patience, m)
    | x :: _ =>
      if m.isOver then return (patience, m)
      let rightWins ← m.rightSpan lt x
      let m := m.takeRight rightWins
      if m.isOver then return (patience, m)
      let m := m.takeLeft 1
      if m.isOver then return (patience, m)
      if worthwhile ≤ leftWins ∨ worthwhile ≤ rightWins then search fuel (max 1 (patience - 1)) m
      else alternate fuel (patience + 1) 0 0 m
  | _, patience, m => .ok (patience, m)

end

/-- Runs a merge to its end. Each round but the change to a search takes an item. -/
def run (patience : Nat) (m : Merge α) : Checked (Nat × List α) := do
  let fuel := 2 * (m.left.length + m.right.length) + 2
  let (patience, m) ← alternate lt fuel patience 0 0 m
  return (patience, m.items)

end Merge

/-- Merges two runs. The items of the left run that come before all of the right one, and those of
the right run that come after all of the left one, stay where they are. -/
def mergeRuns (lt : α → α → Checked Bool) (patience : Nat) (left right : List α) :
    Checked (Nat × List α) := do
  match right with
  | [] => return (patience, left)
  | y :: _ =>
    let unchanged : Merge α := ⟨false, [], left, right⟩
    let settled ← unchanged.leftSpan lt y
    let before := left.take settled
    let left := left.drop settled
    match left.getLast? with
    | none => return (patience, before ++ right)
    | some x =>
      let at? (i : Nat) : Checked Bool :=
        match right[i]? with
        | some z => lt z x
        | none => .ok false
      let mixed ← gallop at? right.length (right.length - 1)
      if mixed = 0 then return (patience, before ++ left ++ right)
      let after := right.drop mixed
      let right := right.take mixed
      let start : Merge α :=
        if left.length ≤ right.length then (Merge.mk false [] left right).takeRight 1
        else (Merge.mk true [] left.reverse right.reverse).takeLeft 1
      let (patience, items) ← start.run lt patience
      return (patience, before ++ items ++ after)

end Sorting
end JoinOrder
