import JoinOrder.Sorting.Merge

/-! # Sorting

`sort` is a stable sort whose comparison may fail, which ends it. It splits the list into ordered
runs, short ones being filled up by inserting further items, and merges neighbouring runs. Which
items are compared, and in which order, only shows where the comparison is no order, as it is
with undefined numbers. -/

namespace JoinOrder
namespace Sorting

variable {α : Type} (lt : α → α → Checked Bool)

/-! ## Runs -/

/-- Splits off the items that continue an ascending run after `last`. -/
def ascending (last : α) : List α → Checked (List α × List α)
  | [] => .ok ([], [])
  | x :: xs => do
    if ← lt x last then return ([], x :: xs)
    let (run, rest) ← ascending x xs
    return (x :: run, rest)

/-- Splits off the items that continue a strictly descending run after `last`. -/
def descending (last : α) : List α → Checked (List α × List α)
  | [] => .ok ([], [])
  | x :: xs => do
    if ← lt x last then
      let (run, rest) ← descending x xs
      return (x :: run, rest)
    return ([], x :: xs)

/-- The run a list begins with, in ascending order, and the rest. -/
def leadingRun : List α → Checked (List α × List α)
  | x :: y :: rest => do
    if ← lt y x then
      let (run, rest) ← descending lt y rest
      return ((x :: y :: run).reverse, rest)
    let (run, rest) ← ascending lt y rest
    return (x :: y :: run, rest)
  | xs => .ok (xs, [])

/-- Inserts an item behind all items that it is not smaller than. -/
def insert (sorted : List α) (x : α) : Checked (List α) := do
  let before (i : Nat) : Checked Bool :=
    match sorted[i]? with
    | some y => (lt x y).map (!·)
    | none => .ok false
  let i ← bisect before 0 sorted.length
  return sorted.take i ++ x :: sorted.drop i

/-- The run a list begins with, filled up to `least` items by insertion, and the rest. -/
def filledRun (least : Nat) (xs : List α) : Checked (List α × List α) := do
  let (run, rest) ← leadingRun lt xs
  let missing := least - run.length
  return (← (rest.take missing).foldlM (insert lt) run, rest.drop missing)

/-- The least length of a run: short lists are a single run, and long ones split into a number of
runs that is a power of two or a little less. -/
def runLength : (fuel : Nat) → (length odd : Nat) → Nat
  | 0, length, odd => length + odd
  | fuel + 1, length, odd =>
    if length < 64 then length + odd else runLength fuel (length / 2) (max odd (length % 2))

/-! ## The order of the merges -/

/-- A run that waits for the one behind it to grow. `power` belongs to the boundary behind it. -/
structure Pending (α : Type) where
  items : List α
  power : Nat

/-- The depth at which a boundary between runs belongs in a balanced tree of merges: the first
binary place where the middles `a` and `b` of its two runs, as fractions of `length`, differ. Both
are doubled, so that they are whole. -/
def boundaryPower (length : Nat) : (fuel a b : Nat) → Nat
  | 0, _, _ => 0
  | fuel + 1, a, b =>
    if length ≤ a then 1 + boundaryPower length fuel (2 * (a - length)) (2 * (b - length))
    else if length ≤ b then 1
    else 1 + boundaryPower length fuel (2 * a) (2 * b)

/-- Merges the last run with those before it whose boundaries lie deeper than `power`. -/
def settle (power : Nat) : (patience : Nat) → (last : List α) → List (Pending α) →
    Checked (Nat × List α × List (Pending α))
  | patience, last, [] => .ok (patience, last, [])
  | patience, last, p :: rest =>
    if power < p.power then do
      let (patience, merged) ← mergeRuns lt patience p.items last
      settle power patience merged rest
    else .ok (patience, last, p :: rest)

/-- Merges all runs, from the last one on. A short run in the middle is first merged with the
shorter one of its neighbours. -/
def finish : (fuel patience : Nat) → (last : List α) → List (Pending α) → Checked (List α)
  | 0, _, last, pending => .ok (pending.foldl (fun xs p => p.items ++ xs) last)
  | _ + 1, _, last, [] => .ok last
  | fuel + 1, patience, last, p :: q :: rest => do
    if q.items.length < last.length then
      let (patience, merged) ← mergeRuns lt patience q.items p.items
      finish fuel patience last ({ q with items := merged } :: rest)
    else
      let (patience, merged) ← mergeRuns lt patience p.items last
      finish fuel patience merged (q :: rest)
  | fuel + 1, patience, last, [p] => do
    let (patience, merged) ← mergeRuns lt patience p.items last
    finish fuel patience merged []

/-- Splits further runs off `rest` and merges those before them as far as the boundaries allow.
The run `last` begins at the position `start` of a list of `total` items. -/
def gather (least total : Nat) : (fuel patience start : Nat) → (last : List α) →
    List (Pending α) → (rest : List α) → Checked (List α)
  | fuel + 1, patience, start, last, pending, x :: rest => do
    let (run, rest) ← filledRun lt least (x :: rest)
    let middle := 2 * start + last.length
    let power := boundaryPower total total middle (middle + last.length + run.length)
    let (patience, merged, pending) ← settle lt power patience last pending
    gather least total fuel patience (start + last.length) run (⟨merged, power⟩ :: pending) rest
  | fuel, patience, _, last, pending, rest =>
    finish lt (pending.length + fuel) patience (last ++ rest) pending

/-- The items in ascending order; items of which none is smaller keep their order. -/
def sort (xs : List α) : Checked (List α) := do
  let length := xs.length
  let least := runLength length length 0
  let (run, rest) ← filledRun lt least xs
  gather lt least length length Merge.worthwhile 0 run [] rest

/-! ## Least items -/

/-- The first item that no later one is smaller than. -/
def least : (best : α) → List α → Checked α
  | best, [] => .ok best
  | best, x :: xs => do if ← lt x best then least x xs else least best xs

/-- Whether each item is smaller than the next one. Items after the first that is not are not
looked at. -/
def isIncreasing : List α → Checked Bool
  | x :: y :: rest => do if ← lt x y then isIncreasing (y :: rest) else return false
  | _ => .ok true

end Sorting

/-- A comparison that never fails, as one that may. -/
def total {α : Type} (lt : α → α → Bool) (a b : α) : Checked Bool := .ok (lt a b)

end JoinOrder
