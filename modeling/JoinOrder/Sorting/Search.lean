import JoinOrder.Fault

/-! # Searching

Both searches find the point where a property of positions ends, with a test that may fail and
stops the search then. `bisect` halves the range of positions, `gallop` first widens it from a
position that is likely to be near. -/

namespace JoinOrder

/-- Halves the range from `lo` to `hi` until it is empty. -/
def bisectWithin (before : Nat → Checked Bool) : (fuel lo hi : Nat) → Checked Nat
  | 0, lo, _ => .ok lo
  | fuel + 1, lo, hi =>
    if lo < hi then do
      let mid := (lo + hi) / 2
      if ← before mid then bisectWithin before fuel (mid + 1) hi
      else bisectWithin before fuel lo mid
    else .ok lo

/-- The first position from `lo` to `hi` where `before` does not hold, provided that it holds up
to some position and nowhere after it. -/
def bisect (before : Nat → Checked Bool) (lo hi : Nat) : Checked Nat :=
  bisectWithin before (hi - lo) lo hi

/-- Roughly doubles a distance as long as `holds` does at it, up to `most`. Returns the last
distance where it held, and one where it does not or which is the greatest. -/
def widen (holds : Nat → Checked Bool) (most : Nat) : (fuel last next : Nat) → Checked (Nat × Nat)
  | 0, last, _ => .ok (last, most)
  | fuel + 1, last, next =>
    if next < most then do
      if ← holds next then widen holds most fuel next (2 * next + 1) else return (last, next)
    else .ok (last, most)

/-- The first of `length` positions where `before` does not hold, or `length`, searched from the
position `hint` in growing distances. -/
def gallop (before : Nat → Checked Bool) (length hint : Nat) : Checked Nat := do
  if ← before hint then
    let most := length - hint
    let (last, next) ← widen (fun d => before (hint + d)) most most 0 1
    bisect before (hint + last + 1) (hint + next)
  else
    let most := hint + 1
    let (last, next) ← widen (fun d => (before (hint - d)).map (!·)) most most 0 1
    bisect before (hint + 1 - next) (hint - last)

end JoinOrder
