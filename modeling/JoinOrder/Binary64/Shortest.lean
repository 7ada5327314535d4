import JoinOrder.Binary64.Basic

/-! # Decimal digits of double-precision numbers

Two ways to choose digits for a positive number. `shortest` takes the fewest digits that still
read back: the reals that round to `x` form an interval, and the first decimal grid with a
point in that interval supplies the digits. `rounded` takes a fixed count of digits of the
exact value. All comparisons are between fractions of natural numbers. -/

namespace JoinOrder

/-- The number `digits * 10 ^ exponent`. -/
structure Decimal where
  digits : Nat
  exponent : Int
deriving DecidableEq, Repr

namespace Decimal

/-- Without trailing zeros, by at most `count` removals. -/
def trim : (count : Nat) → Decimal → Decimal
  | 0, d => d
  | count + 1, d =>
    if d.digits ≠ 0 ∧ d.digits % 10 = 0 then trim count ⟨d.digits / 10, d.exponent + 1⟩ else d

end Decimal

/-- A fraction of natural numbers, used where only comparisons matter. -/
structure Fraction where
  num : Nat
  den : Nat

namespace Fraction

def lt (a b : Fraction) : Bool := a.num * b.den < b.num * a.den
def le (a b : Fraction) : Bool := a.num * b.den ≤ b.num * a.den

/-- `m * 2 ^ (-p)`. -/
def ofBinary (m : Nat) (p : Int) : Fraction :=
  if 0 ≤ p then ⟨m, 1 <<< p.toNat⟩ else ⟨m <<< (-p).toNat, 1⟩

/-- `d * 10 ^ e`. -/
def ofDecimal (d : Nat) (e : Int) : Fraction :=
  if 0 ≤ e then ⟨d * tenTo e.toNat, 1⟩ else ⟨d, tenTo (-e).toNat⟩

/-- The fraction in units of `10 ^ e`. -/
def inUnits (a : Fraction) (e : Int) : Fraction :=
  if 0 ≤ e then ⟨a.num, a.den * tenTo e.toNat⟩ else ⟨a.num * tenTo (-e).toNat, a.den⟩

/-- Climbs from a lower bound to the `s` with `10 ^ s ≤ a < 10 ^ (s + 1)`. -/
def climbDecade (a : Fraction) : (count : Nat) → Int → Int
  | 0, s => s
  | count + 1, s => if (ofDecimal 1 (s + 1)).le a then climbDecade a count (s + 1) else s

/-- The exponent of the leading decimal digit of a positive fraction whose leading binary
exponent is `exponent`. The slope is a little below the logarithm of two for positive exponents
and the start is two decades lower, so that the climb passes the answer. -/
def decade (a : Fraction) (exponent : Int) : Int :=
  climbDecade a 5 (Int.fdiv (exponent * 30103) 100000 - 2)

end Fraction

namespace Binary64

/-- The reals that round to a positive number: its ends, and whether they belong to it. -/
structure Interval where
  low : Fraction
  high : Fraction
  closed : Bool

namespace Interval

def contains (i : Interval) (a : Fraction) : Bool :=
  if i.closed then i.low.le a && a.le i.high else i.low.lt a && a.lt i.high

/-- Half a unit in the last place on both sides of `n * 2 ^ (-k)`; below a power of two the
units are half as wide. Even numbers own their ends. -/
def around (n : Nat) (k : Int) : Interval :=
  let p := places (leadingExponent n k)
  let m := if 0 ≤ p - k then n <<< (p - k).toNat else n >>> (k - p).toNat
  let narrow := m = 1 <<< 52 && p < 1074
  { low := Fraction.ofBinary (if narrow then 4 * m - 1 else 4 * m - 2) (p + 2)
    high := Fraction.ofBinary (4 * m + 2) (p + 2)
    closed := m % 2 = 0 }

end Interval

/-- The point next to `x` on the grid of multiples of `10 ^ e` that lies in the interval. Of two
such points the nearer is taken, of two equally near the one with the even digit. -/
def nearestOnGrid (i : Interval) (x : Fraction) (e : Int) : Option Decimal :=
  let scaled := x.inUnits e
  let below := scaled.num / scaled.den
  let rest := 2 * (scaled.num % scaled.den)
  match i.contains (.ofDecimal below e), i.contains (.ofDecimal (below + 1) e) with
  | true, true =>
    some <| if rest < scaled.den ∨ (rest = scaled.den ∧ below % 2 = 0)
      then ⟨below, e⟩ else ⟨below + 1, e⟩
  | true, false => some ⟨below, e⟩
  | false, true => some ⟨below + 1, e⟩
  | false, false => none

/-- The first grid with a point in the interval, among the next `count` finer ones. -/
def firstGrid (i : Interval) (x : Fraction) : (count : Nat) → (e : Int) → Decimal
  | 0, _ => ⟨0, 0⟩
  | count + 1, e =>
    match nearestOnGrid i x e with
    | some d => d
    | none => firstGrid i x count (e - 1)

/-- The shortest decimal that reads back as `n * 2 ^ (-k)`; seventeen digits always suffice. -/
def shortest (n : Nat) (k : Int) : Decimal :=
  let x := Fraction.ofBinary n k
  (firstGrid (.around n k) x 17 (x.decade (leadingExponent n k))).trim 20

/-- `n * 2 ^ (-k)` to `places + 1` significant digits, a half going to the even digit. -/
def rounded (places : Nat) (n : Nat) (k : Int) : Decimal :=
  let x := Fraction.ofBinary n k
  let e := x.decade (leadingExponent n k) - places
  let scaled := x.inUnits e
  let below := scaled.num / scaled.den
  let rest := 2 * (scaled.num % scaled.den)
  let digits :=
    if rest < scaled.den then below else if scaled.den < rest then below + 1 else below + below % 2
  if digits = tenTo (places + 1) then ⟨tenTo places, e + 1⟩ else ⟨digits, e⟩

end Binary64
end JoinOrder
