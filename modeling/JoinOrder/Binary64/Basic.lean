/-! # Double-precision numbers

A number is a dyadic rational kept to 53 significant binary digits, the lowest of them no
finer than `2 ^ (-1074)`, together with the two infinities, a negative zero and the undefined
value. Sums and products are formed exactly on `Dyadic` and rounded once, to the nearest
number, a half going to the even neighbour (`Binary64.round`). -/

namespace JoinOrder

/-- A power of ten. -/
def tenTo (n : Nat) : Nat := Nat.pow 10 n

/-- A double-precision number. A `finite` value produced by `Binary64.round` is representable. -/
inductive Binary64
  | nan
  | infinity (negative : Bool)
  | negativeZero
  | finite (x : Dyadic)
deriving DecidableEq

namespace Binary64

instance : Inhabited Binary64 := ⟨.finite 0⟩

/-! ## Rounding -/

/-- The position of the leading binary digit of `n * 2 ^ (-k)`. -/
def leadingExponent (n k : Int) : Int := n.natAbs.log2 - k

/-- How many binary places a number with this leading exponent keeps. -/
def places (exponent : Int) : Int := min (52 - exponent) 1074

/-- `n / 2 ^ drop` to the nearest integer, a half going to the even neighbour. -/
def shiftNearest (n : Int) (drop : Nat) : Int :=
  let q := n >>> drop
  let twice := 2 * (n - q <<< drop)
  let unit : Int := 1 <<< drop
  if twice < unit then q
  else if unit < twice then q + 1
  else if q % 2 = 0 then q else q + 1

/-- The nearest multiple of the last place that the size of `x` leaves. -/
def roundFinite : Dyadic → Dyadic
  | .zero => .zero
  | x@(.ofOdd n k _) =>
    let p := places (leadingExponent n k)
    if k ≤ p then x else .ofIntWithPrec (shiftNearest n (k - p).toNat) p

/-- Magnitudes from `2 ^ 1024` on are out of range. -/
def overflows : Dyadic → Bool
  | .zero => false
  | .ofOdd n k _ => decide (1024 ≤ leadingExponent n k)

def isNegativeDyadic : Dyadic → Bool
  | .zero => false
  | .ofOdd n _ _ => decide (n < 0)

/-- The number nearest to `x`; `negative` is the sign of a result that vanishes. -/
def round (negative : Bool) (x : Dyadic) : Binary64 :=
  let y := roundFinite x
  if y = .zero then
    if negative then .negativeZero else .finite .zero
  else if overflows y then .infinity (isNegativeDyadic y)
  else .finite y

/-- The number nearest to an integer, an infinity when the integer is out of range. -/
def ofInt (n : Int) : Binary64 := round false (Dyadic.ofInt n)

/-- The number nearest to an integer, if there is a finite one. -/
def ofInt? (n : Int) : Option Binary64 :=
  match ofInt n with
  | .infinity _ => none
  | x => some x

instance (n : Nat) : OfNat Binary64 n := ⟨ofInt n⟩

/-- The number nearest to the positive fraction `num / den`, given without its sign. -/
def ofRatio (negative : Bool) (num den : Nat) : Binary64 :=
  if num = 0 then
    if negative then .negativeZero else .finite .zero
  else
    let guess : Int := num.log2 - den.log2
    let below : Bool :=
      if 0 ≤ guess then num < den <<< guess.toNat else num <<< (-guess).toNat < den
    let p := places (if below then guess - 1 else guess)
    let scaled := if 0 ≤ p then num <<< p.toNat else num
    let unit := if 0 ≤ p then den else den <<< (-p).toNat
    let q := scaled / unit
    let twice := 2 * (scaled % unit)
    let m := if twice < unit then q else if unit < twice then q + 1 else q + q % 2
    let signed : Int := if negative then -(m : Int) else m
    round negative (.ofIntWithPrec signed p)

/-! ## Arithmetic -/

def isNaN : Binary64 → Bool
  | nan => true
  | _ => false

def isInfinite : Binary64 → Bool
  | infinity _ => true
  | _ => false

def isFinite : Binary64 → Bool
  | negativeZero | finite _ => true
  | _ => false

/-- Whether the sign is negative, also of a zero. -/
def isNegative : Binary64 → Bool
  | nan => false
  | infinity negative => negative
  | negativeZero => true
  | finite x => isNegativeDyadic x

/-- The rational value of a finite number, zero otherwise. -/
def value : Binary64 → Dyadic
  | finite x => x
  | _ => .zero

def isZero (x : Binary64) : Bool := x.isFinite && x.value = .zero

protected def add : Binary64 → Binary64 → Binary64
  | nan, _ | _, nan => nan
  | infinity a, infinity b => if a = b then infinity a else nan
  | infinity a, _ => infinity a
  | _, infinity b => infinity b
  | negativeZero, negativeZero => negativeZero
  | x, y => round false (x.value + y.value)

protected def mul (x y : Binary64) : Binary64 :=
  if x.isNaN || y.isNaN then nan
  else if x.isInfinite || y.isInfinite then
    if x.isZero || y.isZero then nan else infinity (x.isNegative != y.isNegative)
  else round (x.isNegative != y.isNegative) (x.value * y.value)

instance : Add Binary64 := ⟨Binary64.add⟩
instance : Mul Binary64 := ⟨Binary64.mul⟩

/-- The quotient of a positive by a positive finite number; other quotients are undefined here. -/
def divPositive (x y : Binary64) : Binary64 :=
  match x, y with
  | finite (.ofOdd n k _), finite (.ofOdd m l _) =>
    let shift := l - k
    if 0 ≤ shift then ofRatio false (n.natAbs <<< shift.toNat) m.natAbs
    else ofRatio false n.natAbs (m.natAbs <<< (-shift).toNat)
  | _, _ => nan

/-! ## Order

The undefined value compares with nothing, and the two zeros are equal. -/

protected def lt : Binary64 → Binary64 → Bool
  | nan, _ | _, nan => false
  | infinity a, infinity b => a && !b
  | infinity a, _ => a
  | _, infinity b => !b
  | x, y => decide (x.value < y.value)

protected def eq : Binary64 → Binary64 → Bool
  | nan, _ | _, nan => false
  | infinity a, infinity b => a == b
  | infinity _, _ | _, infinity _ => false
  | x, y => decide (x.value = y.value)

protected def le (x y : Binary64) : Bool := x.lt y || x.eq y

/-! ## Whole numbers -/

/-- The greatest integer not above a dyadic number. -/
def floorDyadic : Dyadic → Int
  | .zero => 0
  | .ofOdd n k _ => if 0 ≤ k then n >>> k.toNat else n <<< (-k).toNat

/-- The least integer not below a finite number. -/
def ceil (x : Binary64) : Int := -floorDyadic (-x.value)

/-- The integer that a finite whole number is. -/
def toInt? : Binary64 → Option Int
  | negativeZero => some 0
  | finite x => if Dyadic.ofInt (floorDyadic x) = x then some (floorDyadic x) else none
  | _ => none

/-! ## Binary logarithm -/

/-- The first `bits` binary places of the logarithm of `y / 2 ^ width`, a number between one
and two: squaring doubles the logarithm, and a square from two on carries a digit. -/
def logBits (width : Nat) : (bits : Nat) → (y : Nat) → (found : Nat) → Nat
  | 0, _, found => found
  | bits + 1, y, found =>
    let square := (y * y) >>> width
    if square < 2 <<< width then logBits width bits square (2 * found)
    else logBits width bits (square >>> 1) (2 * found + 1)

/-- The binary logarithm of a number above zero, rounded from 192 binary places. -/
def log2 : Binary64 → Binary64
  | finite (.ofOdd n k _) =>
    if n < 0 then nan
    else
      let top := n.natAbs.log2
      let y := (n.natAbs <<< 256) >>> top
      let fraction := logBits 256 192 y 0
      round false (.ofIntWithPrec (((top - k : Int) <<< (192 : Nat)) + fraction) 192)
  | infinity false => infinity false
  | _ => nan

end Binary64
end JoinOrder
