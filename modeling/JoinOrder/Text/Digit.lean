/-! # Decimal digits

How people type numbers: in the digits of any script, with blanks around them and underscores
between them. `digitZeros` lists the scripts that have decimal digits of their own (Unicode 14) by
their zeros; the code points of the ten digits are consecutive. -/

namespace JoinOrder
namespace Text

def digitZeros : List Nat := [
  48, 1632, 1776, 1984, 2406, 2534, 2662, 2790, 2918, 3046, 3174, 3302, 3430, 3558, 3664, 3792,
  3872, 4160, 4240, 6112, 6160, 6470, 6608, 6784, 6800, 6992, 7088, 7232, 7248, 42528, 43216,
  43264, 43472, 43504, 43600, 44016, 65296, 66720, 68912, 69734, 69872, 69942, 70096, 70384,
  70736, 70864, 71248, 71360, 71472, 71904, 72016, 72784, 73040, 73120, 92768, 92864, 93008,
  120782, 120792, 120802, 120812, 120822, 123200, 123632, 125264, 130032]

/-- The value of a decimal digit of any script. -/
def digit? (c : Char) : Option Nat :=
  let n := c.toNat
  (digitZeros.find? fun start => start ≤ n && n < start + 10).map (n - ·)

/-- The characters that count as blank around a number. -/
def isBlank (c : Char) : Bool :=
  let n := c.toNat
  (9 ≤ n && n ≤ 13) || n = 32 || n = 0x85 || n = 0xA0 || n = 0x1680 ||
    (0x2000 ≤ n && n ≤ 0x200A) || n = 0x2028 || n = 0x2029 || n = 0x202F || n = 0x205F ||
    n = 0x3000

def strip (s : List Char) : List Char :=
  ((s.dropWhile isBlank).reverse.dropWhile isBlank).reverse

/-- The value of a digit below a base up to sixteen; from ten on the digits are ASCII letters. -/
def digitBelow? (base : Nat) (c : Char) : Option Nat :=
  let value := match digit? c with
    | some d => some d
    | none =>
      if 'a' ≤ c ∧ c ≤ 'f' then some (c.toNat - 'a'.toNat + 10)
      else if 'A' ≤ c ∧ c ≤ 'F' then some (c.toNat - 'A'.toNat + 10)
      else none
  value.filter (· < base)

/-- The digits a text begins with, most significant first; an underscore may stand between two
digits. Returns their value, their count and the rest. -/
def digitRun (base value count : Nat) : List Char → Nat × Nat × List Char
  | [] => (value, count, [])
  | '_' :: c :: rest =>
    match count, digitBelow? base c with
    | 0, _ | _, none => (value, count, '_' :: c :: rest)
    | _, some d => digitRun base (base * value + d) (count + 1) rest
  | c :: rest =>
    match digitBelow? base c with
    | some d => digitRun base (base * value + d) (count + 1) rest
    | none => (value, count, c :: rest)

/-- Digits up to the end, of which there is at least one. -/
def wholeRun (base : Nat) (s : List Char) : Option Nat :=
  match digitRun base 0 0 s with
  | (n, _ + 1, []) => some n
  | _ => none

/-- A leading sign, true for minus. -/
def signed : List Char → Bool × List Char
  | '-' :: rest => (true, rest)
  | '+' :: rest => (false, rest)
  | s => (false, s)

/-- An integer with blanks around it, a sign, and single underscores between its digits. -/
def readInteger (s : String) : Option Int :=
  let (negative, rest) := signed (strip s.toList)
  (wholeRun 10 rest).map fun n => if negative then -(n : Int) else n

/-- A hexadecimal number after the mark `0x`, which an underscore may follow as well. Blanks may
stand behind it. -/
def readHexadecimal (s : String) : Option Nat :=
  match strip s.toList with
  | '0' :: 'x' :: '_' :: rest | '0' :: 'x' :: rest => wholeRun 16 rest
  | _ => none

end Text
end JoinOrder
