import JoinOrder.Binary64.Basic
import JoinOrder.Text.Digit

/-! # Reading double-precision numbers

`Binary64.ofDecimal` rounds a decimal to the nearest number. `Binary64.read?` accepts a decimal
text as people type it: blanks around it, a sign, single underscores between digits, a fraction,
an exponent, and the names of the special values in any case. -/

namespace JoinOrder
namespace Binary64

/-- The number nearest to `digits * 10 ^ exponent`. Decimals beyond four hundred places are out
of range or vanish whatever their digits are, so they are decided by their size alone. -/
def ofDecimal (negative : Bool) (digits : Nat) (exponent : Int) : Binary64 :=
  let size : Int := exponent + (toString digits).length
  if digits = 0 ∨ size < -400 then ofRatio negative 0 1
  else if 400 < size then infinity negative
  else if 0 ≤ exponent then ofRatio negative (digits * tenTo exponent.toNat) 1
  else ofRatio negative digits (tenTo (-exponent).toNat)

/-- The exponent part: absent, or a mark with at least one digit up to the end. -/
def exponentPart : List Char → Option Int
  | [] => some 0
  | c :: rest =>
    if c = 'e' ∨ c = 'E' then
      let (negative, rest) := Text.signed rest
      match Text.digitRun 10 0 0 rest with
      | (value, _ + 1, []) => some (if negative then -(value : Int) else value)
      | _ => none
    else none

/-- A number without its sign. -/
def unsigned? (negative : Bool) (s : List Char) : Option Binary64 :=
  let name := s.map Char.toLower
  if name = "inf".toList ∨ name = "infinity".toList then some (infinity negative)
  else if name = "nan".toList then some nan
  else
    let (whole, wholeCount, rest) := Text.digitRun 10 0 0 s
    let (all, fractionCount, rest) :=
      match rest with
      | '.' :: rest =>
        let (value, count, rest) := Text.digitRun 10 0 0 rest
        (whole * tenTo count + value, count, rest)
      | rest => (whole, 0, rest)
    if wholeCount + fractionCount = 0 then none
    else (exponentPart rest).map fun e => ofDecimal negative all (e - fractionCount)

def read? (s : String) : Option Binary64 :=
  let (negative, rest) := Text.signed (Text.strip s.toList)
  unsigned? negative rest

end Binary64
end JoinOrder
