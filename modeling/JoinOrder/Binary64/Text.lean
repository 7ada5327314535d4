import JoinOrder.Binary64.Shortest

/-! # Written forms of double-precision numbers

`Binary64.text` writes the shortest digits that read back, positionally for moderate sizes and
with an exponent otherwise. `Binary64.scientific` writes a fixed count of places, always with an
exponent. -/

namespace JoinOrder

/-- How a decimal is laid out: where positional writing ends, and the exponent's least width.
The point of `0.123` is `0`, that of `123` is `3`. -/
structure DecimalLayout where
  leastPoint : Int
  greatestPoint : Int
  exponentWidth : Nat

namespace DecimalLayout

/-- Positional from `0.0001` up to, and without, `1e16`; exponents have two digits at least. -/
def standard : DecimalLayout := ⟨-3, 16, 2⟩

def zeros (n : Nat) : String := String.ofList (List.replicate n '0')

/-- The sign and the digits of an exponent. -/
def exponentText (layout : DecimalLayout) (e : Int) : String :=
  let digits := toString e.natAbs
  (if e < 0 then "e-" else "e+") ++ zeros (layout.exponentWidth - digits.length) ++ digits

/-- Digits with a point after the first, if there are more. -/
def leadingPoint (digits : List Char) : String :=
  match digits with
  | [] => ""
  | [c] => String.ofList [c]
  | c :: rest => String.ofList (c :: '.' :: rest)

def write (layout : DecimalLayout) (d : Decimal) : String :=
  let digits := (toString d.digits).toList
  let point : Int := digits.length + d.exponent
  if point < layout.leastPoint ∨ layout.greatestPoint < point then
    leadingPoint digits ++ layout.exponentText (point - 1)
  else if point ≤ 0 then
    "0." ++ zeros (-point).toNat ++ String.ofList digits
  else if (digits.length : Int) ≤ point then
    String.ofList digits ++ zeros (point - digits.length).toNat ++ ".0"
  else
    String.ofList (digits.take point.toNat) ++ "." ++ String.ofList (digits.drop point.toNat)

end DecimalLayout

namespace Binary64

/-- The texts of the values without digits. -/
def specialText : Binary64 → Option String
  | nan => some "nan"
  | infinity true => some "-inf"
  | infinity false => some "inf"
  | _ => none

/-- The shortest text that reads back. -/
def text : Binary64 → String
  | finite (.ofOdd n k _) =>
    (if n < 0 then "-" else "") ++ DecimalLayout.standard.write (shortest n.natAbs k)
  | finite .zero => "0.0"
  | negativeZero => "-0.0"
  | x => x.specialText.getD ""

/-- A text with `count` places after the leading digit, and an exponent. -/
def scientific (count : Nat) : Binary64 → String
  | finite (.ofOdd n k _) =>
    let d := rounded count n.natAbs k
    (if n < 0 then "-" else "") ++ DecimalLayout.leadingPoint (toString d.digits).toList ++
      DecimalLayout.standard.exponentText (d.exponent + count)
  | finite .zero => zeroText ""
  | negativeZero => zeroText "-"
  | x => x.specialText.getD ""
where
  zeroText (sign : String) : String :=
    sign ++ DecimalLayout.leadingPoint (List.replicate (count + 1) '0') ++ "e+00"

end Binary64
end JoinOrder
