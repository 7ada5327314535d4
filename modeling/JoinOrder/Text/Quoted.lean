import JoinOrder.Text.Printable

/-! # Quoted texts

A text in messages stands in single quotes, or in double quotes if it holds single ones only.
The quote in use, the backslash and everything without a visible form are escaped. -/

namespace JoinOrder
namespace Text

def hexDigit (n : Nat) : Char :=
  if n < 10 then Char.ofNat ('0'.toNat + n) else Char.ofNat ('a'.toNat + n - 10)

/-- The last `width` hexadecimal digits of `n`. -/
def hex : (width : Nat) → (n : Nat) → List Char
  | 0, _ => []
  | width + 1, n => hex width (n / 16) ++ [hexDigit (n % 16)]

/-- The escaped form of a character between quotes. -/
def escape (quote c : Char) : List Char :=
  if c = quote ∨ c = '\\' then ['\\', c]
  else if c = '\n' then ['\\', 'n']
  else if c = '\r' then ['\\', 'r']
  else if c = '\t' then ['\\', 't']
  else if isPrintable c then [c]
  else if c.toNat < 0x100 then '\\' :: 'x' :: hex 2 c.toNat
  else if c.toNat < 0x10000 then '\\' :: 'u' :: hex 4 c.toNat
  else '\\' :: 'U' :: hex 8 c.toNat

/-- Single quotes unless the text holds a single and no double quote. -/
def quoteFor (s : List Char) : Char :=
  if '\'' ∈ s ∧ '"' ∉ s then '"' else '\''

def quoted (s : String) : String :=
  let quote := quoteFor s.toList
  String.ofList (quote :: s.toList.flatMap (escape quote) ++ [quote])

/-- The escaped form of a code point, which need not be a character. -/
def escapePoint (quote : Char) (n : Nat) : List Char :=
  if n.isValidChar then escape quote (.ofNat n) else '\\' :: 'u' :: hex 4 n

/-- Code points between quotes. -/
def quotedPoints (points : List Nat) : String :=
  let quote := quoteFor (points.map Char.ofNat)
  String.ofList (quote :: points.flatMap (escapePoint quote) ++ [quote])

end Text
end JoinOrder
