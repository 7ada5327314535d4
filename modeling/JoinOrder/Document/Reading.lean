import JoinOrder.Dictionary
import JoinOrder.Document.Basic

/-! # Reading JSON text

`Document.read?` reads a JSON text into a value: objects become maps, in which a repeated name
keeps its first place and its last value. Besides standard JSON, the names that are written for
numbers without digits are read back. -/

namespace JoinOrder
namespace Document

/-- What a text begins with, and the rest behind it. -/
abbrev Parser (α : Type) := List Char → Checked (α × List Char)

/-- What has to be there in a text that is well formed. -/
def expected {α : Type} (x : Option α) : Checked α :=
  match x with
  | some a => .ok a
  | none => .error .malformedDocument

def isSpace (c : Char) : Bool := c = ' ' || c = '\t' || c = '\n' || c = '\r'

def skipSpace (s : List Char) : List Char := s.dropWhile isSpace

/-- The rest behind a fixed beginning. -/
def skipText : List Char → List Char → Option (List Char)
  | [], s => some s
  | c :: cs, d :: s => if c = d then skipText cs s else none
  | _ :: _, [] => none

/-- Literals and their values. -/
def literals : List (String × Value) :=
  [("null", .null), ("true", .bool true), ("false", .bool false), ("NaN", .real .nan),
    ("Infinity", .real (.infinity false)), ("-Infinity", .real (.infinity true))]

def readLiteral (s : List Char) : Option (Value × List Char) :=
  literals.findSome? fun (name, v) => (skipText name.toList s).map (v, ·)

/-- The value of ASCII digits, after `value`. -/
def digitsValue (value : Nat) (cs : List Char) : Nat :=
  cs.foldl (fun n c => 10 * n + (c.toNat - '0'.toNat)) value

/-- The digits a text begins with. -/
def digitSpan (s : List Char) : List Char × List Char :=
  (s.takeWhile Char.isDigit, s.dropWhile Char.isDigit)

/-- A fraction with at least one digit; otherwise nothing is taken. -/
def readFraction (s : List Char) : List Char × List Char :=
  match s with
  | '.' :: rest =>
    match digitSpan rest with
    | ([], _) => ([], s)
    | found => found
  | _ => ([], s)

/-- An exponent with at least one digit; otherwise nothing is taken. -/
def readExponent (s : List Char) : Option Int × List Char :=
  match s with
  | c :: rest =>
    if c = 'e' ∨ c = 'E' then
      let (negative, rest) := Text.signed rest
      match digitSpan rest with
      | ([], _) => (none, s)
      | (digits, rest) =>
        let n : Int := digitsValue 0 digits
        (some (if negative then -n else n), rest)
    else (none, s)
  | [] => (none, s)

/-- A number: an integer unless it has a fraction or an exponent. -/
def readNumber : Parser Value := fun s =>
  let (negative, rest) := match s with
    | '-' :: rest => (true, rest)
    | rest => (false, rest)
  let (whole, rest) := match rest with
    | '0' :: rest => (['0'], rest)
    | rest => digitSpan rest
  if whole.isEmpty then .error .malformedDocument
  else
    let (fraction, rest) := readFraction rest
    let (exponent, rest) := readExponent rest
    let digits := digitsValue 0 (whole ++ fraction)
    if fraction.isEmpty && exponent.isNone then
      .ok (.int (if negative then -(digits : Int) else digits), rest)
    else
      let e := exponent.getD 0 - fraction.length
      .ok (.real (Binary64.ofDecimal negative digits e), rest)

def hexValue? (c : Char) : Option Nat :=
  if c.isDigit then some (c.toNat - '0'.toNat)
  else if 'a' ≤ c ∧ c ≤ 'f' then some (c.toNat - 'a'.toNat + 10)
  else if 'A' ≤ c ∧ c ≤ 'F' then some (c.toNat - 'A'.toNat + 10)
  else none

/-- Four hexadecimal digits. -/
def readUnit : List Char → Option (Nat × List Char)
  | a :: b :: c :: d :: rest => do
    let a ← hexValue? a
    let b ← hexValue? b
    let c ← hexValue? c
    let d ← hexValue? d
    return (((a * 16 + b) * 16 + c) * 16 + d, rest)
  | _ => none

/-- The code point of a unit, which may be the first half of a pair. A half without the other one
stands for itself. -/
def readEscapedUnit (s : List Char) : Option (Nat × List Char) := do
  let (first, rest) ← readUnit s
  if 0xD800 ≤ first ∧ first < 0xDC00 then
    match (skipText ['\\', 'u'] rest).bind readUnit with
    | some (second, behind) =>
      if 0xDC00 ≤ second ∧ second < 0xE000 then
        return (0x10000 + (first - 0xD800) * 0x400 + (second - 0xDC00), behind)
      else return (first, rest)
    | none => return (first, rest)
  else return (first, rest)

def simpleEscapes : List (Char × Char) :=
  [('"', '"'), ('\\', '\\'), ('/', '/'), ('b', .ofNat 8), ('f', .ofNat 12), ('n', '\n'),
    ('r', '\r'), ('t', '\t')]

/-- The text up to the closing quote. -/
def readString : (fuel : Nat) → (found : List Nat) → List Char → Option (Value × List Char)
  | 0, _, _ => none
  | _ + 1, _, [] => none
  | fuel + 1, found, c :: rest =>
    if c = '"' then some (.ofPoints found.reverse, rest)
    else if c = '\\' then
      match rest with
      | 'u' :: rest => do
        let (n, rest) ← readEscapedUnit rest
        readString fuel (n :: found) rest
      | e :: rest => do
        let d ← simpleEscapes.lookup e
        readString fuel (d.toNat :: found) rest
      | [] => none
    else if c.toNat < 32 then none
    else readString fuel (c.toNat :: found) rest

mutual

/-- A value, whose text is no longer than `fuel`. -/
def readValue : (fuel : Nat) → Parser Value
  | 0, _ => .error .malformedDocument
  | fuel + 1, s =>
    match s with
    | '"' :: rest => expected (readString (rest.length + 1) [] rest)
    | '[' :: rest =>
      match skipSpace rest with
      | ']' :: rest => .ok (.list [], rest)
      | rest => (readItems fuel rest).map fun (xs, rest) => (.list xs, rest)
    | '\x7b' :: rest =>
      match skipSpace rest with
      | '\x7d' :: rest => .ok (.map [], rest)
      | rest => (readFields fuel [] rest).map fun (fields, rest) => (.map fields, rest)
    | s =>
      match readLiteral s with
      | some found => .ok found
      | none => readNumber s

/-- The items of a list up to its end. -/
def readItems : (fuel : Nat) → Parser (List Value)
  | 0, _ => .error .malformedDocument
  | fuel + 1, s => do
    let (x, rest) ← readValue fuel s
    match skipSpace rest with
    | ']' :: rest => return ([x], rest)
    | ',' :: rest =>
      let (xs, rest) ← readItems fuel (skipSpace rest)
      return (x :: xs, rest)
    | _ => .error .malformedDocument

/-- The fields of an object up to its end. -/
def readFields : (fuel : Nat) → (found : List (Value × Value)) → Parser (List (Value × Value))
  | 0, _, _ => .error .malformedDocument
  | fuel + 1, found, s => do
    let rest ← expected (skipText ['"'] s)
    let (name, rest) ← expected (readString (rest.length + 1) [] rest)
    let rest ← expected (skipText [':'] (skipSpace rest))
    let (x, rest) ← readValue fuel (skipSpace rest)
    let found := Dictionary.put found name x
    match skipSpace rest with
    | '\x7d' :: rest => return (found, rest)
    | ',' :: rest => readFields fuel found (skipSpace rest)
    | _ => .error .malformedDocument

end

/-- Reads a text that consists of one value and blanks around it. -/
def read? (s : String) : Checked Value := do
  let text := skipSpace s.toList
  let (v, rest) ← readValue (text.length + 1) text
  if (skipSpace rest).isEmpty then return v else throw .malformedDocument

end Document
end JoinOrder
