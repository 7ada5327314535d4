import JoinOrder.Text.Quoted
import JoinOrder.Value.Order

/-! # Documents

What is exported: trees of null, truth values, numbers, texts, lists and objects, whose fields
keep their order. `Document.render` writes a document as JSON text. -/

namespace JoinOrder

inductive Document
  | null
  | bool (b : Bool)
  | int (n : Int)
  | real (x : Binary64)
  | text (s : String)
  | list (items : List Document)
  | object (fields : List (String × Document))

namespace Document

instance : Inhabited Document := ⟨null⟩

def texts (xs : List String) : Document := list (xs.map text)

/-- The literal of a number; those without digits have names of their own. -/
def numberText : Binary64 → String
  | .nan => "NaN"
  | .infinity false => "Infinity"
  | .infinity true => "-Infinity"
  | x => x.text

/-- How documents are written: on one line or indented, and with which characters. -/
structure Style where
  /-- What each level of an indented document is indented by. -/
  indent : Option String
  ascii : Bool

namespace Style

/-- Reads an indentation: a text, or a number of blanks, which has to fit into a word; null asks for a
single line. -/
def parseIndent (given : Value) : Checked (Option String) :=
  match given, given.integer? with
  | .null, _ => .ok none
  | .text s, _ => .ok (some s)
  | _, some n =>
    if inWord n then .ok (some (String.ofList (List.replicate n.toNat ' '))) else .error .tooLarge
  | _, none => .error (.mismatch .notANumber)

/-- One line of ASCII characters. -/
def compact : Style := ⟨none, true⟩

/-- Indented by two, in ASCII. -/
def indented : Style := ⟨some "  ", true⟩

end Style

/-- A UTF-16 unit as an escape. -/
def unitEscape (n : Nat) : List Char := '\\' :: 'u' :: Text.hex 4 n

/-- A character between quotes. Characters beyond 16 bits are escaped as two units. -/
def escape (ascii : Bool) (c : Char) : List Char :=
  if c = '"' then ['\\', '"']
  else if c = '\\' then ['\\', '\\']
  else if c = '\n' then ['\\', 'n']
  else if c = '\r' then ['\\', 'r']
  else if c = '\t' then ['\\', 't']
  else if c.toNat = 8 then ['\\', 'b']
  else if c.toNat = 12 then ['\\', 'f']
  else
    let n := c.toNat
    if n < 32 ∨ (ascii ∧ 126 < n) then
      if n < 0x10000 then unitEscape n
      else
        unitEscape (0xD800 + (n - 0x10000) / 0x400) ++ unitEscape (0xDC00 + (n - 0x10000) % 0x400)
    else [c]

def quoted (style : Style) (s : String) : String :=
  String.ofList ('"' :: s.toList.flatMap (escape style.ascii) ++ ['"'])

/-- What stands before an item at some depth of an indented document. -/
def lineStart (indent : String) (depth : Nat) : String :=
  "\n" ++ String.join (List.replicate depth indent)

/-- Items between brackets, each on a line of its own if the style is indented. -/
def enclosed (style : Style) (depth : Nat) (first last : String) (items : List String) : String :=
  if items.isEmpty then first ++ last
  else
    match style.indent with
    | none => first ++ String.intercalate ", " items ++ last
    | some n =>
      let start := lineStart n (depth + 1)
      first ++ start ++ String.intercalate ("," ++ start) items ++ lineStart n depth ++ last

mutual

def render (style : Style) (depth : Nat) : Document → String
  | null => "null"
  | bool b => if b then "true" else "false"
  | int n => toString n
  | real x => numberText x
  | text s => quoted style s
  | list items => enclosed style depth "[" "]" (renderItems style (depth + 1) items)
  | object fields =>
    enclosed style depth "\x7b" "\x7d" (renderFields style (depth + 1) fields)

def renderItems (style : Style) (depth : Nat) : List Document → List String
  | [] => []
  | d :: rest => render style depth d :: renderItems style depth rest

def renderFields (style : Style) (depth : Nat) : List (String × Document) → List String
  | [] => []
  | (name, d) :: rest =>
    (quoted style name ++ ": " ++ render style depth d) :: renderFields style depth rest

end

/-- The text of a document. -/
def toText (style : Style) (d : Document) : String := d.render style 0

end Document
end JoinOrder
