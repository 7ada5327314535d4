import JoinOrder.Constraint.Basic
import JoinOrder.Text.Quoted
import JoinOrder.Value.Basic

/-! # Texts of values

`Value.description` is the form a value has inside lists and messages, where texts are quoted;
`Value.text` is the form it has on its own. The brackets and names of the written forms are
collected here and nowhere else. -/

namespace JoinOrder
namespace Value

/-- Items between brackets, separated by commas. -/
def bracketed (first : String) (items : List String) (last : String) : String :=
  first ++ String.intercalate ", " items ++ last

/-- A tuple of one item keeps a comma after it. -/
def tupleText : List String → String
  | [item] => "(" ++ item ++ ",)"
  | items => bracketed "(" items ")"

def curly (items : List String) : String := bracketed "\x7b" items "\x7d"

/-- A name where texts are quoted. -/
def nameDescription : Name → String
  | .text s => Text.quoted s
  | .key form => form

/-- The texts among some attributes, in order. -/
def textsOf (attributes : List Value) : NameSet :=
  .ofList ((attributes.filterMap text?).map .text)

mutual

def description : Value → String
  | null => "None"
  | bool b => if b then "True" else "False"
  | int n => toString n
  | real x => x.text
  | undefined _ => Binary64.text .nan
  | text s => Text.quoted s
  | brokenText points => Text.quotedPoints points
  | list xs => bracketed "[" (descriptions xs) "]"
  | tuple xs => tupleText (descriptions xs)
  | set [] => "set()"
  | set xs => curly (descriptions xs)
  | sealedSet [] => "frozenset()"
  | sealedSet xs => "frozenset(" ++ curly (descriptions xs) ++ ")"
  | map entries => curly (entryDescriptions entries)
  | path s => "PosixPath(" ++ Text.quoted s ++ ")"
  | var v => "Variable(name=" ++ nameDescription v.name ++ ")"
  | tag t => t.description
  | cardinality c => c.description
  | constraint lower upper domain range =>
    DegreeConstraint.text ⟨lower, upper, textsOf domain, textsOf range⟩
  | model m => m.description
  | costs a b c =>
    "StrategyCosts(iterate=" ++ description a ++ ", intermediate=" ++ description b ++
      ", filter=" ++ description c ++ ")"
  | foreign _ => "<object>"

def descriptions : List Value → List String
  | [] => []
  | x :: xs => description x :: descriptions xs

def entryDescriptions : List (Value × Value) → List String
  | [] => []
  | (k, v) :: rest => (description k ++ ": " ++ description v) :: entryDescriptions rest

end

/-- The form of a value on its own. -/
def display : Value → String
  | text s => s
  | path s => s
  | var v => v.text
  | tag t => t.name
  | cardinality c => c.text
  | model m => m.text
  | costs a b c => StrategyCosts.textWith ⟨display a, display b, display c⟩ id
  | v => description v

/-- The segments of a path, without empty ones and dots. -/
def pathSegments (s : String) : List String :=
  (s.splitOn "/").filter fun part => part ≠ "" ∧ part ≠ "."

/-- What a path consists of: the leading slashes, if there are any, and the segments. -/
def pathParts (s : String) : List String :=
  let root := s.takeWhile (· = '/')
  if root.isEmpty then pathSegments s else root.toString :: pathSegments s

/-- A path without empty and dot segments. -/
def ofPath (s : String) : Value :=
  let segments := pathSegments s
  let root :=
    if s.startsWith "/" then
      if s.startsWith "//" && !s.startsWith "///" then "//" else "/"
    else ""
  let joined := root ++ String.intercalate "/" segments
  path (if joined = "" then "." else joined)

end Value
end JoinOrder
