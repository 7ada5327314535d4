import JoinOrder.Value.Text

/-! # Names given as values

Attributes and variables are given as values. A text is a name as it is; any other value becomes a
key whose form it has in common with the values that are the same: with equal numbers of another
kind, and with sets of the same items. -/

namespace JoinOrder

/-- The form of a number, whatever it is made of. -/
def Number.form : Number → String
  | int n => toString n
  | real x =>
    match x.toInt? with
    | some n => toString n
    | none => x.text

/-- A known size has the form of the number that it is compared as. -/
def Cardinality.form : Cardinality → String
  | unknown => Cardinality.description unknown
  | c => Number.form (.real c.toBinary64)

namespace Value

/-- Texts between curly brackets, in order. -/
def orderedText (items : List String) : String := curly (items.mergeSort fun a b => !decide (b < a))

mutual

/-- A text that stands for a value and for all that are the same. -/
def form : Value → String
  | bool b => if b then "1" else "0"
  | int n => toString n
  | real x => Number.form (.real x)
  | undefined label => s!"nan {label}"
  | list xs => bracketed "[" (forms xs) "]"
  | tuple xs => tupleText (forms xs)
  | set xs | sealedSet xs => "frozenset(" ++ orderedText (forms xs) ++ ")"
  | map entries => orderedText (entryForms entries)
  | cardinality c => c.form
  | constraint lower upper domain range =>
    let most := (upper.map fun n => toString n).getD "*"
    s!"{orderedText (forms domain)} -> [{lower}..{most}] {orderedText (forms range)}"
  | model m => "CostModel" ++ tupleText (m.fields.map fun (_, x) => x.form)
  | costs a b c => "StrategyCosts" ++ tupleText [form a, form b, form c]
  | foreign label => s!"<object {label}>"
  | v => description v

def forms : List Value → List String
  | [] => []
  | x :: xs => form x :: forms xs

def entryForms : List (Value × Value) → List String
  | [] => []
  | (k, v) :: rest => (form k ++ ": " ++ form v) :: entryForms rest

end

def toName : Value → Name
  | text s => .text s
  | v => .key v.form

/-- The variable that a value is or names. -/
def asVariable : Value → Variable
  | var v => v
  | v => ⟨v.toName⟩

end Value
end JoinOrder
