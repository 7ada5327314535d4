import JoinOrder.Sorting
import JoinOrder.Value.Order

/-! # Values without a text

Not every value can be written. A variable on its own is written as its name, which has to be a text
there. A degree constraint is written with its attributes in order and
between commas, so they have to be texts; before that its upper bound is asked for as a number,
which it may be too large for. A fault whose message shows such a value is not reported: what went
wrong in writing the value is reported in its place (`Fault.reported`). -/

namespace JoinOrder

/-- Whether there is an upper bound. It is asked for as a number, which it may be too large for. -/
def hasUpper (bound : Option Nat) : Checked Bool :=
  match bound with
  | none => .ok false
  | some n => if (Binary64.ofInt? n).isSome then .ok true else .error .tooLarge

namespace Value

/-- Fails for the parts of a degree constraint that cannot be written. -/
def requireConstraintShown (upper : Option Nat) (domain range : List Value) : Checked Unit := do
  let _ ← hasUpper upper
  for attributes in [domain, range] do
    let _ ← (← Sorting.sort lt attributes).mapM requireText

mutual

/-- Fails for values that cannot be written. -/
def requireShown : Value → Checked Unit
  | list xs | tuple xs | set xs | sealedSet xs => requireAllShown xs
  | map entries => requireEntriesShown entries
  | costs a b c => do
    requireShown a
    requireShown b
    requireShown c
  | constraint _ upper domain range => requireConstraintShown upper domain range
  | _ => .ok ()

def requireAllShown : List Value → Checked Unit
  | [] => .ok ()
  | x :: xs => do
    requireShown x
    requireAllShown xs

def requireEntriesShown : List (Value × Value) → Checked Unit
  | [] => .ok ()
  | (k, v) :: rest => do
    requireShown k
    requireShown v
    requireEntriesShown rest

end

/-- Fails for values that cannot be written on their own. -/
def requireDisplayed : Value → Checked Unit
  | var v => v.name.requireText.map fun _ => ()
  | costs a b c => do
    requireDisplayed a
    requireDisplayed b
    requireDisplayed c
  | v => v.requireShown

/-- The form of a value on its own, if it can be written. -/
def display? (v : Value) : Checked String := do
  v.requireDisplayed
  return v.display

end Value

namespace Label

/-- Fails for labels that cannot be written. -/
def requireShown (l : Label) : Checked Unit := do
  l.name.requireDisplayed
  if l.rest.isNone then throw (.mismatch .notAText)

/-- The text of a label, if it can be written. -/
def text? (l : Label) : Checked String := do
  l.requireShown
  return l.text

end Label

/-- Fails for a message that cannot be written. -/
def UsageFault.requireShown : UsageFault → Checked Unit
  | foreignColumns names _ | foreignConstants names | unknownCosts names =>
    Value.requireAllShown names
  | foreignAttributes names relation => do
    Value.requireAllShown names
    relation.requireShown
  | keyLength given sortKey => Value.requireAllShown (given :: sortKey)
  | keyTooLong given sortKey => Value.requireAllShown (given ++ sortKey)
  | streamSearched given => Value.requireAllShown given
  | unmappedVariable given relation | notAnAttribute given relation
  | attributeReused given relation => do
    given.requireDisplayed
    relation.requireShown
  | nothingBound relation => relation.requireShown
  | notInAtom name atom => do
    let _ ← name.requireText
    atom.requireShown
  | invalidCost _ given => given.requireShown
  | unknownStrategy given => given.requireDisplayed
  | _ => .ok ()

/-- The fault that is reported: the fault itself, unless its message cannot be written. -/
def Fault.reported (f : Fault) : Fault :=
  let shown := match f with
    | schema cause => (cause.value?.map Value.requireShown).getD (.ok ())
    | usage cause => cause.requireShown
    | _ => .ok ()
  match shown with
  | .ok () => f
  | .error other => other

end JoinOrder
