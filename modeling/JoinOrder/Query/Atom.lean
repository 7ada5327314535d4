import JoinOrder.Relation.Basic

/-! # Query atoms

An atom maps query variables to attributes of a relation. A variable that is mapped to several
attributes asks for the same value in all of them. -/

namespace JoinOrder

/-- Values for some variables, each of which occurs once. -/
abbrev Assignment := List (Variable × Value)

namespace Assignment

def vars (a : Assignment) : List Variable := a.map Prod.fst

/-- The value of a variable, if it has one. -/
def get? (a : Assignment) (v : Variable) : Option Value := a.lookup v

def get (a : Assignment) (v : Variable) : Checked Value :=
  match a.get? v with
  | some x => .ok x
  | none => .error (.missingKey none)

/-- Assigns a variable; one that is assigned already keeps its place. -/
def set : Assignment → Variable → Value → Assignment
  | [], v, x => [(v, x)]
  | (w, y) :: rest, v, x => if w = v then (w, x) :: rest else (w, y) :: set rest v x

/-- The assignments together, where the second one prevails. -/
def merge (a b : Assignment) : Assignment := b.foldl (fun all (v, x) => all.set v x) a

def ofList (pairs : List (Variable × Value)) : Assignment := merge [] pairs

/-- The entries of a map whose keys are variables or name them. -/
def ofEntries (entries : List (Value × Value)) : Assignment :=
  ofList (entries.map fun (k, x) => (k.asVariable, x))

/-- The value of what is or names a variable. -/
def getNamed (a : Assignment) (name : Value) : Checked Value := do
  a.get (← name.keyVariable)

end Assignment

structure Atom where
  relation : Relation
  /-- The attributes of each variable, in declaration order. -/
  bindings : List (Variable × List Name)

namespace Atom

/-- Checks the attributes that a variable is mapped to; `seen` have been mapped before. -/
def parseAttributes (relation : Relation) : (seen : List Name) → List Value → Checked (List Name)
  | seen, [] => .ok seen
  | seen, given :: rest => do
    let name := given.toName
    if name ∉ relation.attributes then throw (.usage (.notAnAttribute given relation.label))
    given.requireMember
    if name ∈ seen then throw (.usage (.attributeReused given relation.label))
    given.requireKey
    parseAttributes relation (seen ++ [name]) rest

/-- Replaces the attributes of a variable, or adds the variable at the end. -/
def setBinding (bindings : List (Variable × List Name)) (v : Variable)
    (attributes : List Name) : List (Variable × List Name) :=
  match bindings with
  | [] => [(v, attributes)]
  | (w, old) :: rest =>
    if w = v then (w, attributes) :: rest else (w, old) :: setBinding rest v attributes

/-- Reads the attributes of each variable: one name, or a sequence of names. A variable is given
as it is or by its name. -/
def parseBindings (relation : Relation) : (seen : List Name) →
    (found : List (Variable × List Name)) → List (Value × Value) →
    Checked (List (Variable × List Name))
  | _, found, [] => .ok found
  | seen, found, (key, given) :: rest => do
    let names ← match given with
      | .text s => pure [Value.text s]
      | given => given.elements
    if names.isEmpty then throw (.usage (.unmappedVariable key relation.label))
    let all ← parseAttributes relation seen names
    parseBindings relation all (setBinding found key.asVariable (all.drop seen.length)) rest

def declare? (relation : Relation) (bindings : List (Value × Value)) : Checked Atom := do
  let bindings ← parseBindings relation [] [] bindings
  if bindings.isEmpty then throw (.usage (.nothingBound relation.label))
  return { relation, bindings }

/-- The variables in declaration order. -/
def vars (a : Atom) : List Variable := a.bindings.map Prod.fst

/-- The relation with the attributes that are mapped. -/
def label (a : Atom) : Label where
  name := a.relation.name
  rest := do
    let parts ← a.bindings.mapM fun (v, names) => do
      let variableName ← v.name.text?
      return names.map fun name => name.display ++ "=" ++ variableName
    return Value.bracketed "(" parts.flatten ")"

/-- The attributes that a variable of the atom is mapped to. -/
def attributesOf (a : Atom) (v : Variable) : Checked (List Name) :=
  match a.bindings.lookup v with
  | some attributes => .ok attributes
  | none => .error (.missingKey none)

/-- All attributes that are mapped to any of some variables. -/
def attributes (a : Atom) (vars : List Variable) : List Name :=
  vars.flatMap fun v => (a.bindings.lookup v).getD []

/-- The values that an assignment means for the attributes. -/
def relationBinding (a : Atom) (values : Assignment) : NamedValues :=
  a.bindings.flatMap fun (v, attributes) =>
    match values.get? v with
    | some x => attributes.map (·, x)
    | none => []

/-- The common value of some attributes of a tuple, if they have one. A single attribute is not
compared with anything. -/
def commonValue (names : List Name) (row : List Value) : List Name → Checked (Option Value)
  | [name] => (atPosition row (names.idxOf name)).map some
  | attributes => do
    let values ← attributes.mapM fun name => do
      let v ← atPosition row (names.idxOf name)
      v.requireKey
      return v
    match Value.distinct values with
    | [_] => return values.head?
    | _ => return none

/-- The assignment that a tuple of the relation means, if it has equal values wherever a variable
asks for them. -/
def variableBinding (a : Atom) (row : List Value) : Checked (Option Assignment) :=
  go a.bindings
where
  go : List (Variable × List Name) → Checked (Option Assignment)
    | [] => .ok (some [])
    | (v, attributes) :: rest => do
      match ← commonValue a.relation.attributes row attributes with
      | none => return none
      | some x => return (← go rest).map ((v, x) :: ·)

end Atom
end JoinOrder
