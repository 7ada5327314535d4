import JoinOrder.LabelledGraph
import JoinOrder.Query.Atom

/-! # Query graphs

A conjunctive query: atoms that are linked where they share variables, and constants for some of
the variables. The place of an atom in the list is its index. -/

namespace JoinOrder

structure QueryGraph where
  atoms : List Atom
  constants : Assignment

namespace QueryGraph

/-- All variables in the order of their first occurrence. -/
def vars (q : QueryGraph) : List Variable :=
  (q.atoms.flatMap Atom.vars).foldl (fun all v => if v ∈ all then all else all ++ [v]) []

/-- The name under which a constant is given: that of a variable if it is a text, or else what stands
for a name. -/
def constantName (given : Value) : Value :=
  match given with
  | .var ⟨.text s⟩ => .text s
  | given => given

/-- Builds a query over at least one atom; constants may only fix variables of the atoms. -/
def declare? (atoms : List Atom) (constants : List (Value × Value)) : Checked QueryGraph := do
  if atoms.isEmpty then throw (.usage .noAtoms)
  let named := constants.foldl (fun all (k, x) => Dictionary.put all (constantName k) x) []
  let q : QueryGraph := { atoms, constants := .ofEntries named }
  let foreign := (named.map Prod.fst).filter fun k => k.asVariable ∉ q.vars
  if !foreign.isEmpty then throw (.usage (.foreignConstants foreign))
  return q

/-- The number of atoms. -/
def size (q : QueryGraph) : Nat := q.atoms.length

def indices (q : QueryGraph) : List Nat := List.range q.size

/-- An atom by its index, which counts from the end when it is negative. -/
def atom (q : QueryGraph) (index : Int) : Checked Atom := atOffset q.atoms index

def atomVariables (q : QueryGraph) (index : Nat) : List Variable :=
  match q.atoms[index]? with
  | some a => a.vars
  | none => []

/-- The variables that two different atoms have in common. -/
def shared (q : QueryGraph) (i j : Nat) : List Variable :=
  if i = j then [] else (q.atomVariables i).filter (· ∈ q.atomVariables j)

/-- Whether two atoms share a variable that is not bound. -/
def linked (q : QueryGraph) (bound : List Variable) (i j : Nat) : Bool :=
  (q.shared i j).any (· ∉ bound)

/-- The index of an atom that is there. -/
def node? (q : QueryGraph) (index : Value) : Checked (Option Nat) := do
  index.requireKey
  return q.indices.find? fun i => Value.same (.ofNat i) index

/-- The variables that two atoms have in common; without an edge there are none. -/
def sharedBetween (q : QueryGraph) (first second : Value) : Checked (List Variable) := do
  match ← q.node? first with
  | none => return []
  | some i =>
    match ← q.node? second with
    | none => return []
    | some j => return q.shared i j

/-- The atoms that share a variable with an atom. -/
def adjacent (q : QueryGraph) (i : Nat) : List Nat := q.indices.filter (q.linked [] i)

/-- The same for an atom that is given as a value. -/
def neighbors (q : QueryGraph) (index : Value) : Checked (List Nat) := do
  match ← q.node? index with
  | some i => return q.adjacent i
  | none => throw .foreignNode

/-- The atoms that use a variable. -/
def atomsWith (q : QueryGraph) (v : Variable) : List Nat :=
  q.indices.filter fun i => v ∈ q.atomVariables i

/-- The edges with the shared variables. -/
def edges (q : QueryGraph) : List (Nat × Nat × List Variable) :=
  q.indices.flatMap fun i =>
    (q.indices.filter fun j => i < j && q.linked [] i j).map fun j => (i, j, q.shared i j)

/-- The graph of the atoms, whose edges are labelled with the shared variables. -/
def labelled (q : QueryGraph) : Checked (LabelledGraph (List Variable)) :=
  LabelledGraph.build (q.indices.map .ofNat)
    (q.edges.map fun (i, j, shared) => ⟨.ofNat i, .ofNat j, shared⟩)

/-- The components of atoms that are given by values. -/
def componentsAmong (q : QueryGraph) (among : List Value) (bound : List Variable) :
    Checked (List (List Value)) := do
  (← q.labelled).connectedSubsets among fun shared => .ok (shared.any (· ∉ bound))

/-- The connected components of some atoms, where bound variables do not link. -/
def components (q : QueryGraph) (among : List Nat) (bound : List Variable) :
    Checked (List (List Nat)) := do
  let found ← q.componentsAmong (among.map .ofNat) bound
  return found.map (·.filterMap fun v => v.int?.map Int.toNat)

def isConnected (q : QueryGraph) : Checked Bool := do
  return (← q.components q.indices []).length = 1

/-- The atoms, and the constants after a bar. -/
def text (q : QueryGraph) : String :=
  let atoms := String.intercalate ", " (q.atoms.map fun a => a.label.text)
  let constants := q.constants.map fun (v, x) => v.text ++ "=" ++ x.description
  if constants.isEmpty then atoms else atoms ++ " | " ++ String.intercalate ", " constants

/-- Fails for a query that cannot be written. -/
def requireShown (q : QueryGraph) : Checked Unit := do
  q.atoms.forM fun a => a.label.requireShown
  q.constants.forM fun (v, x) => do
    let _ ← v.name.requireText
    x.requireShown

end QueryGraph
end JoinOrder
