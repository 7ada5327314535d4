import JoinOrder.Dictionary
import JoinOrder.Value.Shown

/-! # Labelled graphs

Undirected graphs whose nodes are values and whose edges carry labels. What cannot be a key is read
as a node with attributes, which are checked and then left aside. `connectedSubsets` searches
some of the nodes for connected components, where a test decides for each edge whether it connects.
The test may fail, and an edge that is not needed because all nodes have been found already is not
tested. -/

namespace JoinOrder

/-- An edge between two nodes with its label. -/
structure LabelledEdge (α : Type) where
  first : Value
  second : Value
  label : α

/-- Each node has its neighbours with the labels of the edges to them, in the order in which they
were added. -/
structure LabelledGraph (α : Type) where
  nodes : List (Value × List (Value × α))

namespace LabelledGraph

variable {α : Type}

def size (g : LabelledGraph α) : Nat := g.nodes.length

def contains (g : LabelledGraph α) (x : Value) : Bool :=
  x.isKey && g.nodes.any fun node => Value.same node.1 x

/-- Adds a node, which null cannot be. -/
def addNode (g : LabelledGraph α) (x : Value) : Checked (LabelledGraph α) := do
  x.requireKey
  if g.contains x then return g
  match x with
  | .null => throw (.usage .nullNode)
  | x => return { nodes := g.nodes ++ [(x, [])] }

/-- Adds an edge from a node that is there; one that is there already gets the new label. -/
def addNeighbour (g : LabelledGraph α) (x y : Value) (label : α) : LabelledGraph α where
  nodes := g.nodes.map fun (node, near) =>
    if Value.same node x then (node, Dictionary.put near y label) else (node, near)

/-- Adds an edge with its nodes. -/
def addEdge (g : LabelledGraph α) (e : LabelledEdge α) : Checked (LabelledGraph α) := do
  let g ← g.addNode e.first
  let g ← g.addNode e.second
  return (g.addNeighbour e.first e.second e.label).addNeighbour e.second e.first e.label

/-- Fails unless a value has two items, of which the first may be a key. -/
def requireAttribute (index : Nat) (v : Value) : Checked Unit := do
  match ← v.elements with
  | [name, _] => name.requireKey
  | items => throw (.usage (.attributeLength index items.length))

/-- Attributes are a map, or pairs of names and values. -/
def requireAttributes (given : Value) : Checked Unit :=
  match given with
  | .map _ => .ok ()
  | given => do (← given.elements).zipIdx.forM fun (v, i) => requireAttribute i v

/-- Adds a node that is given as it is or, if it cannot be a key, with its attributes. -/
def addGiven (g : LabelledGraph α) (given : Value) : Checked (LabelledGraph α) := do
  if given.isKey then g.addNode given
  else
    let (x, attributes) ← given.pair
    x.requireKey
    requireAttributes attributes
    g.addNode x

/-- The graph of some nodes and edges. -/
def build (nodes : List Value) (edges : List (LabelledEdge α)) : Checked (LabelledGraph α) := do
  let g ← nodes.foldlM addNode ⟨[]⟩
  edges.foldlM addEdge g

/-- The graph of nodes and edges that are given as values, an edge by its nodes and its label. -/
def parse (nodes edges : Value) : Checked (LabelledGraph Value) := do
  let g ← (← nodes.elements).foldlM addGiven ⟨[]⟩
  (← edges.elements).foldlM (fun g edge => do
    let (first, second, label) ← edge.triple
    g.addEdge { first, second, label }) g

/-- The neighbours of a node among some nodes that it is connected to. All edges to them are
tested. -/
def linked (g : LabelledGraph α) (among : List Value) (connects : α → Checked Bool) (x : Value) :
    Checked (List Value) := do
  match g.nodes.find? fun node => Value.same node.1 x with
  | some (_, near) =>
    let near ← (near.filter fun (y, _) => among.any (Value.same · y)).filterM
      fun (_, label) => connects label
    return near.map Prod.fst
  | none => return []

/-- Goes through the nodes of a queue, which is extended by the neighbours that have not been seen.
The search ends once as many nodes as `limit` have been seen. -/
def search (near : Value → Checked (List Value)) (limit : Nat) :
    (fuel : Nat) → (queue seen : List Value) → Checked (List Value)
  | fuel + 1, x :: queue, seen => do
    let found := (← near x).filter fun y => !seen.any (Value.same · y)
    let seen := seen ++ found
    if seen.length = limit then return seen
    search near limit fuel (queue ++ found) seen
  | _, _, seen => .ok seen

/-- The components of `count` nodes, each found from the first node that is in none of those before
it. -/
def components (near : Value → Checked (List Value)) (count : Nat) :
    (found : List (List Value)) → (nodes : List Value) → Checked (List (List Value))
  | found, [] => .ok found
  | found, x :: nodes => do
    let seen := found.flatten
    if seen.any (Value.same · x) then components near count found nodes
    else
      let component ← search near (count - seen.length) count [x] [x]
      components near count (found ++ [component]) nodes

/-- The connected components of some nodes, in order and ordered by their least nodes. Nodes are
shown as they stand in the graph, but the search begins with the given nodes if these are few. -/
def connectedSubsets (g : LabelledGraph α) (among : List Value) (connects : α → Checked Bool) :
    Checked (List (List Value)) := do
  let missing := among.filter (!g.contains ·)
  if !missing.isEmpty then
    Value.requireAllShown missing
    throw (.missingKey (some ("Nodes are not part of the graph: " ++
      Value.description (.list missing))))
  let among := Value.distinct among
  let starts :=
    if 2 * among.length < g.size then among
    else (g.nodes.map Prod.fst).filter fun x => among.any (Value.same · x)
  let found ← components (g.linked among connects) among.length [] starts
  let sorted ← found.mapM (Sorting.sort Value.lt)
  Sorting.sort (fun a b => Value.lt (a.headD .null) (b.headD .null)) sorted

end LabelledGraph
end JoinOrder
