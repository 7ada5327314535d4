import JoinOrder.Plan.Planner

/-! # Execution

An intermediate result is a sequence of rows, each an assignment of the variables that are bound
so far. A step extends the rows by the tuples of its atom: it probes the relation for each row
(iterate), reads the relation once and compares each row with what it has read (intermediate), or
collects the rows and reads the relation once against them (filter). Only the order of the results
depends on the strategy. -/

namespace JoinOrder
namespace Execution

/-- The tuples of an atom for some attribute values, as assignments. -/
def assignments (a : Atom) (binding : NamedValues) : Rows Assignment :=
  .ofChecked do
    let found ← a.relation.lookup binding
    return (found.rows ()).filterMap a.variableBinding

/-- The values of the join variables, all of which have to be usable as keys. -/
def joinKey (join : List Variable) (row : Assignment) : Checked (List Value) := do
  let key ← join.mapM row.get
  key.forM Value.requireKey
  return key

/-- A row with its join key. -/
def keyed (join : List Variable) (row : Assignment) : Checked (List Value × Assignment) := do
  return (← joinKey join row, row)

/-- The rows with a given join key. -/
def matching (table : List (List Value × Assignment)) (key : List Value) : List Assignment :=
  (table.filter fun entry => Value.eqList entry.1 key).map Prod.snd

/-- Probes the relation once for each row. -/
def iterate (a : Atom) (rows : Rows Assignment) : Rows Assignment :=
  rows.bind fun row =>
    (assignments a (a.relationBinding row)).map fun found => .ok (row.merge found)

/-- Reads the relation once the first row arrives and looks each row up in what it has read. -/
def intermediate (a : Atom) (join : List Variable) (constants : Assignment)
    (rows : Rows Assignment) : Rows Assignment :=
  match rows with
  | .done => .done
  | .broken fault => .broken fault
  | rows@(.row _ _) => .ofChecked do
    let table ← ((assignments a (a.relationBinding constants)).map (keyed join)).collect
    return rows.bind fun row => .ofChecked do
      let key ← joinKey join row
      return .ofList ((matching table key).map fun found => row.merge found)

/-- Collects all rows and reads the relation once, if there are any. -/
def filter (a : Atom) (join : List Variable) (constants : Assignment)
    (rows : Rows Assignment) : Rows Assignment :=
  .ofChecked do
    let table ← (rows.map (keyed join)).collect
    if table.isEmpty then return .done
    return (assignments a (a.relationBinding constants)).bind fun found => .ofChecked do
      let key ← joinKey join found
      return .ofList ((matching table key).map fun row => row.merge found)

/-- Extends rows by the tuples of an atom. -/
def extend (strategy : JoinStrategy) (a : Atom) (join : List Variable) (constants : Assignment)
    (rows : Rows Assignment) : Rows Assignment :=
  match strategy with
  | .iterate => iterate a rows
  | .intermediate => intermediate a join constants rows
  | .filter => filter a join constants rows

/-- Chooses the strategy of each step. -/
abbrev Choice := Step → Checked JoinStrategy

/-- The strategies of the plan itself. -/
def planned : Choice := fun s => .ok s.strategy

/-- A strategy that is given for a step; null keeps the planned one. -/
def given (strategy : Value) (s : Step) : Checked JoinStrategy :=
  match strategy with
  | .null => planned s
  | v => JoinStrategy.ofValue? v

/-- Given strategies: those for single atoms take precedence over the one for all. -/
def chosen (all : Value) (byAtom : Nat → Option Value) : Choice :=
  fun s => given ((byAtom s.atom).getD all) s

/-- The strategies given for a plan. Each of them has to be a key, even if the step is not reached. -/
def chosenFor (p : Plan) (all : Value) (byAtom : Nat → Option Value) : Checked Choice := do
  p.allSteps.forM fun s => ((byAtom s.atom).getD all).requireKey
  return chosen all byAtom

/-- Executes steps one after the other. All of them are set up before the first row. -/
def runSteps (choose : Choice) (q : QueryGraph) : List Step → Rows Assignment →
    Checked (Rows Assignment)
  | [], rows => .ok rows
  | s :: rest, rows => do
    let a ← q.atom s.atom
    let strategy ← choose s
    runSteps choose q rest (extend strategy a s.boundVariables q.constants rows)

/-- A row together with one result of each branch, in all combinations; the last branch varies
fastest. -/
def combine : List (List Assignment) → Assignment → Rows Assignment
  | [], row => .single row
  | results :: rest, row =>
    (Rows.ofList results).bind fun result => combine rest (row.merge result)

mutual

/-- Executes a plan for some rows. Branches are executed for each row on its own. -/
def run (choose : Choice) (q : QueryGraph) : Plan → Rows Assignment → Rows Assignment
  | .node steps branches _ _, rows => .ofChecked do
    let extended ← runSteps choose q steps rows
    if branches.isEmpty then return extended
    return extended.bind fun row => .ofChecked do
      match ← runBranches choose q branches row with
      | none => return .done
      | some results => return combine results row

/-- The results of all branches for a row, or none as soon as a branch has no result. -/
def runBranches (choose : Choice) (q : QueryGraph) :
    List Plan → Assignment → Checked (Option (List (List Assignment)))
  | [], _ => .ok (some [])
  | p :: rest, row => do
    let results ← (run choose q p (.single row)).collect
    if results.isEmpty then return none
    return (← runBranches choose q rest row).map (results :: ·)

end

end Execution

/-- The results of a query with its variables, in the order of their first occurrence. Asking for
the rows executes the plan. -/
structure Cursor where
  vars : List Variable
  rows : Unit → Rows Assignment

namespace Cursor

/-- The rows as tuples of some variables, of all of them unless an order is given. -/
def tuples (c : Cursor) (order : Option (List Variable)) : Rows (List Value) :=
  (c.rows ()).map fun row => (order.getD c.vars).mapM row.get

/-- The rows as tuples of an order that is given as a value; null stands for all variables. -/
def tuplesOf (c : Cursor) (order : Value) : Rows (List Value) :=
  match order with
  | .null => c.tuples none
  | order => .ofChecked do
    let names ← order.elements
    return (c.rows ()).map fun row => names.mapM row.getNamed

/-- Reads how many rows are to be taken; null takes all. -/
def parseLimit (given : Value) : Checked (Option Nat) :=
  match given, given.integer? with
  | .null, _ => .ok none
  | _, none => .error (.usage .invalidLimit)
  | _, some n =>
    if n = -1 || !inWord n then .error (.usage .invalidLimit)
    else if n < 0 then .error (.usage .negativeLimit)
    else .ok (some n.toNat)

def description (c : Cursor) : String :=
  "Cursor(variables=" ++ Value.description (Value.names (c.vars.map Variable.name)) ++ ")"

end Cursor

namespace Plan

/-- Executes a plan with chosen strategies, beginning with the constants of the query. -/
def executeWith (p : Plan) (choose : Execution.Choice) (q : QueryGraph) : Cursor where
  vars := q.vars
  rows := fun _ => Execution.run choose q p (.single q.constants)

def execute (p : Plan) (q : QueryGraph) : Cursor := p.executeWith Execution.planned q

end Plan

namespace QueryGraph

/-- Plans a query for the estimates of an estimator and executes it. -/
def evaluateWith (q : QueryGraph) (e : Estimator) (m : CostModel) : Checked Cursor := do
  return (← q.planWith e m).execute q

/-- Plans and executes a query. -/
def evaluate (q : QueryGraph) (m : CostModel) : Checked Cursor := q.evaluateWith .standard m

end QueryGraph

end JoinOrder
