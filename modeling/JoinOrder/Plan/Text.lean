import JoinOrder.Plan.Basic

/-! # Plans in readable form, and the log of a planning run

A plan keeps what was considered at each step, so the log is read off the finished plan. -/

namespace JoinOrder

namespace Step

def text (s : Step) : String :=
  match s.kind with
  | .lookup => "LOOKUP " ++ s.label
  | .join => s.strategy.text.toUpper ++ " " ++ s.label

/-- The step with its sizes. -/
def line (s : Step) : String :=
  let estimate := s.estimate.text (.ofNat s.atom)
  s!"{s.text}  [B={s.boundSize.text}, L={s.extent.text}, out={s.fanout.text}, est={estimate}]"

end Step

namespace Plan

def padding (n : Nat) : String := String.ofList (List.replicate n ' ')

mutual

/-- One line for each step, the branches indented below the line that announces them. -/
def lines (indentation : Nat) : Plan → List String
  | node steps branches cut _ =>
    let pad := padding indentation
    steps.map (fun s => pad ++ s.line) ++
      if branches.isEmpty then []
      else
        let names := Name.joined (Variable.names cut)
        (pad ++ s!"SPLIT on ({names}) into {branches.length} components") ::
          branchLines indentation branches

def branchLines (indentation : Nat) : List Plan → List String
  | [] => []
  | p :: rest =>
    (padding indentation ++ s!"  <- component (est. {p.cardinality.text})") ::
      (lines (indentation + 4) p ++ branchLines indentation rest)

end

end Plan

/-- What a planning run reports. -/
inductive PlanEvent
  | planning (query : QueryGraph)
  | fellApart (components : List (List Nat))
  | considered (estimates : List (Nat × Estimate))
  | selected (step : Step)
  | finished (plan : Plan)

namespace PlanEvent

/-- The parts of a report. Costs are written by the given function. -/
def parts (writeCost : Binary64 → String) : PlanEvent → List String
  | planning query => ["Planning query", query.text]
  | fellApart components =>
    let lists := components.map fun c => Value.list (c.map .ofNat)
    ["Remaining atoms fall apart into components", Value.description (.list lists)]
  | considered estimates =>
    ["Frontier estimates:",
      String.intercalate ", " (estimates.map fun (atom, e) => e.text (.ofNat atom))]
  | selected step =>
    let costs := match step.costs with
      | some c => c.textWith writeCost
      | none => "n/a"
    ["Selected step", step.text, "with costs", costs]
  | finished plan => ["Final plan:", String.intercalate "\n" (plan.lines 0)]

/-- The parts of the final report stand on lines of their own. -/
def separator : PlanEvent → String
  | finished _ => "\n"
  | _ => " "

end PlanEvent

namespace Plan

/-- Inserts atoms and reports by the least atom, which comes first in its list. -/
def insertPart (part : List Nat × List PlanEvent) :
    List (List Nat × List PlanEvent) → List (List Nat × List PlanEvent)
  | [] => [part]
  | first :: rest =>
    if part.1.headD 0 < first.1.headD 0 then part :: first :: rest
    else first :: insertPart part rest

/-- Numbers in increasing order. -/
def increasing (atoms : List Nat) : List Nat :=
  (List.range (atoms.foldl max 0 + 1)).filter (· ∈ atoms)

mutual

/-- The reports of the run that led to a plan. The parts of a cut are planned in the order of
their least atoms, which need not be the order of the branches. -/
def events : Plan → List PlanEvent
  | node steps branches _ _ =>
    let own := steps.flatMap fun s => [.considered s.candidates, .selected s]
    let parts := branchEvents branches
    if parts.isEmpty then own
    else own ++ .fellApart (parts.map Prod.fst) :: parts.flatMap Prod.snd

def branchEvents : List Plan → List (List Nat × List PlanEvent)
  | [] => []
  | p :: rest => insertPart (increasing p.joinOrder, events p) (branchEvents rest)

end

/-- The reports of a whole run. -/
def report (p : Plan) (query : QueryGraph) : List PlanEvent :=
  .planning query :: p.events ++ [.finished p]

end Plan
end JoinOrder
