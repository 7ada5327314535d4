import JoinOrder.NameSet

/-! # Query variables -/

namespace JoinOrder

/-- A query variable is identified by its name. -/
structure Variable where
  name : Name
deriving DecidableEq, Inhabited

namespace Variable

/-- The variable with a text as its name. -/
def named (name : String) : Variable := ⟨.text name⟩

/-- A variable is written as its name. -/
def text (v : Variable) : String := v.name.display

/-- The names of some variables in increasing order, each once. -/
def names (vars : List Variable) : NameSet := NameSet.ofList (vars.map Variable.name)

/-- Variables in increasing order of their names, each once. -/
def sorted (vars : List Variable) : List Variable := (names vars).map Variable.mk

end Variable
end JoinOrder
