import JoinOrder.Query.Graph

/-! # Bindings

While a query is planned, some variables have known values and others are bound symbolically:
their values will be available when the plan is executed. -/

namespace JoinOrder

structure Binding where
  values : Assignment
  /-- Bound variables without a known value. -/
  symbolic : List Variable

namespace Binding

/-- Variables with a known value are not symbolic. -/
def ofParts (values : Assignment) (symbolic : List Variable) : Binding :=
  { values, symbolic := (Variable.sorted symbolic).filter (· ∉ values.vars) }

/-- Known values only. -/
def ofConstants (constants : Assignment) : Binding := ofParts constants []

/-- Binds further variables, symbolically unless their values are known. -/
def bind (b : Binding) (vars : List Variable) : Binding := ofParts b.values (b.symbolic ++ vars)

/-- Whether the value of a variable is available. -/
def isKnown (b : Binding) (v : Variable) : Bool := v ∈ b.values.vars

def isBound (b : Binding) (v : Variable) : Bool := b.isKnown v || v ∈ b.symbolic

def boundVariables (b : Binding) : List Variable :=
  Variable.sorted (b.values.vars ++ b.symbolic)

/-- The same known values and the same symbolic variables. -/
def same (a b : Binding) : Bool :=
  Value.eq (.map (a.values.map fun (v, x) => (.var v, x)))
      (.map (b.values.map fun (v, x) => (.var v, x))) &&
    a.symbolic = b.symbolic

def text (b : Binding) : String :=
  let known := Value.curly (b.values.map fun (v, x) => v.text ++ ": " ++ x.display)
  let symbolic := String.intercalate ", " (b.symbolic.map Variable.text)
  if symbolic.isEmpty then known else known ++ " + [" ++ symbolic ++ "]"

/-- Fails for a binding that cannot be written. -/
def requireShown (b : Binding) : Checked Unit := do
  b.values.forM fun (v, x) => do
    let _ ← v.name.requireText
    x.requireDisplayed
  b.symbolic.forM fun v => v.name.requireText.map fun _ => ()

end Binding
end JoinOrder
