import JoinOrder.Value.Text

/-! # Labels

A relation is shown by its name and its attributes, an atom by the name of its relation and its
variables. The name may be any value; what follows it is absent if it consists of names that are no
texts. -/

namespace JoinOrder

structure Label where
  name : Value
  rest : Option String
deriving Inhabited

namespace Label

/-- Names behind the name, separated by commas. -/
def ofNames (name : Value) (first : String) (names : List Name) (last : String) : Label where
  name := name
  rest := (names.mapM Name.text?).map fun texts => Value.bracketed first texts last

def text (l : Label) : String := l.name.display ++ l.rest.getD ""

end Label
end JoinOrder
