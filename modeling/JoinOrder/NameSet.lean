import JoinOrder.Name

/-! # Sets of names

Finite sets of names, kept as strictly increasing lists. -/

namespace JoinOrder

/-- A set of names in increasing order without repetitions. -/
abbrev NameSet := List Name

namespace NameSet

def insert (name : Name) : NameSet → NameSet
  | [] => [name]
  | first :: rest =>
    if name < first then name :: first :: rest
    else if name = first then first :: rest
    else first :: insert name rest

def ofList (names : List Name) : NameSet := names.foldr insert []

/-- Every name on the left occurs on the right. -/
def covers (large small : List Name) : Bool := small.all (· ∈ large)

/-- The two lists hold the same names. -/
def agree (a b : List Name) : Bool := covers a b && covers b a

end NameSet

/-- The first name that occurs before in a list. -/
def firstRepeat : (seen : List Name) → List Name → Option Name
  | _, [] => none
  | seen, name :: rest => if name ∈ seen then some name else firstRepeat (name :: seen) rest

end JoinOrder
