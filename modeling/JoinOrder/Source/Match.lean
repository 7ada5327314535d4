import JoinOrder.Source.Basic

/-! # Index keys

A source can be bisected on the prefixes of its sort key, and, since positions ascend in stored
order, on every prefix followed by the position column. `Source.bestMatch` chooses among these
keys for a set of bound attributes. -/

namespace JoinOrder

/-- The key that serves a lookup, and whether it consists of exactly the bound attributes. -/
structure IndexMatch where
  key : List Name
  exact : Bool
deriving DecidableEq

namespace Source

/-- All bisectable attribute sequences: plain prefixes first, shorter ones before longer ones. -/
def indexKeys (s : Source) : List (List Name) :=
  let sortKey := s.sortKey
  let plain := (List.range sortKey.length).map fun n => sortKey.take (n + 1)
  match s.position with
  | none => plain
  | some position =>
    plain ++ (List.range (sortKey.length + 1)).map fun n => sortKey.take n ++ [position]

/-- The first key that equals the bound attributes, or else the first of the longest keys that
they cover. -/
def bestAmong (bound : List Name) : (best : Option IndexMatch) → List (List Name) →
    Option IndexMatch
  | best, [] => best
  | best, key :: rest =>
    if NameSet.agree key bound then some ⟨key, true⟩
    else if NameSet.covers bound key && best.all (·.key.length < key.length) then
      bestAmong bound (some ⟨key, false⟩) rest
    else bestAmong bound best rest

def bestMatch (s : Source) (bound : List Name) : Option IndexMatch :=
  bestAmong bound none s.indexKeys

/-- The best key for attributes that are given as a value. -/
def bestMatchOf (s : Source) (given : Value) : Checked (Option IndexMatch) := do
  return s.bestMatch (← given.keyNames)

end Source
end JoinOrder
