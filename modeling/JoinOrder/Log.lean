import JoinOrder.Value.Shown

/-! # Logs

A log writes entries one after the other: the parts of an entry with a separator between them and
an ending behind them. A stamp, if there is one, is the first part of each entry. -/

namespace JoinOrder

structure LogEntry where
  parts : List String
  separator : String := " "
  ending : String := "\n"

namespace LogEntry

def text (e : LogEntry) : String := String.intercalate e.separator e.parts ++ e.ending

/-- What stands between the parts or behind them, which is a text; null stands for the usual one. -/
def parseText (usual : String) (given : Value) : Checked String :=
  match given with
  | .null => .ok usual
  | given => given.requireText

/-- An entry whose parts are the items of a sequence. They are written once the separator and the
ending have been read. -/
def parse (parts separator ending : Value) : Checked LogEntry := do
  let parts ← parts.elements
  let separator ← parseText " " separator
  let ending ← parseText "\n" ending
  return { parts := ← parts.mapM Value.display?, separator, ending }

/-- The entry with a stamp before its parts. -/
def stamped (e : LogEntry) (stamp : Option String) : LogEntry :=
  { e with parts := stamp.toList ++ e.parts }

end LogEntry

/-- What stands before the entries of a log. -/
inductive Stamp
  /-- A fixed text, which is left out if it is empty. -/
  | fixed (text : String)
  /-- A text that depends on how many entries came before. -/
  | counted (text : Nat → String)

/-- A fixed stamp, which is a text; what does not count as true is no stamp. -/
def Stamp.parse (given : Value) : Checked Stamp :=
  if given.isTrue then given.requireText.map .fixed else .ok (.fixed "")

/-- A stamp of a text and a number that counts the entries. -/
def Stamp.parseCounted (given : Value) : Checked Stamp := do
  let text ← given.display?
  return .counted fun n => text ++ toString n

def Stamp.before (s : Stamp) (count : Nat) : Option String :=
  match s with
  | fixed text => if text.isEmpty then none else some text
  | counted text => some (text count)

/-- All that is written for some entries; a log that is not enabled writes nothing. -/
def logText (enabled : Bool) (stamp : Stamp) (entries : List LogEntry) : String :=
  if enabled then
    String.join (entries.zipIdx.map fun (e, i) => (e.stamped (stamp.before i)).text)
  else ""

end JoinOrder
