/-! # Names

Attributes and variables go by names. A name is a text as a rule, but any other key can stand for
one as well. Of such a key only its form is kept, which equal keys have in common. -/

namespace JoinOrder

inductive Name
  | text (s : String)
  | key (form : String)
deriving DecidableEq, Inhabited

namespace Name

/-- The text of a name that is one. -/
def text? : Name → Option String
  | text s => some s
  | key _ => none

/-- The text of a name, or else the form of the key. -/
def display : Name → String
  | text s => s
  | key form => form

/-- Names separated by commas. -/
def joined (names : List Name) : String := String.intercalate ", " (names.map display)

/-- Texts are ordered by their characters. Other keys come behind them. -/
def precedes : Name → Name → Bool
  | text a, text b => a < b
  | text _, key _ => true
  | key _, text _ => false
  | key a, key b => a < b

instance : LT Name := ⟨fun a b => a.precedes b = true⟩

instance : DecidableLT Name := fun a b => inferInstanceAs (Decidable (a.precedes b = true))

end Name
end JoinOrder
