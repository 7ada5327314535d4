import JoinOrder.Fault
import JoinOrder.Tag

/-! # States of atoms

How far each of some atoms has come in planning. All of them begin unresolved. An atom that has a
bound variable joins the frontier and stays there until it is resolved. -/

namespace JoinOrder

/-- Some atoms in increasing order, and how far they have come. -/
structure AtomStates where
  atoms : List Nat
  state : Nat → AtomState

namespace AtomStates

def start (atoms : List Nat) : AtomStates := ⟨atoms, fun _ => .unresolved⟩

/-- The atoms that have not been resolved. -/
def remaining (s : AtomStates) : List Nat := s.atoms.filter (s.state · ≠ .resolved)

/-- Unresolved atoms that are touched by a bound variable join the frontier. -/
def advance (s : AtomStates) (touched : Nat → Bool) : AtomStates where
  atoms := s.atoms
  state i := if s.state i = .unresolved ∧ touched i = true then .frontier else s.state i

def frontier (s : AtomStates) : List Nat := s.remaining.filter (s.state · = .frontier)

/-- The atoms that may be resolved next: those on the frontier, or all that remain if none is
there. -/
def candidates (s : AtomStates) : List Nat :=
  if s.frontier.isEmpty then s.remaining else s.frontier

/-- Fails for an atom that has been resolved already. -/
def requireOpen (s : AtomStates) (i : Nat) : Checked Unit :=
  if s.state i = .resolved then throw (.resolvedTwice i) else return ()

def resolve (s : AtomStates) (i : Nat) : AtomStates where
  atoms := s.atoms
  state j := if j = i then .resolved else s.state j

end AtomStates
end JoinOrder
