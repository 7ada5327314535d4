import JoinOrder.Fault

/-! # Rows

A finite sequence of results that are produced one at a time and may break off with a fault.
What comes after the rows that are taken is never computed, so a fault behind them does not
show. -/

namespace JoinOrder

inductive Rows (α : Type)
  | done
  | broken (fault : Fault)
  | row (head : α) (tail : Unit → Rows α)

namespace Rows

variable {α β : Type}

instance : Inhabited (Rows α) := ⟨done⟩

def ofList : List α → Rows α
  | [] => done
  | x :: xs => row x fun _ => ofList xs

def single (x : α) : Rows α := row x fun _ => done

/-- The rows of a result that may be a fault as a whole. -/
def ofChecked : Checked (Rows α) → Rows α
  | .ok rows => rows
  | .error fault => broken fault

def append : Rows α → (Unit → Rows α) → Rows α
  | done, more => more ()
  | broken fault, _ => broken fault
  | row x tail, more => row x fun _ => append (tail ()) more

/-- The rows that each row leads to, one after the other. -/
def bind : Rows α → (α → Rows β) → Rows β
  | done, _ => done
  | broken fault, _ => broken fault
  | row x tail, f => append (f x) fun _ => bind (tail ()) f

/-- Each row is replaced, left out, or the end. -/
def filterMap (f : α → Checked (Option β)) : Rows α → Rows β
  | done => done
  | broken fault => broken fault
  | row x tail =>
    match f x with
    | .ok (some y) => row y fun _ => filterMap f (tail ())
    | .ok none => filterMap f (tail ())
    | .error fault => broken fault

def map (f : α → Checked β) (rows : Rows α) : Rows β :=
  rows.filterMap fun x => (f x).map some

/-- The first rows. -/
def take : Nat → Rows α → Rows α
  | 0, _ => done
  | _ + 1, done => done
  | _ + 1, broken fault => broken fault
  | 1, row x _ => row x fun _ => done
  | n + 2, row x tail => row x fun _ => take (n + 1) (tail ())

/-- The first rows, or all of them. -/
def limited (limit : Option Nat) (rows : Rows α) : Rows α :=
  match limit with
  | some n => rows.take n
  | none => rows

def collectAfter (found : List α) : Rows α → Checked (List α)
  | done => .ok found.reverse
  | broken fault => .error fault
  | row x tail => collectAfter (x :: found) (tail ())

/-- All rows, or the fault that they break off with. -/
def collect (rows : Rows α) : Checked (List α) := collectAfter [] rows

/-- The first row, if there is one. -/
def first? : Rows α → Checked (Option α)
  | done => .ok none
  | broken fault => .error fault
  | row x _ => .ok (some x)

end Rows
end JoinOrder
