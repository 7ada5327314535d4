import JoinOrder.Binary64.Text

/-! # Numbers as they are given

Sizes, bounds and cost constants may be given as integers of any size or as double-precision
numbers. Two numbers are compared exactly, so an integer is not rounded first. -/

namespace JoinOrder

/-- Whether an integer fits into a signed word of 64 bits, in which things in memory are counted. -/
def inWord (n : Int) : Bool := -0x8000000000000000 ≤ n && n < 0x8000000000000000

inductive Number
  | int (n : Int)
  | real (x : Binary64)
deriving DecidableEq

namespace Number

/-- The number with its exact value; an integer may exceed the range and precision of the
representable numbers. -/
def exact : Number → Binary64
  | int n => .finite (.ofInt n)
  | real x => x

protected def lt (a b : Number) : Bool := a.exact.lt b.exact
protected def eq (a b : Number) : Bool := a.exact.eq b.exact
protected def le (a b : Number) : Bool := a.exact.le b.exact

/-- The nearest double-precision number, unless the number is an integer out of range. -/
def toBinary64? : Number → Option Binary64
  | int n => Binary64.ofInt? n
  | real x => some x

def text : Number → String
  | int n => toString n
  | real x => x.text

end Number
end JoinOrder
