import ObjectHeap.Binary64

/-! # Numbers

The numeric view of integers, truth values and floats, with an equality that is
exact across the two representations.
-/

namespace ObjectHeap

/-- A number in either of its two representations. -/
inductive Number where
  | int (n : Int64)
  | float (x : Binary64)
deriving DecidableEq

namespace Number

/-- The integer that a number equals exactly, if any. -/
def exactInt? : Number → Option Int64
  | .int n => some n
  | .float x => x.exactInt?

/-- The number as a float, rounded to nearest if it is a wide integer. -/
def toBinary64 : Number → Binary64
  | .int n => Binary64.ofInt n.toInt
  | .float x => x

/-- Numeric equality. An integer and a float are equal only if the float is that integer. -/
def equals : Number → Number → Bool
  | .int a, .int b => a == b
  | .float x, .float y => x.eq y
  | .int n, .float x => x.exactInt? == some n
  | .float x, .int n => x.exactInt? == some n

end Number

end ObjectHeap
