import ObjectHeap.Outcome

/-! # Integer ranges

The arithmetic progressions `start, start + step, ...` that stop before `stop`, over
64-bit signed integers.
-/

namespace ObjectHeap

/-- An arithmetic progression. -/
structure IntRange where
  start : Int64
  stop : Int64
  step : Int64
deriving DecidableEq

namespace IntRange

/-- `n` moved to the nearest 64-bit signed integer. -/
def saturate (n : Int) : Int :=
  if n < Int64.minValue.toInt then Int64.minValue.toInt
  else if Int64.maxValue.toInt < n then Int64.maxValue.toInt
  else n

/-- `n` if it is a 64-bit signed integer. -/
def signed (n : Int) : Except Fault Int :=
  if Int64.minValue.toInt ≤ n ∧ n ≤ Int64.maxValue.toInt then .ok n else .error .arithmetic

/-- The distance from `start` to `stop` in the direction of `step`, capped at the largest
64-bit signed integer. -/
def distance (r : IntRange) : Int :=
  if 0 < r.step.toInt then saturate (r.stop.toInt - r.start.toInt)
  else saturate (r.start.toInt - r.stop.toInt)

/-- The number of steps that fit the distance. A zero step has none, and faults if there is
a distance to cover. -/
def len (r : IntRange) : Except Fault Nat :=
  if r.distance ≤ 0 then .ok 0
  else if r.step.toInt = 0 then .error .arithmetic
  else
    let step := r.step.toInt.natAbs
    .ok ((r.distance.toNat + step - 1) / step)

/-- The member at an index, if the range is that long. The index wraps to a 64-bit signed integer
before it is multiplied. -/
def nth? (r : IntRange) (index : Nat) : Except Fault (Option Int64) := do
  if (← r.len) ≤ index then return none
  let ahead ← signed (r.step.toInt * (Int64.ofNat index).toInt)
  let member ← signed (r.start.toInt + ahead)
  return some (Int64.ofInt member)

end IntRange

end ObjectHeap
