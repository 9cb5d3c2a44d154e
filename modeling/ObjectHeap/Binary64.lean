/-! # Double-precision numbers

A double-precision number is kept as its 64 bits and read exactly: every finite one
is a whole number of the smallest positive step, `2 ^ -1074`. Comparison, conversion
and the one division that is needed are defined on these whole numbers.
-/

namespace ObjectHeap

/-- A double-precision number in its interchange encoding. -/
structure Binary64 where
  bits : UInt64
deriving DecidableEq

namespace Binary64

def isNegative (x : Binary64) : Bool := 9223372036854775808 ≤ x.bits

def exponent (x : Binary64) : Nat := (x.bits / 4503599627370496 % 2048).toNat

def fraction (x : Binary64) : Nat := (x.bits % 4503599627370496).toNat

def isNaN (x : Binary64) : Bool := x.exponent == 2047 && x.fraction != 0

def isInfinite (x : Binary64) : Bool := x.exponent == 2047 && x.fraction == 0

/-- The size of a number in steps of `2 ^ -1074`. An infinity counts as the step after the
largest finite number, so that comparisons need not treat it apart. -/
def magnitude (x : Binary64) : Nat :=
  if x.exponent == 0 then x.fraction
  else (4503599627370496 + x.fraction) <<< (x.exponent - 1)

/-- A number in steps of `2 ^ -1074`, with its sign. -/
def steps (x : Binary64) : Int := if x.isNegative then -x.magnitude else x.magnitude

/-- The number of steps in one. -/
def unit : Nat := 1 <<< 1074

/-- Numerical equality: both zeros are equal, and nothing equals a NaN. -/
def eq (x y : Binary64) : Bool := !x.isNaN && !y.isNaN && x.steps == y.steps

/-- Numerical order, which holds for no NaN. -/
def le (x y : Binary64) : Bool := !x.isNaN && !y.isNaN && x.steps ≤ y.steps

/-- The integer that a number equals, if it is a whole number that fits 64 signed bits. -/
def exactInt? (x : Binary64) : Option Int64 :=
  let whole := x.steps / unit
  if !x.isNaN && x.steps % unit == 0 && Int64.minValue.toInt ≤ whole
      && whole ≤ Int64.maxValue.toInt then
    some (Int64.ofInt whole)
  else
    none

/-- The whole number nearest to `num / den`; halfway cases go to the even one. -/
def nearestEven (num den : Nat) : Nat :=
  let floor := num / den
  let rest := num % den
  if 2 * rest < den || (2 * rest == den && floor % 2 == 0) then floor else floor + 1

/-- A significand of fifty-three bits with a power of two. -/
structure Rounded where
  significand : Nat
  exponent : Int

/-- `n * 2 ^ e` for a non-negative exponent, and `n` otherwise. -/
def scaleUp (n : Nat) (e : Int) : Nat := n <<< e.toNat

/-- The number with a fifty-three-bit significand nearest to the positive quotient
`num / den`. -/
def roundQuotient (num den : Nat) : Rounded :=
  let guess : Int := (num.log2 : Int) - den.log2 - 52
  let exponent :=
    if scaleUp num (-guess) < 4503599627370496 * scaleUp den guess then guess - 1 else guess
  ⟨nearestEven (scaleUp num (-exponent)) (scaleUp den exponent), exponent⟩

namespace Rounded

/-- The least whole number that is not smaller. -/
def ceil (r : Rounded) : Nat :=
  let den := 1 <<< (-r.exponent).toNat
  (scaleUp r.significand r.exponent + den - 1) / den

/-- The size in steps of `2 ^ -1074` of a number that is not below one such step. -/
def magnitude (r : Rounded) : Nat := r.significand <<< (r.exponent + 1074).toNat

/-- The bits of a number in the normal range. A significand rounded up to fifty-four bits
carries into the exponent. -/
def encode (r : Rounded) : Nat :=
  (r.exponent + 1074).toNat * 4503599627370496 + r.significand

end Rounded

/-- The number nearest to a quotient in the normal range, or zero. -/
def ofQuotient (num den : Nat) : Binary64 :=
  if num = 0 then ⟨0⟩ else ⟨UInt64.ofNat (roundQuotient num den).encode⟩

/-- The same number with the sign bit set. -/
def negated (x : Binary64) : Binary64 := ⟨x.bits + 9223372036854775808⟩

/-- The number nearest to an integer. -/
def ofInt (n : Int) : Binary64 :=
  if n < 0 then (ofQuotient n.natAbs 1).negated else ofQuotient n.natAbs 1

end Binary64

end ObjectHeap
