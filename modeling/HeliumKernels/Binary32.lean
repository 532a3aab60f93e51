/-
  HeliumKernels.Binary32

  Single precision numbers as bit patterns.  A finite number is an integer
  times a power of two; rounding takes an exact ratio to the nearest one, ties
  going to the even one, with gradual underflow and overflow to infinity.
-/

namespace HeliumKernels

/-- Fused multiply-add on bit patterns: product of the first two plus the third. -/
abbrev MulAdd := UInt32 → UInt32 → UInt32 → UInt32

namespace Binary32

/-- The sign bit alone. -/
def signBit : UInt32 := 0x80000000

/-- Bits of positive infinity, beyond every finite magnitude. -/
def infinityBits : UInt32 := 0x7F800000

/-- Whether the sign bit is set. -/
@[inline] def isNegative (x : UInt32) : Bool :=
  signBit ≤ x

/-- Bits without the sign. -/
@[inline] def magnitude (x : UInt32) : UInt32 :=
  x &&& 0x7FFFFFFF

/-- Whether the pattern is not a number. -/
@[inline] def isNaN (x : UInt32) : Bool :=
  infinityBits < magnitude x

/-- Whether the pattern is an infinity. -/
@[inline] def isInfinite (x : UInt32) : Bool :=
  magnitude x == infinityBits

/-- Whether the pattern is a zero. -/
@[inline] def isZero (x : UInt32) : Bool :=
  magnitude x == 0

/-- A pattern from its sign and its other bits. -/
@[inline] def ofMagnitude (negative : Bool) (bits : UInt32) : UInt32 :=
  if negative then signBit ||| bits else bits

/-- The pattern that stands for every result that is not a number. -/
def nan : UInt32 := 0x7FC00000

/-- Infinity of a sign. -/
@[inline] def infinity (negative : Bool) : UInt32 :=
  ofMagnitude negative infinityBits

/-- Zero of a sign. -/
@[inline] def zero (negative : Bool) : UInt32 :=
  ofMagnitude negative 0

/-! ## Rounding a ratio -/

/-- Smallest exponent of a unit in the last place. -/
def minUnit : Int := -149

/-- Exponent of the power of two at or below `num / den`. -/
def floorLog (num den : Nat) : Int :=
  let estimate : Int := (num.log2 : Int) - den.log2
  if den <<< estimate.toNat ≤ num <<< (-estimate).toNat then estimate else estimate - 1

/-- Nearest integer to `num / den`, ties to even. -/
def nearest (num den : Nat) : Nat :=
  let quotient := num / den
  let rest := num % den
  if den < 2 * rest ∨ (2 * rest = den ∧ quotient % 2 = 1) then quotient + 1 else quotient

/-- Exponent of the unit in which a number from `2 ^ log` up is rounded. -/
def unitOf (log : Int) : Int :=
  max minUnit (log - 23)

/-- The number of so many units.  A carry out of the significand runs into the
    exponent field. -/
def pack (negative : Bool) (unit : Int) (significand : Nat) : UInt32 :=
  let bits := (unit - minUnit).toNat <<< 23 + significand
  if infinityBits.toNat ≤ bits then infinity negative else ofMagnitude negative (UInt32.ofNat bits)

/-- Nearest number to a ratio of a sign. -/
def roundRatio (negative : Bool) (num den : Nat) : UInt32 :=
  if num = 0 then zero negative
  else
    let unit := unitOf (floorLog num den)
    pack negative unit (nearest (num <<< (-unit).toNat) (den <<< unit.toNat))

/-- Nearest number to a ratio. -/
def ofRatio (num : Int) (den : Nat) : UInt32 :=
  roundRatio (num < 0) num.natAbs den

/-- Equality of values: zeros are equal, and what is not a number equals nothing. -/
def eq (x y : UInt32) : Bool :=
  !isNaN x && !isNaN y && (x == y || (isZero x && isZero y))

end Binary32

end HeliumKernels
