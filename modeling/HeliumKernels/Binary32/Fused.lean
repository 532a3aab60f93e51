/-
  HeliumKernels.Binary32.Fused

  Multiply-add with a single rounding, on 64-bit words.  A number other than
  zero is held as a word whose leading one is bit 61, which has room for the
  exact product of two significands, and the exponent of that bit.  Of two
  addends the smaller one is shifted to the exponent of the larger one; bits
  that fall out set the last place, far below the place where the sum is
  rounded, so that the rounding sees which side of a tie it is on.
-/
import HeliumKernels.Binary32

namespace HeliumKernels.Binary32

/-- Exponent field. -/
@[inline] def exponentField (x : UInt32) : UInt64 :=
  (magnitude x >>> 23).toUInt64

/-- Exponent field of infinities and of what is not a number. -/
def specialField : UInt64 := 255

/-- Significand in units of the last place. -/
@[inline] def significand (x : UInt32) : UInt64 :=
  let fraction := (x &&& 0x7FFFFF).toUInt64
  if exponentField x = 0 then fraction else 0x800000 ||| fraction

/-- Exponent of the unit in the last place, counted from the smallest unit. -/
@[inline] def unitIndex (x : UInt32) : UInt64 :=
  if exponentField x = 0 then 0 else exponentField x - 1

/-- Place of the leading one of a word other than zero, found by halving. -/
@[inline] def leadingOne (word : UInt64) : UInt64 :=
  let a : UInt64 := if word < 0x100000000 then 0 else 32
  let b : UInt64 := if word >>> a < 0x10000 then a else a + 16
  let c : UInt64 := if word >>> b < 0x100 then b else b + 8
  let d : UInt64 := if word >>> c < 0x10 then c else c + 4
  let e : UInt64 := if word >>> d < 4 then d else d + 2
  if word >>> e < 2 then e else e + 1

/-- Place of the leading one of an addend. -/
def leadingPlace : UInt64 := 61

/-- A word shifted until its leading one is in place. -/
@[inline] def leftAlign (word : UInt64) : UInt64 :=
  word <<< (leadingPlace - leadingOne word)

/-- Shift right; bits that fall out set the last place. -/
@[inline] def shiftRightSticky (word shift : UInt64) : UInt64 :=
  if shift < 64 then
    let kept := word >>> shift
    if kept <<< shift = word then kept else kept ||| 1
  else if word = 0 then 0 else 1

/-- Shift right to the nearest integer, ties to even, for a word below `2 ^ 63`. -/
@[inline] def shiftRightNearest (word shift : UInt64) : UInt64 :=
  if shift = 0 then word
  else if 64 ≤ shift then 0
  else
    let quotient := word >>> shift
    let rest := word - (quotient <<< shift)
    let half := (1 : UInt64) <<< (shift - 1)
    if half < rest || (half == rest && quotient % 2 == 1) then quotient + 1 else quotient

/-- Exponent of the smallest unit, counted from the smallest product of units and
    from the leading place. -/
def minUnitIndex : UInt64 := 149 + leadingPlace

/-- Nearest number to a word whose leading place has the given exponent, counted
    from the smallest product of units. -/
@[inline] def roundWord (negative : Bool) (exponent word : UInt64) : UInt32 :=
  let unit := max (minUnitIndex + 23) (exponent + leadingOne word) - 23
  let count :=
    if exponent ≤ unit then shiftRightNearest word (unit - exponent)
    else word <<< (exponent - unit)
  let bits := ((unit - minUnitIndex) <<< 23) + count
  if infinityBits.toUInt64 ≤ bits then infinity negative else ofMagnitude negative bits.toUInt32

/-- Sum of two addends, the first of which is not the smaller one. -/
@[inline] def addWords (negative : Bool) (exponent word : UInt64) (negative2 : Bool)
    (exponent2 word2 : UInt64) : UInt32 :=
  let shifted := shiftRightSticky word2 (exponent - exponent2)
  if negative == negative2 then roundWord negative exponent (word + shifted)
  else if word = shifted then zero false
  else roundWord negative exponent (word - shifted)

/-- Multiply-add of finite numbers.  A sum that is exactly zero is negative only
    if both parts are. -/
@[inline] def finiteMulAdd (x y z : UInt32) : UInt32 :=
  let negative := isNegative x != isNegative y
  let product := significand x * significand y
  let addend := significand z
  if product = 0 then
    if addend = 0 then zero (negative && isNegative z) else z
  else
    let exponent := unitIndex x + unitIndex y + leadingOne product
    let word := leftAlign product
    if addend = 0 then roundWord negative exponent word
    else
      let exponent2 := unitIndex z + 149 + leadingOne addend
      let word2 := leftAlign addend
      if exponent2 < exponent || (exponent == exponent2 && word2 ≤ word) then
        addWords negative exponent word (isNegative z) exponent2 word2
      else
        addWords (isNegative z) exponent2 word2 negative exponent word

/-- Multiply-add in which not all numbers are finite. -/
def specialMulAdd (x y z : UInt32) : UInt32 :=
  let negative := isNegative x != isNegative y
  if isNaN x || isNaN y || isNaN z then nan
  else if isInfinite x || isInfinite y then
    if isZero x || isZero y then nan
    else if isInfinite z && isNegative z != negative then nan
    else infinity negative
  else z

/-- Multiply-add `x * y + z` with a single rounding. -/
def mulAdd : MulAdd := fun x y z =>
  if exponentField x = specialField || exponentField y = specialField ||
      exponentField z = specialField then
    specialMulAdd x y z
  else finiteMulAdd x y z

end HeliumKernels.Binary32
