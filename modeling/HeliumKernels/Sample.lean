/-
  HeliumKernels.Sample

  Reproducible operand data.  The values are multiples of one eighth between
  minus two and two, so that sums of a few hundred products of them are
  exact in single precision.
-/
import HeliumKernels.Binary32
import HeliumKernels.Trap

namespace HeliumKernels.Sample

/-- Number of different values. -/
def levelCount : Nat := 33

/-- The values from the smallest to the largest. -/
def levels : Vector UInt32 levelCount :=
  Vector.ofFn fun i => Binary32.ofRatio ((i.val : Int) - 16) 8

/-- Next state of the generator. -/
def next (state : UInt32) : UInt32 :=
  let state := state ^^^ (state <<< 13)
  let state := state ^^^ (state >>> 17)
  state ^^^ (state <<< 5)

/-- First state, which is never zero. -/
def start (seed : UInt32) : UInt32 :=
  (seed * 0x9E3779B9) ||| 1

/-- Value of a state. -/
def value (state : UInt32) : UInt32 :=
  levels.get ⟨state.toNat % levelCount, Nat.mod_lt _ (by decide)⟩

/-- Values that follow a state. -/
def follow (state : UInt32) (found : Array UInt32) : Nat → Array UInt32
  | 0 => found
  | count + 1 => follow (next state) (found.push (value (next state))) count

/-- The first `count` values of a seed. -/
def dyadic (count : Nat) (seed : UInt32) : Array UInt32 :=
  follow (start seed) #[] count

/-- An operand of `count` values, which must fit one allocation. -/
def operand (count : Nat) (seed : UInt32) : Except Trap (Array UInt32) := do
  return dyadic (← Checked.allocation 4 count) seed

end HeliumKernels.Sample
