/-
  HeliumKernels.Kernel.Peak

  A chain of vector multiply-adds without memory traffic.  The factors are
  one half and two, so each step adds one to the accumulator it hits; the
  chain rotates through six accumulators.
-/
import HeliumKernels.Kernel.Sequence

namespace HeliumKernels.Peak

/-- Longest chain per iteration. -/
def maxCount : Nat := 256

/-- Number of accumulators. -/
def accumulators : Nat := 6

/-- Bits of one half. -/
def half : UInt32 := 0x3F000000

/-- Bits of two. -/
def two : UInt32 := 0x40000000

/-- Iteration count. -/
def iterations : Reg := .r0

/-- Registers of the frame. -/
def frame : RegSet := RegSet.ofList [.r7]

/-- Label of the loop start. -/
def entry : Label := "entry"

/-- Label of the loop body. -/
def body : Label := "body"

/-- Clear accumulator `q`. -/
def clear (q : Nat) : Directive :=
  .emit (.vmovImm (QReg.ofField q) 0)

/-- Multiply-add number `i` of an iteration. -/
def multiplyAdd (i : Nat) : Directive :=
  .emit (.vfmaVector (QReg.ofField (i % accumulators)) 6 7)

/-- Kernel of `(iterations)` with `count` multiply-adds per iteration. -/
def script (count : Nat) : Script :=
  if 1 ≤ count ∧ count ≤ maxCount then
    Sequence.save frame true ++
    (List.range accumulators).map clear ++
    [.emit (.vmovImm 6 half),
     .emit (.vmovImm 7 two),
     .reserve entry .wide,
     .mark body] ++
    (List.range count).map multiplyAdd ++
    [.loopEnd body false,
     .bind entry (.loopStart iterations none)] ++
    Sequence.restoreAndReturn frame true
  else
    [.note (.invalidShape s!"fma count {count} outside 1..={maxCount}")]

end HeliumKernels.Peak
