/-
  HeliumKernels.Kernel.Stream

  Sequential reads: every iteration loads a fixed number of vectors behind a
  moving pointer and does nothing with them.
-/
import HeliumKernels.Kernel.Sequence

namespace HeliumKernels.Stream

/-- Most loads per iteration. -/
def maxUnroll : Nat := 64

/-- Moving source pointer. -/
def source : Reg := .r0

/-- Iteration count. -/
def iterations : Reg := .r1

/-- Label of the loop start. -/
def entry : Label := "entry"

/-- Label of the loop body. -/
def body : Label := "body"

/-- Load number `i` of an iteration. -/
def load (i : Nat) : Directive :=
  .emit (.vecMem .load (QReg.ofField (i % 4)) source 16 .postIndex)

/-- Kernel of `(source, iterations)` with `unroll` loads per iteration. -/
def script (unroll : Nat) : Script :=
  if 1 ≤ unroll ∧ unroll ≤ maxUnroll then
    [.emit (.push (RegSet.ofList [.r7, .lr])),
     .reserve entry .wide,
     .mark body] ++
    (List.range unroll).map load ++
    [.loopEnd body false,
     .bind entry (.loopStart iterations none),
     .emit (.pop (RegSet.ofList [.r7, .pc]))]
  else
    [.note (.invalidShape s!"unroll {unroll} outside 1..={maxUnroll}")]

end HeliumKernels.Stream
