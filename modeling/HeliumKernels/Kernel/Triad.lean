/-
  HeliumKernels.Kernel.Triad

  The streaming triad `out[i] = a[i] * s + b[i]` for a scalar fixed when the
  kernel is made.  It is one tail-predicated loop: the loop start takes the
  element count and skips the body when that is zero, and lanes past the end
  of the arrays are masked.
-/
import HeliumKernels.Kernel.Sequence

namespace HeliumKernels.Triad

/-- First input. -/
def a : Reg := .r0

/-- Second input. -/
def b : Reg := .r1

/-- Output. -/
def out : Reg := .r2

/-- Element count. -/
def len : Reg := .r3

/-- The scalar. -/
def scalar : Reg := .r12

/-- Label of the loop start, which is known only after the body. -/
def entry : Label := "entry"

/-- Label of the loop body. -/
def body : Label := "body"

/-- Access to the next vector behind `rn`. -/
def next (access : Access) (q : QReg) (rn : Reg) : Directive :=
  .emit (.vecMem access q rn 16 .postIndex)

/-- Kernel of `(a, b, out, len)` for the scalar with the given bits. -/
def script (bits : UInt32) : Script :=
  [.emit (.push (RegSet.ofList [.r7, .lr]))] ++
  Sequence.loadConstant scalar bits ++
  [.reserve entry .wide,
   .mark body,
   next .load (QReg.ofField 0) b,
   next .load (QReg.ofField 1) a,
   .emit (.vfmaScalar (QReg.ofField 0) (QReg.ofField 1) scalar),
   next .store (QReg.ofField 0) out,
   .loopEnd body true,
   .bind entry (.loopStart len (some .b32)),
   .emit (.pop (RegSet.ofList [.r7, .pc]))]

end HeliumKernels.Triad
