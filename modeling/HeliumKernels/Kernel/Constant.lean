/-
  HeliumKernels.Kernel.Constant

  Functions that return a constant, as an integer or as a float.
-/
import HeliumKernels.Kernel.Sequence

namespace HeliumKernels.Constant

/-- Returns `value` in the first scalar register. -/
def script (value : UInt32) : Script :=
  Sequence.loadConstant .r0 value ++ [.emit (.bx .lr)]

/-- Returns the float with the given bits in the first single register. -/
def floatScript (bits : UInt32) : Script :=
  Sequence.loadConstant .r0 bits ++ [.emit (.vmovSr 0 .r0), .emit (.bx .lr)]

end HeliumKernels.Constant
