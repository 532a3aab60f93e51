/-
  HeliumKernels.Kernel.Request

  Everything the library can generate, as one request type.  `Request.script`
  gives the script of a request and `Buffer.fulfil` lays it out in place of
  whatever the buffer held before.
-/
import HeliumKernels.Gemm.Kernel
import HeliumKernels.Kernel.Constant
import HeliumKernels.Kernel.Peak
import HeliumKernels.Kernel.Stream
import HeliumKernels.Kernel.Triad

namespace HeliumKernels

/-- A kernel to generate. -/
inductive Request where
  /-- Return an integer. -/
  | constant (value : UInt32)
  /-- Return the float with the given bits. -/
  | constantFloat (bits : UInt32)
  /-- Triad with the scalar of the given bits. -/
  | triad (bits : UInt32)
  /-- Sequential reads, `unroll` per iteration. -/
  | stream (unroll : Nat)
  /-- Chain of `count` multiply-adds per iteration. -/
  | peak (count : Nat)
  /-- Matrix product; a pool restricts the registers of the plan. -/
  | gemm (tiling : Gemm.Tiling) (pool? : Option RegSet) (shape : Gemm.Shape)
deriving DecidableEq, Repr

/-- Script of a request. -/
def Request.script : Request → Except Trap Script
  | constant value => .ok (Constant.script value)
  | constantFloat bits => .ok (Constant.floatScript bits)
  | triad bits => .ok (Triad.script bits)
  | stream unroll => .ok (Stream.script unroll)
  | peak count => .ok (Peak.script count)
  | gemm tiling pool? shape => Gemm.script tiling pool? shape

/-- Replace whatever the buffer holds by the requested kernel. -/
def Buffer.fulfil (b : Buffer) (request : Request) : Except Trap Buffer := do
  b.generate (← request.script)

end HeliumKernels
