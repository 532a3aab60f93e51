/-
  HeliumKernels.Assembly.Fault

  Problems recorded while a kernel is laid out.  A soft fault leaves a
  working instruction stream; a fatal one makes the kernel unusable.
-/
import HeliumKernels.Instruction.Encode

namespace HeliumKernels

/-- A recorded problem.  Positions are half-word indices. -/
inductive Fault where
  /-- An instruction did not assemble and a no-op stands in its place. -/
  | encoding (position : Nat) (error : EncodingError)
  /-- A value that needed a register got none. -/
  | registerUnavailable (value : String)
  /-- A branch or loop instruction does not reach its destination. -/
  | displacementOverflow (source destination : Nat) (displacement : Int) (instruction : String)
  /-- The buffer is full. -/
  | capacityExceeded (capacity : Nat)
  /-- The kernel that was asked for does not exist. -/
  | invalidShape (reason : String)
  /-- A reserved slot was filled with an instruction of another width. -/
  | placeholderWidth (position : Nat) (expected found : Width)
deriving DecidableEq, Repr

namespace Fault

/-- Whether the fault invalidates the whole kernel. -/
def isFatal : Fault → Bool
  | encoding .. | registerUnavailable .. => false
  | displacementOverflow .. | capacityExceeded .. | invalidShape .. | placeholderWidth .. => true

/-- Wording of each fault. -/
def message : Fault → String
  | encoding position error => s!"encoding failed at half-word {position}: {error.message}"
  | registerUnavailable value => s!"no spare register left for {value}"
  | displacementOverflow source destination displacement instruction =>
    s!"displacement {displacement} from half-word {source} to {destination} " ++
      s!"does not fit {instruction}"
  | capacityExceeded capacity => s!"instruction buffer full ({capacity} half-words)"
  | invalidShape reason => s!"invalid kernel shape: {reason}"
  | placeholderWidth position expected found =>
    s!"placeholder at half-word {position} is {expected.label} but the patch is {found.label}"

end Fault

end HeliumKernels
