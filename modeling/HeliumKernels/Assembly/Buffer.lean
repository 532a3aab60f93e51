/-
  HeliumKernels.Assembly.Buffer

  The instruction buffer: half-words of a fixed capacity and a cursor that
  says how many of them are code.  Appending checks the capacity first; once
  an instruction does not fit, nothing more is appended to the kernel.
  Problems are recorded as faults, never raised.  `finish` turns a kernel
  with a fatal fault into a bare return, so that what is exposed is either
  the whole kernel or harmless.
-/
import HeliumKernels.Assembly.Fault
import HeliumKernels.Trap

namespace HeliumKernels

/-- Why a buffer cannot be used. -/
inductive BufferError where
  | tooSmall (capacity minimum : Nat)
deriving DecidableEq, Repr

/-- Wording of the cause. -/
def BufferError.message : BufferError → String
  | tooSmall capacity minimum =>
    s!"buffer of {capacity} half-words is smaller than the {minimum} half-word minimum"

/-- A finished kernel: its code and the faults recorded for it. -/
structure Kernel where
  code : Array UInt16
  faults : List Fault
deriving DecidableEq, Repr

namespace Kernel

/-- Size in bytes. -/
def byteSize (k : Kernel) : Nat :=
  2 * k.code.size

/-- Address to call for a kernel stored at `base`; the lowest bit selects the
    Thumb state. -/
def entryAddress (base : Nat) : Nat :=
  base ||| 1

/-- Whether nothing was recorded. -/
def isValid (k : Kernel) : Bool :=
  k.faults.isEmpty

/-- Whether a fatal fault was recorded. -/
def hasFatalFault (k : Kernel) : Bool :=
  k.faults.any Fault.isFatal

/-- Summary of the faults, if there are any. -/
def errorText? (k : Kernel) : Option String :=
  k.faults.head?.map fun fault =>
    s!"kernel generation recorded {k.faults.length} fault(s), first: {fault.message}"

end Kernel

/-- A slot reserved for an instruction that is not known yet. -/
structure Slot where
  position : Nat
  width : Width
deriving DecidableEq, Repr

/-- Half-words of a fixed capacity, of which the first `cursor` are code. -/
structure Buffer where
  /-- The half-words from the first to the last that was ever given or written;
      those behind them are zero. -/
  words : Array UInt16
  /-- Number of half-words the buffer can hold. -/
  capacity : Nat
  cursor : Nat
  faults : List Fault
  /-- An instruction of the current kernel did not fit. -/
  exhausted : Bool
deriving DecidableEq, Repr

namespace Buffer

/-- Smallest usable capacity: one wide instruction. -/
def minCapacity : Nat := 2

/-- The return instruction. -/
def returnWord : UInt16 := 0x4770

/-- An empty buffer over the given half-words, whatever they hold. -/
def ofWords (words : Array UInt16) : Except BufferError Buffer :=
  if words.size < minCapacity then .error (.tooSmall words.size minCapacity)
  else .ok ⟨words, words.size, 0, [], false⟩

/-- An empty buffer of zeroed half-words. -/
def ofCapacity (capacity : Nat) : Except BufferError Buffer :=
  if capacity < minCapacity then .error (.tooSmall capacity minCapacity)
  else .ok ⟨#[], capacity, 0, [], false⟩

/-- An empty buffer over half-words of its own, which must fit one allocation. -/
def allocate (capacity : Nat) : Except Trap (Except BufferError Buffer) := do
  return ofCapacity (← Checked.allocation 2 capacity)

/-- The code so far. -/
def code (b : Buffer) : Array UInt16 :=
  b.words.extract 0 b.cursor

/-- Whether a fatal fault was recorded. -/
def hasFatalFault (b : Buffer) : Bool :=
  b.faults.any Fault.isFatal

/-- The kernel as it stands. -/
def kernel (b : Buffer) : Kernel :=
  ⟨b.code, b.faults⟩

/-- Record a fault. -/
def record (b : Buffer) (fault : Fault) : Buffer :=
  { b with faults := b.faults ++ [fault] }

/-- Start a new kernel; the half-words stay as they are. -/
def reset (b : Buffer) : Buffer :=
  { b with cursor := 0, faults := [], exhausted := false }

/-- Write a half-word at a position that lies in `words` or right behind them. -/
def put (words : Array UInt16) (position : Nat) (hw : UInt16) : Array UInt16 :=
  if h : position < words.size then words.set position hw h else words.push hw

/-- Write half-words from `position` on. -/
def store (words : Array UInt16) (position : Nat) : List UInt16 → Array UInt16
  | [] => words
  | hw :: rest => store (put words position hw) (position + 1) rest

/-- Append an encoded instruction if it fits. -/
def append (b : Buffer) (word : Word) : Buffer :=
  if b.exhausted then b
  else if b.capacity < b.cursor + word.width.halfWords then
    { b with exhausted := true }.record (.capacityExceeded b.capacity)
  else
    { b with
      words := store b.words b.cursor word.halfWords
      cursor := b.cursor + word.width.halfWords }

/-- Assemble and append; operands that do not fit leave a no-op. -/
def emit (b : Buffer) (i : Instruction) : Buffer :=
  match i.assemble with
  | .ok word => b.append word
  | .error error => (b.record (.encoding b.cursor error)).append (.nop i.width)

/-- Byte displacement of `destination` as a branch at `source` sees it: the
    processor reads the program counter four bytes ahead.  The distance is
    taken modulo `2 ^ 32`. -/
def displacement (source destination : Nat) : Except Trap Int := do
  let distance := Int.bmod ((destination : Int) - source) 0x100000000
  let bytes ← Checked.int32 (distance * 2)
  Checked.int32 (bytes - 4)

/-- Byte offset of a position. -/
def byteOffset (position : Nat) : Except Trap Nat :=
  Checked.below 0x10000000000000000 (position * 2)

/-- Branch to a known position, narrow if that reaches. -/
def branchTo (b : Buffer) (target : Nat) (cond : Condition) : Except Trap Buffer := do
  let offset ← displacement b.cursor target
  if Instruction.branchFits cond .narrow offset then
    return b.emit (.branch cond offset .narrow)
  else if Instruction.branchFits cond .wide offset then
    return b.emit (.branch cond offset .wide)
  else
    return (b.record (.displacementOverflow b.cursor target offset "Branch")).append (.nop .wide)

/-- Loop end that goes back to a known position. -/
def loopEnd (b : Buffer) (target : Nat) (tailPredicated : Bool) : Except Trap Buffer := do
  let offset ← displacement b.cursor target
  let back ← Checked.int32 (-offset)
  if 0 ≤ back ∧ back ≤ Instruction.loopRange then
    return b.emit (.loopEnd back tailPredicated)
  else
    return (b.record (.displacementOverflow b.cursor target offset "LoopEnd")).append (.nop .wide)

/-- Reserve a slot of the given width with a no-op. -/
def reserve (b : Buffer) (width : Width) : Slot × Buffer :=
  (⟨b.cursor, width⟩, b.append (.nop width))

/-- Name of the instruction in a displacement fault. -/
def branchName : Instruction → String
  | .loopStart .. => "LoopStart"
  | .loopEnd .. => "LoopEnd"
  | _ => "Branch"

/-- Destination a rejected offset would have led to, not below zero. -/
def rejectedDestination (position : Nat) (offset : Int) : Nat :=
  ((position : Int) + Int.tdiv (offset + 4) 2).toNat

/-- Fill a reserved slot.  A slot that lies beyond the code is left alone. -/
def patch (b : Buffer) (slot : Slot) (i : Instruction) : Buffer :=
  if b.cursor < slot.position + slot.width.halfWords then b
  else if i.width ≠ slot.width then
    b.record (.placeholderWidth slot.position slot.width i.width)
  else
    match i.assemble with
    | .ok word => { b with words := store b.words slot.position word.halfWords }
    | .error (.branchOutOfRange offset _ _) | .error (.oddBranchOffset offset) =>
      b.record (.displacementOverflow slot.position (rejectedDestination slot.position offset)
        offset (branchName i))
    | .error error => b.record (.encoding slot.position error)

/-- Close the kernel: a fatal fault turns it into a bare return. -/
def finish (b : Buffer) : Buffer :=
  if b.hasFatalFault then { b with words := put b.words 0 returnWord, cursor := 1 }
  else b

end Buffer

end HeliumKernels
