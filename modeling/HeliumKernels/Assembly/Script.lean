/-
  HeliumKernels.Assembly.Script

  Kernels as scripts of directives.  A directive emits an instruction, marks
  a position under a label, or refers to a label: backward to a marked
  position, forward through a slot that is reserved first and bound once the
  destination is reached.  A label is used up by the branch that refers to
  it.  Generators produce scripts; running one over a buffer is the only way
  code gets written.
-/
import HeliumKernels.Assembly.Buffer

namespace HeliumKernels

/-- Name of a position in a script. -/
abbrev Label := String

/-- An instruction that lacks its displacement. -/
inductive Fixup where
  | branch (cond : Condition) (width : Width)
  | loopStart (rn : Reg) (tail : Option LaneSize)
  | loopEnd (tailPredicated : Bool)
deriving DecidableEq, Repr

/-- The instruction with its displacement. -/
def Fixup.fill (displacement : Int) : Fixup → Instruction
  | branch cond width => .branch cond displacement width
  | loopStart rn tail => .loopStart rn tail (some displacement)
  | loopEnd tailPredicated => .loopEnd displacement tailPredicated

/-- One step of laying out a kernel. -/
inductive Directive where
  /-- Append an instruction. -/
  | emit (i : Instruction)
  /-- Append encoded half-words. -/
  | raw (word : Word)
  /-- Name the next position. -/
  | mark (label : Label)
  /-- Name the next position and append an instruction there. -/
  | target (label : Label) (i : Instruction)
  /-- Branch to a named position. -/
  | branchTo (label : Label) (cond : Condition)
  /-- End a loop whose body starts at a named position. -/
  | loopEnd (label : Label) (tailPredicated : Bool)
  /-- Reserve a named slot. -/
  | reserve (label : Label) (width : Width)
  /-- Fill a named slot with a jump to the next position. -/
  | bind (label : Label) (fixup : Fixup)
  /-- Fill a named slot with a given instruction. -/
  | patch (label : Label) (i : Instruction)
  /-- Record a fault. -/
  | note (fault : Fault)
deriving DecidableEq, Repr

/-- Directives in order. -/
abbrev Script := List Directive

/-- A buffer with the labels that are open in it. -/
structure Assembler where
  buffer : Buffer
  targets : List (Label × Nat)
  slots : List (Label × Slot)
deriving DecidableEq, Repr

namespace Assembler

/-- An assembler without labels. -/
def start (buffer : Buffer) : Assembler :=
  ⟨buffer, [], []⟩

/-- Look a label up and close it. -/
def resolve {α : Type} (label : Label) (entries : List (Label × α)) :
    Except Trap (α × List (Label × α)) :=
  match entries.lookup label with
  | some found => .ok (found, entries.filter fun entry => entry.1 != label)
  | none => .error .undefinedLabel

/-- Carry out one directive. -/
def step (a : Assembler) : Directive → Except Trap Assembler
  | .emit i => .ok { a with buffer := a.buffer.emit i }
  | .raw word => .ok { a with buffer := a.buffer.append word }
  | .mark label => .ok { a with targets := (label, a.buffer.cursor) :: a.targets }
  | .target label i =>
    .ok { a with
      buffer := a.buffer.emit i
      targets := (label, a.buffer.cursor) :: a.targets }
  | .branchTo label cond => do
    let (target, targets) ← resolve label a.targets
    let buffer ← a.buffer.branchTo target cond
    return { a with buffer, targets }
  | .loopEnd label tailPredicated => do
    let (target, targets) ← resolve label a.targets
    let buffer ← a.buffer.loopEnd target tailPredicated
    return { a with buffer, targets }
  | .reserve label width =>
    let (slot, buffer) := a.buffer.reserve width
    .ok { a with buffer, slots := (label, slot) :: a.slots }
  | .bind label fixup => do
    let (slot, slots) ← resolve label a.slots
    let offset ← Buffer.displacement slot.position a.buffer.cursor
    return { a with buffer := a.buffer.patch slot (fixup.fill offset), slots }
  | .patch label i => do
    let (slot, slots) ← resolve label a.slots
    return { a with buffer := a.buffer.patch slot i, slots }
  | .note fault => .ok { a with buffer := a.buffer.record fault }

/-- Carry out directives in order. -/
def run (a : Assembler) (script : Script) : Except Trap Assembler :=
  script.foldlM step a

end Assembler

namespace Buffer

/-- Lay a script out at the cursor. -/
def assemble (b : Buffer) (script : Script) : Except Trap Buffer := do
  let a ← (Assembler.start b).run script
  return a.buffer

/-- Replace whatever the buffer holds by the kernel of a script. -/
def generate (b : Buffer) (script : Script) : Except Trap Buffer := do
  let b ← b.reset.assemble script
  return b.finish

end Buffer

end HeliumKernels
