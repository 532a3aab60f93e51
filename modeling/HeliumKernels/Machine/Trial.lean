/-
  HeliumKernels.Machine.Trial

  Trials of kernels on a fresh machine.  Inputs are mapped read-only and
  exactly as long as the kernel may read; behind the output lie canary words
  that it must not touch.
-/
import HeliumKernels.Gemm.Shape
import HeliumKernels.Machine.Step

namespace HeliumKernels.Trial

open Machine

/-- Address of the first input. -/
def aBase : UInt32 := 0x20000000

/-- Address of the second input. -/
def bBase : UInt32 := 0x24000000

/-- Address of the output. -/
def cBase : UInt32 := 0x28000000

/-- Number of words behind the output that must stay as they are. -/
def canaryCount : Nat := 8

/-- Value of those words. -/
def canary : UInt32 := 0xCAFEF00D

/-- The first `count` elements of an operand. -/
def leading (count : Nat) (xs : Array UInt32) : Except Halt (Array UInt32) :=
  if count ≤ xs.size then .ok (xs.extract 0 count) else .error (.trap .outOfBounds)

/-- Map an operand. -/
def mapOperand (m : Machine) (base : UInt32) (words : Array UInt32) (writable : Bool) :
    Except Halt Machine := do
  let memory ← (m.memory.mapWords base words writable).mapError fun e => .error (.memory e)
  return { m with memory }

/-- Map the output and its canary. -/
def mapOutput (m : Machine) (words : Array UInt32) : Except Halt Machine :=
  mapOperand m cBase (words ++ Array.replicate canaryCount canary) true

/-- Run code on a machine. -/
def runOn (mulAdd : MulAdd) (m : Machine) (code : Array UInt16) (args : List UInt32) :
    Except Halt Machine :=
  match call mulAdd code args m with
  | .ok _ m => .ok m
  | .error halt _ => .error halt

/-- Address of the first canary word behind `count` elements. -/
def canaryAddress (count : Nat) : UInt32 :=
  cBase + UInt32.ofNat (4 * count)

/-- Whether the canary behind `count` elements is as it was. -/
def canaryIntact (m : Machine) (count : Nat) : Except Halt Bool := do
  let words ← m.memory.readWords (canaryAddress count) canaryCount
  return words == Array.replicate canaryCount canary

/-- What a trial of a matrix kernel shows. -/
structure GemmOutcome where
  c : Array UInt32
  canaryIntact : Bool
  calleeSavedIntact : Bool
  steps : Nat
deriving DecidableEq, Repr

/-- Run a matrix kernel on operands of a shape for at most `limit` instructions. -/
def gemm (mulAdd : MulAdd) (limit : Nat) (code : Array UInt16) (shape : Gemm.Shape)
    (a b c : Array UInt32) : Except Halt GemmOutcome := do
  let m : Machine := { Machine.fresh with stepLimit := limit }
  let m ← mapOperand m aBase (← leading shape.aLen a) false
  let m ← mapOperand m bBase (← leading shape.bLen b) false
  let m ← mapOutput m (← leading shape.cLen c)
  let before := m.calleeSaved
  let m ← runOn mulAdd m code [aBase, bBase, cBase]
  return { c := ← m.memory.readWords cBase shape.cLen
           canaryIntact := ← canaryIntact m shape.cLen
           calleeSavedIntact := m.calleeSavedIntact before
           steps := m.steps }

/-- Run a triad kernel over the first `count` elements of two inputs; a touched
    canary is an error. -/
def triad (mulAdd : MulAdd) (limit : Nat) (code : Array UInt16) (a b : Array UInt32)
    (count : Nat) : Except Halt (Array UInt32) := do
  let m : Machine := { Machine.fresh with stepLimit := limit }
  let m ← mapOperand m aBase (← leading count a) false
  let m ← mapOperand m bBase (← leading count b) false
  let m ← mapOutput m (Array.replicate count 0)
  let m ← runOn mulAdd m code [aBase, bBase, cBase, UInt32.ofNat count]
  if !(← canaryIntact m count) then
    throw (.error (.memory (.unmapped (canaryAddress count) 4 "write")))
  m.memory.readWords cBase count

end HeliumKernels.Trial
