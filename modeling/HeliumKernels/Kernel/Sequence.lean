/-
  HeliumKernels.Kernel.Sequence

  Short sequences every kernel is built from: a constant into a register, a
  constant added to a register, and the frame that saves and restores the
  callee-saved registers.  Each picks the shortest encoding the value allows,
  so the choice depends on the value alone.
-/
import HeliumKernels.Assembly.Script

namespace HeliumKernels.Sequence

/-- Put `value` in `rd`. -/
def loadConstant (rd : Reg) (value : UInt32) : Script :=
  if rd.isLow ∧ value ≤ 0xFF then
    [.emit (.movImm rd value .narrow8)]
  else if ModifiedConstant.isEncodable value then
    [.emit (.movImm rd value .modified)]
  else if value ≤ 0xFFFF then
    [.emit (.movImm rd value .plain16)]
  else
    [.emit (.movImm rd (value % 0x10000) .plain16),
     .emit (.movImm rd (value / 0x10000) .top16)]

/-- Form that adds a constant of the given magnitude without another register,
    if there is one. -/
def addForm? (rd rn : Reg) (magnitude : UInt32) : Option AddSubImmForm :=
  if rd = rn ∧ rd.isLow ∧ magnitude ≤ 0xFF then some .narrow8
  else if rd.isLow ∧ rn.isLow ∧ magnitude ≤ 7 then some .narrow3
  else if magnitude ≤ 0xFFF then some .plain12
  else if ModifiedConstant.isEncodable magnitude then some .modified
  else none

/-- Put `rn + value` in `rd`.  The sum is modulo `2 ^ 32`, so only the low 32
    bits of the magnitude count.  `scratch` is overwritten when the magnitude
    fits no immediate. -/
def addConstant (rd rn : Reg) (value : Int) (scratch : Reg) : Script :=
  if value = 0 then
    if rd = rn then [] else [.emit (.movReg rd rn)]
  else
    let op := if value < 0 then AddSub.sub else AddSub.add
    let magnitude := UInt32.ofNat value.natAbs
    match addForm? rd rn magnitude with
    | some form => [.emit (.addSubImm op rd rn magnitude form)]
    | none =>
      loadConstant scratch magnitude ++ [.emit (.addSubReg op rd rn scratch 0 .wide)]

/-- First of the callee-saved double registers. -/
def savedFirst : Nat := 8

/-- Number of the callee-saved double registers. -/
def savedCount : Nat := 8

/-- Save `regs` and the return address, and with `vector` the callee-saved
    vector registers. -/
def save (regs : RegSet) (vector : Bool) : Script :=
  [.emit (.push (regs.insert .lr))] ++
    (if vector then [.emit (.vpush savedFirst savedCount)] else [])

/-- Restore what `save` saved and return. -/
def restoreAndReturn (regs : RegSet) (vector : Bool) : Script :=
  (if vector then [.emit (.vpop savedFirst savedCount)] else []) ++
    [.emit (.pop (regs.insert .pc))]

end HeliumKernels.Sequence
