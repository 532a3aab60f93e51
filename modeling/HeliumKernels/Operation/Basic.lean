/-
  HeliumKernels.Operation.Basic

  What an instruction does, apart from how it is encoded.  `Instruction.meaning`
  gives the operation an instruction request stands for.
-/
import HeliumKernels.Instruction.Basic

namespace HeliumKernels

/-- Meaning of an instruction. -/
inductive Operation where
  | movImm (rd : Reg) (imm : UInt32) (setFlags : Bool)
  | movTop (rd : Reg) (imm : UInt16)
  | movReg (rd rm : Reg)
  | addImm (rd rn : Reg) (imm : UInt32) (setFlags : Bool)
  | subImm (rd rn : Reg) (imm : UInt32) (setFlags : Bool)
  | addReg (rd rn rm : Reg) (shift : Nat) (setFlags : Bool)
  | subReg (rd rn rm : Reg) (shift : Nat) (setFlags : Bool)
  | cmpImm (rn : Reg) (imm : UInt32)
  | cmpReg (rn rm : Reg)
  | ldrImm (rt rn : Reg) (offset : Int) (indexing : Indexing)
  | ldrReg (rt rn rm : Reg) (shift : Nat)
  | branch (cond : Condition) (offset : Int)
  | bx (rm : Reg)
  | push (regs : RegSet)
  | pop (regs : RegSet)
  | vpush (first count : Nat)
  | vpop (first count : Nat)
  | loopStart (rn : Reg) (tail : Option LaneSize) (exit : Option Int)
  | loopEnd (back : Int) (tailPredicated : Bool)
  | vecMem (access : Access) (qd : QReg) (rn : Reg) (offset : Int) (indexing : Indexing)
  | vfmaScalar (qda qn : QReg) (rm : Reg)
  | vfmaVector (qd qn qm : QReg)
  | vmovImm (qd : QReg) (value : UInt32)
  | vctp (size : LaneSize) (rn : Reg)
  | vpst (count : Nat)
  | vmovSr (sd : SReg) (rt : Reg)
  | nop
deriving DecidableEq, Repr

namespace Operation

/-- Whether a predication block may cover the operation. -/
def isVector : Operation → Bool
  | vecMem .. | vfmaScalar .. | vfmaVector .. | vmovImm .. | vctp .. => true
  | _ => false

/-- Bytes from the instruction's own address to its branch destination. -/
def branchOffset? : Operation → Option Int
  | branch _ offset => some (offset + 4)
  | loopStart _ _ (some exit) => some (exit + 4)
  | loopEnd back _ => some (4 - back)
  | _ => none

end Operation

/-- The operation an instruction request stands for.  Only the narrow
    arithmetic and move forms set the flags. -/
def Instruction.meaning : Instruction → Operation
  | .addSubImm .add rd rn imm form => .addImm rd rn imm (form == .narrow3 || form == .narrow8)
  | .addSubImm .sub rd rn imm form => .subImm rd rn imm (form == .narrow3 || form == .narrow8)
  | .addSubReg .add rd rn rm shift form => .addReg rd rn rm shift (form == .narrow3)
  | .addSubReg .sub rd rn rm shift form => .subReg rd rn rm shift (form == .narrow3)
  | .cmpImm rn imm _ => .cmpImm rn imm
  | .cmpReg rn rm => .cmpReg rn rm
  | .movImm rd imm .top16 => .movTop rd imm.toUInt16
  | .movImm rd imm form => .movImm rd imm (form == .narrow8)
  | .movReg rd rm => .movReg rd rm
  | .ldrImm rt rn offset indexing _ => .ldrImm rt rn offset indexing
  | .ldrReg rt rn rm shift => .ldrReg rt rn rm shift
  | .branch cond offset _ => .branch cond offset
  | .bx rm => .bx rm
  | .nop _ => .nop
  | .loopStart rn tail exit => .loopStart rn tail exit
  | .loopEnd back tailPredicated => .loopEnd back tailPredicated
  | .push regs => .push regs
  | .pop regs => .pop regs
  | .vpush first count => .vpush first count
  | .vpop first count => .vpop first count
  | .vecMem access qd rn offset indexing => .vecMem access qd rn offset indexing
  | .vfmaScalar qda qn rm => .vfmaScalar qda qn rm
  | .vfmaVector qd qn qm => .vfmaVector qd qn qm
  | .vmovImm qd value => .vmovImm qd value
  | .vctp size rn => .vctp size rn
  | .vpst count => .vpst count
  | .vmovSr sd rt => .vmovSr sd rt

end HeliumKernels
