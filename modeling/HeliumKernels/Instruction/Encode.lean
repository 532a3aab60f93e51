/-
  HeliumKernels.Instruction.Encode

  Assembling: operands are checked against the chosen form and packed into
  a `Word`.  `assemble` reports the first operand that does not fit;
  `encode` puts a no-op of the same width in its place, so that offsets
  computed around it stay valid.

  A word is written as the sum of its fields, each multiplied by the weight
  of its lowest bit; the fields of a form never overlap.
-/
import HeliumKernels.Instruction.Constant
import HeliumKernels.Instruction.Word

namespace HeliumKernels

/-- Why an operand does not fit its form. -/
inductive EncodingError where
  | lowRegisterRequired (reg : Reg)
  | registerNotAllowed (reg : Reg) (role : String)
  | immediateOutOfRange (value low high : Int)
  | misaligned (value : Int) (align : Nat)
  | notModifiedImmediate (value : UInt32)
  | notSplatImmediate (value : UInt32)
  | branchOutOfRange (offset low high : Int)
  | oddBranchOffset (offset : Int)
  | invalidRegisterList (list : RegSet)
  | invalidRegisterRange (first count : Nat)
  | invalidPredicateCount (count : Nat)
deriving DecidableEq, Repr

namespace EncodingError

/-- Wording of each cause. -/
def message : EncodingError → String
  | lowRegisterRequired reg => s!"{reg.text} is not a low register (r0-r7)"
  | registerNotAllowed reg role => s!"{reg.text} cannot be used as {role}"
  | immediateOutOfRange value low high => s!"immediate {value} outside {low}..={high}"
  | misaligned value align => s!"immediate {value} is not a multiple of {align}"
  | notModifiedImmediate value => s!"{Numeral.word value} is not a modified immediate constant"
  | notSplatImmediate value => s!"{Numeral.word value} is not a shifted byte splat"
  | branchOutOfRange offset low high => s!"branch offset {offset} outside {low}..={high}"
  | oddBranchOffset offset => s!"branch offset {offset} is odd"
  | invalidRegisterList list => s!"invalid register list {list.text}"
  | invalidRegisterRange first count => s!"invalid register range d{first}+{count}"
  | invalidPredicateCount count => s!"VPST covers 1 to 4 instructions, got {count}"

end EncodingError

namespace Operand

/-- Number of a register that must be low. -/
def low (r : Reg) : Except EncodingError Nat :=
  if r.isLow then .ok r.num else .error (.lowRegisterRequired r)

/-- Number of a register that may not be the program counter. -/
def notPc (r : Reg) (role : String) : Except EncodingError Nat :=
  if r = .pc then .error (.registerNotAllowed r role) else .ok r.num

/-- Number of a register that may be neither stack pointer nor program counter. -/
def general (r : Reg) (role : String) : Except EncodingError Nat :=
  if r = .sp ∨ r = .pc then .error (.registerNotAllowed r role) else .ok r.num

/-- A number of at most `high`. -/
def unsigned (value high : Nat) : Except EncodingError Nat :=
  if value ≤ high then .ok value else .error (.immediateOutOfRange value 0 high)

/-- A number from `low` to `high`. -/
def signed (value low high : Int) : Except EncodingError Int :=
  if low ≤ value ∧ value ≤ high then .ok value else .error (.immediateOutOfRange value low high)

/-- A multiple of `align`. -/
def aligned (value : Int) (align : Nat) : Except EncodingError Int :=
  if value % align = 0 then .ok value else .error (.misaligned value align)

/-- Field of a modified constant. -/
def modified (value : UInt32) : Except EncodingError Nat :=
  match ModifiedConstant.encode? value with
  | some field => .ok field
  | none => .error (.notModifiedImmediate value)

/-- Share of a 12-bit immediate in the first half-word: its top bit, at bit 10. -/
def immediateHigh (field : Nat) : Nat :=
  field / 2048 % 2 * 1024

/-- Share of a 12-bit immediate in the second half-word: three bits at bit 12
    and eight at bit zero. -/
def immediateLow (field : Nat) : Nat :=
  field / 256 % 8 * 4096 + field % 256

/-- The `length` bits of a two's complement number from bit `low` upward. -/
def bits (x : Int) (low length : Nat) : Nat :=
  ((x >>> low) % (1 <<< length : Nat)).toNat

/-- Offset field of the loop instructions: bit 1 of the offset at bit 11, the
    bits above it at bit 1. -/
def loopOffset (offset : Int) : Except EncodingError Nat :=
  if offset % 2 ≠ 0 then .error (.oddBranchOffset offset)
  else if 0 ≤ offset ∧ offset ≤ Instruction.loopRange then
    .ok (bits offset 1 1 * 2048 + bits offset 2 10 * 2)
  else .error (.branchOutOfRange offset 0 Instruction.loopRange)

end Operand

namespace Instruction

open Operand

/-- The opcode of an addition or that of a subtraction. -/
def pick (op : AddSub) (forAdd forSub : Nat) : Nat :=
  match op with
  | .add => forAdd
  | .sub => forSub

/-- Addition or subtraction of an immediate. -/
def assembleAddSubImm (op : AddSub) (rd rn : Reg) (imm : UInt32) :
    AddSubImmForm → Except EncodingError Word
  | .narrow3 => do
    let imm ← unsigned imm.toNat 7
    let n ← low rn
    let d ← low rd
    return .ofFields (pick op 0x1C00 0x1E00 + imm * 64 + n * 8 + d)
  | .narrow8 => do
    if rd ≠ rn then
      throw (.registerNotAllowed rn "a second source of the two-operand form")
    let imm ← unsigned imm.toNat 0xFF
    let d ← low rd
    return .ofFields (pick op 0x3000 0x3800 + d * 256 + imm)
  | .modified => do
    let field ← modified imm
    let n ← general rn "an immediate arithmetic source"
    let d ← general rd "an immediate arithmetic destination"
    return .ofFieldPair (pick op 0xF100 0xF1A0 + immediateHigh field + n)
      (immediateLow field + d * 256)
  | .plain12 => do
    let field ← unsigned imm.toNat 0xFFF
    let n ← general rn "an immediate arithmetic source"
    let d ← general rd "an immediate arithmetic destination"
    return .ofFieldPair (pick op 0xF200 0xF2A0 + immediateHigh field + n)
      (immediateLow field + d * 256)

/-- Addition or subtraction of a register. -/
def assembleAddSubReg (op : AddSub) (rd rn rm : Reg) (shift : Nat) :
    AddSubRegForm → Except EncodingError Word
  | .narrow3 => do
    let _ ← unsigned shift 0
    let m ← low rm
    let n ← low rn
    let d ← low rd
    return .ofFields (pick op 0x1800 0x1A00 + m * 64 + n * 8 + d)
  | .narrowAcc => do
    let _ ← unsigned shift 0
    if op = .sub then
      throw (.registerNotAllowed rd "the destination of a two-operand subtract")
    if rd ≠ rn then
      throw (.registerNotAllowed rn "a second source of the two-operand form")
    let d ← notPc rd "an accumulate destination"
    let m ← notPc rm "an accumulate source"
    return .ofFields (0x4400 + d / 8 * 128 + m * 8 + d % 8)
  | .wide => do
    let shift ← unsigned shift 31
    let n ← general rn "a register arithmetic source"
    let m ← general rm "a shifted operand"
    let d ← general rd "a register arithmetic destination"
    return .ofFieldPair (pick op 0xEB00 0xEBA0 + n)
      (shift / 4 * 4096 + d * 256 + shift % 4 * 64 + m)

/-- Comparison with an immediate. -/
def assembleCmpImm (rn : Reg) (imm : UInt32) : CmpImmForm → Except EncodingError Word
  | .narrow8 => do
    let imm ← unsigned imm.toNat 0xFF
    let n ← low rn
    return .ofFields (0x2800 + n * 256 + imm)
  | .modified => do
    let field ← modified imm
    let n ← notPc rn "a compare operand"
    return .ofFieldPair (0xF1B0 + immediateHigh field + n) (immediateLow field + 0x0F00)

/-- Comparison of two registers; low registers have an encoding of their own. -/
def assembleCmpReg (rn rm : Reg) : Except EncodingError Word := do
  let n ← notPc rn "a compare operand"
  let m ← notPc rm "a compare operand"
  if rn.isLow && rm.isLow then
    return .ofFields (0x4280 + m * 8 + n)
  else
    return .ofFields (0x4500 + n / 8 * 128 + m * 8 + n % 8)

/-- Move of an immediate. -/
def assembleMovImm (rd : Reg) (imm : UInt32) : MovImmForm → Except EncodingError Word
  | .narrow8 => do
    let imm ← unsigned imm.toNat 0xFF
    let d ← low rd
    return .ofFields (0x2000 + d * 256 + imm)
  | .modified => do
    let field ← modified imm
    let d ← general rd "an immediate move destination"
    return .ofFieldPair (0xF04F + immediateHigh field) (immediateLow field + d * 256)
  | .plain16 => do
    let imm ← unsigned imm.toNat 0xFFFF
    let d ← general rd "an immediate move destination"
    return .ofFieldPair (0xF240 + immediateHigh imm + imm / 4096) (immediateLow imm + d * 256)
  | .top16 => do
    let imm ← unsigned imm.toNat 0xFFFF
    let d ← general rd "an immediate move destination"
    return .ofFieldPair (0xF2C0 + immediateHigh imm + imm / 4096) (immediateLow imm + d * 256)

/-- Word load with an immediate offset. -/
def assembleLdrImm (rt rn : Reg) (offset : Int) (indexing : Indexing)
    (form : LdrImmForm) : Except EncodingError Word := do
  if form ≠ .wide8 ∧ indexing ≠ .offset then
    throw (.registerNotAllowed rn "a writeback base of an unindexed load form")
  match form with
  | .narrow =>
    let offset ← aligned (← signed offset 0 124) 4
    let n ← low rn
    let t ← low rt
    return .ofFields (0x6800 + bits offset 2 5 * 64 + n * 8 + t)
  | .wide12 =>
    let offset ← signed offset 0 0xFFF
    let n ← notPc rn "a load base"
    let t ← general rt "a load destination"
    return .ofFieldPair (0xF8D0 + n) (t * 4096 + offset.toNat)
  | .wide8 =>
    let offset ← signed offset (-0xFF) (if indexing = .offset then -1 else 0xFF)
    let n ← notPc rn "a load base"
    let t ← general rt "a load destination"
    if indexing ≠ .offset ∧ rn = rt then
      throw (.registerNotAllowed rt "both the destination and the writeback base")
    let up := if 0 ≤ offset then 1 else 0
    return .ofFieldPair (0xF850 + n)
      (t * 4096 + 0x800 + indexing.p * 1024 + up * 512 + indexing.w * 256 + offset.natAbs)

/-- Word load with a register offset. -/
def assembleLdrReg (rt rn rm : Reg) (shift : Nat) : Except EncodingError Word := do
  let shift ← unsigned shift 3
  let n ← notPc rn "a load base"
  let m ← general rm "a load index"
  let t ← general rt "a load destination"
  return .ofFieldPair (0xF850 + n) (t * 4096 + shift * 16 + m)

/-- The long unconditional branch stores its two upper offset bits compared
    with the sign. -/
def assembleBranch (cond : Condition) (offset : Int) (width : Width) :
    Except EncodingError Word := do
  let (lowest, highest) := branchRange cond width
  if offset % 2 ≠ 0 then
    throw (.oddBranchOffset offset)
  if offset < lowest ∨ highest < offset then
    throw (.branchOutOfRange offset lowest highest)
  match width, cond == .al with
  | .narrow, true => return .ofFields (0xE000 + bits offset 1 11)
  | .narrow, false => return .ofFields (0xD000 + cond.code * 256 + bits offset 1 8)
  | .wide, true =>
    let s := bits offset 24 1
    let j1 := (1 + bits offset 23 1 + s) % 2
    let j2 := (1 + bits offset 22 1 + s) % 2
    return .ofFieldPair (0xF000 + s * 1024 + bits offset 12 10)
      (0x9000 + j1 * 8192 + j2 * 2048 + bits offset 1 11)
  | .wide, false =>
    return .ofFieldPair (0xF000 + bits offset 20 1 * 1024 + cond.code * 64 + bits offset 12 6)
      (0x8000 + bits offset 18 1 * 8192 + bits offset 19 1 * 2048 + bits offset 1 11)

/-- Loop start, with or without an exit. -/
def assembleLoopStart (rn : Reg) (tail : Option LaneSize) (exit : Option Int) :
    Except EncodingError Word := do
  let n ← general rn "a loop count"
  let first := match tail with
    | none => 0xF040 + n
    | some size => 0xF000 + size.code * 16 + n
  match exit with
  | none => return .ofFieldPair first 0xE001
  | some exit => return .ofFieldPair first (0xC001 + (← loopOffset exit))

/-- Shared body of push and pop: low registers and `last` fit the narrow form.  The wide form
    takes at least two registers, none of them the stack pointer. -/
def assembleStack (narrow wide : Nat) (last : Reg) (barred : Bool) (regs : RegSet) :
    Except EncodingError Word :=
  if regs.isEmpty then .error (.invalidRegisterList regs)
  else if regs.isLowPlus last then
    .ok (.ofFields (narrow + (if regs.contains last then 256 else 0) + regs.bits.toNat % 256))
  else if regs.size < 2 || regs.contains .sp || barred then .error (.invalidRegisterList regs)
  else .ok (.ofFieldPair wide regs.bits.toNat)

/-- Push, never of the program counter. -/
def assemblePush (regs : RegSet) : Except EncodingError Word :=
  assembleStack 0xB400 0xE92D .lr (regs.contains .pc) regs

/-- Pop, not of the program counter and the link register at once. -/
def assemblePop (regs : RegSet) : Except EncodingError Word :=
  assembleStack 0xBC00 0xE8BD .pc (regs.contains .pc && regs.contains .lr) regs

/-- Shared body of the vector push and pop: `first` and `count` name double
    registers. -/
def assembleVectorStack (base first count : Nat) : Except EncodingError Word :=
  if count = 0 ∨ 16 < count ∨ 32 < first + count then
    .error (.invalidRegisterRange first count)
  else
    .ok (.ofFieldPair (base + first / 16 * 64) (first % 16 * 4096 + 0x0B00 + count * 2))

/-- Vector load or store. -/
def assembleVecMem (access : Access) (qd : QReg) (rn : Reg) (offset : Int)
    (indexing : Indexing) : Except EncodingError Word := do
  let offset ← aligned (← signed offset (-vectorOffsetMax) vectorOffsetMax) 4
  let n ← notPc rn "a vector memory base"
  if indexing ≠ .offset ∧ rn = .sp then
    throw (.registerNotAllowed rn "a vector writeback base")
  let up := if 0 ≤ offset then 1 else 0
  let load := if access = .load then 1 else 0
  return .ofFieldPair
    (0xEC00 + indexing.p * 256 + up * 128 + indexing.w * 32 + load * 16 + n)
    (qd.val * 8192 + 0x1F00 + offset.natAbs / 4)

/-- Splat of an immediate. -/
def assembleVmovImm (qd : QReg) (value : UInt32) : Except EncodingError Word :=
  match Splat.split? value with
  | none => .error (.notSplatImmediate value)
  | some (mode, byte) =>
    .ok (.ofFieldPair (0xEF80 + byte / 128 * 4096 + byte / 16 % 8)
      (qd.val * 8192 + mode * 256 + 0x50 + byte % 16))

/-- Predication block: its mask has a single bit, lower for longer blocks. -/
def assembleVpst (count : Nat) : Except EncodingError Word :=
  if 1 ≤ count ∧ count ≤ 4 then
    let mask := 1 <<< (4 - count)
    .ok (.ofFieldPair (0xFE31 + mask / 8 * 64) (0x0F4D + mask % 8 * 8192))
  else
    .error (.invalidPredicateCount count)

/-- Check the operands and pack the bits. -/
def assemble : Instruction → Except EncodingError Word
  | addSubImm op rd rn imm form => assembleAddSubImm op rd rn imm form
  | addSubReg op rd rn rm shift form => assembleAddSubReg op rd rn rm shift form
  | cmpImm rn imm form => assembleCmpImm rn imm form
  | cmpReg rn rm => assembleCmpReg rn rm
  | movImm rd imm form => assembleMovImm rd imm form
  | movReg rd rm => do
    let d ← notPc rd "a move destination"
    return .ofFields (0x4600 + d / 8 * 128 + rm.num * 8 + d % 8)
  | ldrImm rt rn offset indexing form => assembleLdrImm rt rn offset indexing form
  | ldrReg rt rn rm shift => assembleLdrReg rt rn rm shift
  | branch cond offset width => assembleBranch cond offset width
  | bx rm => do
    let m ← notPc rm "a branch target register"
    return .ofFields (0x4700 + m * 8)
  | nop width => .ok (.nop width)
  | loopStart rn tail exit => assembleLoopStart rn tail exit
  | loopEnd back tailPredicated => do
    let field ← loopOffset back
    return .ofFieldPair (if tailPredicated then 0xF01F else 0xF00F) (0xC001 + field)
  | push regs => assemblePush regs
  | pop regs => assemblePop regs
  | vpush first count => assembleVectorStack 0xED2D first count
  | vpop first count => assembleVectorStack 0xECBD first count
  | vecMem access qd rn offset indexing => assembleVecMem access qd rn offset indexing
  | vfmaScalar qda qn rm => do
    let m ← general rm "a broadcast scalar"
    return .ofFieldPair (0xEE31 + qn.val * 2) (qda.val * 8192 + 0x0E40 + m)
  | vfmaVector qd qn qm =>
    .ok (.ofFieldPair (0xEF00 + qn.val * 2) (qd.val * 8192 + 0x0C50 + qm.val * 2))
  | vmovImm qd value => assembleVmovImm qd value
  | vctp size rn => do
    let n ← general rn "a lane count"
    return .ofFieldPair (0xF000 + size.code * 16 + n) 0xE801
  | vpst count => assembleVpst count
  | vmovSr sd rt => do
    let t ← general rt "a core-to-float source"
    return .ofFieldPair (0xEE00 + sd.val / 2) (t * 4096 + 0x0A10 + sd.val % 2 * 128)

/-- The assembled word, or a no-op of the same width. -/
def encode (i : Instruction) : Word :=
  match i.assemble with
  | .ok word => word
  | .error _ => .nop i.width

end Instruction

end HeliumKernels
