/-
  HeliumKernels.Operation.Decode

  Reading half-words back into operations.  The first half-word decides the
  width: its top five bits are 29, 30 or 31 exactly for a wide instruction.
  Everything outside the instructions this library emits is undefined.  A
  pattern is a conjunction of field values; where two patterns overlap the
  earlier one wins.
-/
import HeliumKernels.Instruction.Constant
import HeliumKernels.Instruction.Word
import HeliumKernels.Operation.Basic

namespace HeliumKernels

/-- Why half-words do not decode. -/
inductive DecodeError where
  | undefinedNarrow (hw1 : UInt16)
  | undefinedWide (hw1 hw2 : UInt16)
  | truncated (hw1 : UInt16)
  | empty
deriving DecidableEq, Repr

namespace DecodeError

/-- Wording of each cause. -/
def message : DecodeError → String
  | undefinedNarrow hw1 => s!"undefined instruction {Numeral.hex 4 hw1.toNat}"
  | undefinedWide hw1 hw2 =>
    s!"undefined instruction {Numeral.hex 4 hw1.toNat} {Numeral.hex 4 hw2.toNat}"
  | truncated hw1 => s!"32-bit instruction {Numeral.hex 4 hw1.toNat} truncated"
  | empty => "no instruction to decode"

end DecodeError

/-- An operation and the width it was read at. -/
structure Decoded where
  op : Operation
  width : Width
deriving DecidableEq, Repr

namespace Decode

open HalfWord

/-- Two's complement reading of the low `length` bits of `n`. -/
@[inline] def signExtend (n length : Nat) : Int :=
  let rest := n % (1 <<< length)
  if rest < 1 <<< (length - 1) then rest else (rest : Int) - (1 <<< length : Nat)

/-- Whether the half-word starts a wide instruction. -/
def isWide (hw1 : UInt16) : Bool :=
  29 ≤ field hw1 11 5

/-- Condition of a conditional branch; "always" has other encodings. -/
def branchCondition? (code : Nat) : Option Condition :=
  (Condition.ofCode? code).filter (· ≠ .al)

/-- Narrow instructions. -/
def narrow? (hw : UInt16) : Option Operation :=
  let lo3 (low : Nat) := Reg.ofField (field hw low 3)
  let imm8 := UInt32.ofNat (field hw 0 8)
  if hw = 0xBF00 then some .nop
  else match field hw 11 5 with
  | 0b00100 => some (.movImm (lo3 8) imm8 true)
  | 0b00101 => some (.cmpImm (lo3 8) imm8)
  | 0b00110 => some (.addImm (lo3 8) (lo3 8) imm8 true)
  | 0b00111 => some (.subImm (lo3 8) (lo3 8) imm8 true)
  | 0b00011 =>
    match field hw 9 2 with
    | 0 => some (.addReg (lo3 0) (lo3 3) (lo3 6) 0 true)
    | 1 => some (.subReg (lo3 0) (lo3 3) (lo3 6) 0 true)
    | 2 => some (.addImm (lo3 0) (lo3 3) (UInt32.ofNat (field hw 6 3)) true)
    | _ => some (.subImm (lo3 0) (lo3 3) (UInt32.ofNat (field hw 6 3)) true)
  | 0b01101 => some (.ldrImm (lo3 0) (lo3 3) (field hw 6 5 * 4 : Nat) .offset)
  | 0b11100 => some (.branch .al (signExtend (field hw 0 11 * 2) 12))
  | 0b11010 | 0b11011 => do
    let cond ← branchCondition? (field hw 8 4)
    return .branch cond (signExtend (field hw 0 8 * 2) 9)
  | 0b01000 =>
    let rd := Reg.ofField (field hw 7 1 * 8 + field hw 0 3)
    let rm := Reg.ofField (field hw 3 4)
    match field hw 8 3 with
    | 4 => some (.addReg rd rd rm 0 false)
    | 5 => some (.cmpReg rd rm)
    | 6 => some (.movReg rd rm)
    | 7 => if field hw 7 1 = 0 ∧ field hw 0 3 = 0 then some (.bx rm) else none
    | 2 => if field hw 6 2 = 2 then some (.cmpReg (lo3 0) (lo3 3)) else none
    | _ => none
  | 0b10110 =>
    if field hw 9 2 = 2 then
      some (.push ⟨BitVec.ofNat 16 (field hw 0 8 + field hw 8 1 * 0x4000)⟩)
    else none
  | 0b10111 =>
    if field hw 9 2 = 2 then
      some (.pop ⟨BitVec.ofNat 16 (field hw 0 8 + field hw 8 1 * 0x8000)⟩)
    else none
  | _ => none

/-- Offset of the loop instructions. -/
def loopOffset (hw2 : UInt16) : Int :=
  (field hw2 1 10 * 4 + field hw2 11 1 * 2 : Nat)

/-- Sign and magnitude of an offset. -/
def signedOffset (up magnitude : Nat) : Int :=
  if up = 1 then magnitude else -magnitude

/-- Vector loads and stores. -/
def vecMem? (hw1 hw2 : UInt16) : Option Operation := do
  let indexing ← match field hw1 8 1, field hw1 5 1 with
    | 1, 0 => some Indexing.offset
    | 1, _ => some Indexing.preIndex
    | _, 1 => some Indexing.postIndex
    | _, _ => none
  let access := if field hw1 4 1 = 1 then Access.load else Access.store
  return .vecMem access (QReg.ofField (field hw2 13 3)) (Reg.ofField (field hw1 0 4))
    (signedOffset (field hw1 7 1) (field hw2 0 7 * 4)) indexing

/-- Splats of one byte. -/
def vmovImm? (hw1 hw2 : UInt16) : Option Operation :=
  let mode := field hw2 8 4
  if mode % 2 ≠ 0 ∨ 6 < mode then none
  else
    let byte := field hw1 12 1 * 128 + field hw1 0 3 * 16 + field hw2 0 4
    some (.vmovImm (QReg.ofField (field hw2 13 3)) (UInt32.ofNat (byte <<< (4 * mode))))

/-- Predication blocks: the mask has a single bit, lower for longer blocks. -/
def vpst? (hw1 hw2 : UInt16) : Option Operation :=
  match field hw1 6 1 * 8 + field hw2 13 3 with
  | 8 => some (.vpst 1)
  | 4 => some (.vpst 2)
  | 2 => some (.vpst 3)
  | 1 => some (.vpst 4)
  | _ => none

/-- Arithmetic with a register shifted left. -/
def shiftedRegister? (hw1 hw2 : UInt16) : Option Operation :=
  let setFlags := field hw1 4 1 == 1
  let rn := Reg.ofField (field hw1 0 4)
  let rd := Reg.ofField (field hw2 8 4)
  let rm := Reg.ofField (field hw2 0 4)
  let shift := field hw2 12 3 * 4 + field hw2 6 2
  if field hw2 4 2 ≠ 0 then none
  else match field hw1 5 4 with
  | 0b1000 => if rd = .pc ∧ setFlags then none else some (.addReg rd rn rm shift setFlags)
  | 0b1101 =>
    if rd ≠ .pc then some (.subReg rd rn rm shift setFlags)
    else if setFlags ∧ shift = 0 then some (.cmpReg rn rm)
    else none
  | _ => none

/-- Word loads with an eight-bit or register offset. -/
def load? (rn : Reg) (hw2 : UInt16) : Option Operation :=
  let rt := Reg.ofField (field hw2 12 4)
  if field hw2 11 1 = 1 then do
    let up := field hw2 9 1
    let indexing ← match field hw2 10 1, field hw2 8 1 with
      | 1, 0 => if up = 1 then none else some Indexing.offset
      | 1, _ => some Indexing.preIndex
      | _, 1 => some Indexing.postIndex
      | _, _ => none
    return .ldrImm rt rn (signedOffset up (field hw2 0 8)) indexing
  else if field hw2 6 6 = 0 then
    some (.ldrReg rt rn (Reg.ofField (field hw2 0 4)) (field hw2 4 2))
  else none

/-- Arithmetic and moves with a modified constant or a plain immediate. -/
def immediate? (hw1 hw2 : UInt16) : Option Operation :=
  let rn := Reg.ofField (field hw1 0 4)
  let rd := Reg.ofField (field hw2 8 4)
  let imm12 := field hw1 10 1 * 2048 + field hw2 12 3 * 256 + field hw2 0 8
  if field hw1 9 1 = 0 then
    let setFlags := field hw1 4 1 == 1
    let imm := ModifiedConstant.expand imm12
    match field hw1 5 4 with
    | 0b1000 => if rd = .pc ∧ setFlags then none else some (.addImm rd rn imm setFlags)
    | 0b1101 =>
      if rd = .pc ∧ setFlags then some (.cmpImm rn imm) else some (.subImm rd rn imm setFlags)
    | 0b0010 => if rn = .pc then some (.movImm rd imm setFlags) else none
    | _ => none
  else
    let imm16 := field hw1 0 4 * 4096 + imm12
    match field hw1 4 5 with
    | 0b00000 => some (.addImm rd rn (UInt32.ofNat imm12) false)
    | 0b01010 => some (.subImm rd rn (UInt32.ofNat imm12) false)
    | 0b00100 => some (.movImm rd (UInt32.ofNat imm16) false)
    | 0b01100 => some (.movTop rd (UInt16.ofNat imm16))
    | _ => none

/-- Low-overhead loops and lane predicates. -/
def loop? (hw1 hw2 : UInt16) : Option Operation :=
  let rn := Reg.ofField (field hw1 0 4)
  let size := field hw1 4 3
  let hasOffset := field hw2 12 4 == 0xC && field hw2 0 1 == 1
  if hw2 = 0xE801 ∧ size < 4 then some (.vctp (LaneSize.ofCode size) rn)
  else if hw1 = 0xF00F ∧ hasOffset then some (.loopEnd (loopOffset hw2) false)
  else if hw1 = 0xF01F ∧ hasOffset then some (.loopEnd (loopOffset hw2) true)
  else if 4 < size then none
  else
    let tail := if size = 4 then none else some (LaneSize.ofCode size)
    if hw2 = 0xE001 then some (.loopStart rn tail none)
    else if hasOffset then some (.loopStart rn tail (some (loopOffset hw2)))
    else none

/-- Wide branches. -/
def branch? (hw1 hw2 : UInt16) : Option Operation :=
  let s := field hw1 10 1
  let j1 := field hw2 13 1
  let j2 := field hw2 11 1
  let imm11 := field hw2 0 11
  if field hw2 12 1 = 1 then
    let i1 := (1 + j1 + s) % 2
    let i2 := (1 + j2 + s) % 2
    some (.branch .al (signExtend
      (s * 0x1000000 + i1 * 0x800000 + i2 * 0x400000 + field hw1 0 10 * 4096 + imm11 * 2) 25))
  else do
    let cond ← branchCondition? (field hw1 6 4)
    return .branch cond (signExtend
      (s * 0x100000 + j2 * 0x80000 + j1 * 0x40000 + field hw1 0 6 * 4096 + imm11 * 2) 21)

/-- Wide instructions whose top five bits are 29: stacks, vectors, shifted registers. -/
def wide29? (hw1 hw2 : UInt16) : Option Operation :=
  if hw1 = 0xE92D then some (.push ⟨hw2.toBitVec⟩)
  else if hw1 = 0xE8BD then some (.pop ⟨hw2.toBitVec⟩)
  else if field hw1 7 9 = 0x1DA ∧ field hw1 0 6 = 0x2D ∧ field hw2 8 4 = 0xB then
    some (.vpush (field hw1 6 1 * 16 + field hw2 12 4) (field hw2 0 8 / 2))
  else if field hw1 7 9 = 0x1D9 ∧ field hw1 0 6 = 0x3D ∧ field hw2 8 4 = 0xB then
    some (.vpop (field hw1 6 1 * 16 + field hw2 12 4) (field hw2 0 8 / 2))
  else if field hw1 9 7 = 0x76 ∧ field hw1 6 1 = 0 ∧ field hw2 7 6 = 0x3E then
    vecMem? hw1 hw2
  else if field hw1 4 12 = 0xEE3 ∧ field hw1 0 1 = 1 ∧ field hw2 4 9 = 0x0E4 then
    some (.vfmaScalar (QReg.ofField (field hw2 13 3)) (QReg.ofField (field hw1 1 3))
      (Reg.ofField (field hw2 0 4)))
  else if field hw1 4 12 = 0xEF0 ∧ field hw1 0 1 = 0 ∧ field hw2 4 9 = 0x0C5 ∧
      field hw2 0 1 = 0 then
    some (.vfmaVector (QReg.ofField (field hw2 13 3)) (QReg.ofField (field hw1 1 3))
      (QReg.ofField (field hw2 1 3)))
  else if field hw1 3 13 = 0x1DF0 ∧ field hw2 12 1 = 0 ∧ field hw2 4 4 = 5 then
    vmovImm? hw1 hw2
  else if field hw1 4 12 = 0xEE0 ∧ field hw2 8 4 = 0xA ∧ field hw2 0 7 = 0x10 then
    some (.vmovSr (SReg.ofField (field hw1 0 4 * 2 + field hw2 7 1))
      (Reg.ofField (field hw2 12 4)))
  else if field hw1 9 7 = 0x75 ∧ field hw2 15 1 = 0 then shiftedRegister? hw1 hw2
  else none

/-- Wide instructions whose top five bits are 30: immediates, loops, branches. -/
def wide30? (hw1 hw2 : UInt16) : Option Operation :=
  if hw1 = 0xF3AF ∧ hw2 = 0x8000 then some .nop
  else if field hw2 15 1 = 0 then immediate? hw1 hw2
  else if field hw2 14 2 = 3 then
    if field hw1 7 9 = 0x1E0 then loop? hw1 hw2 else none
  else branch? hw1 hw2

/-- Wide instructions whose top five bits are 31: splats of large bytes,
    predication blocks, word loads. -/
def wide31? (hw1 hw2 : UInt16) : Option Operation :=
  let rn := Reg.ofField (field hw1 0 4)
  if field hw1 3 13 = 0x1FF0 ∧ field hw2 12 1 = 0 ∧ field hw2 4 4 = 5 then vmovImm? hw1 hw2
  else if field hw1 7 9 = 0x1FC ∧ field hw1 0 6 = 0x31 ∧ field hw2 0 13 = 0x0F4D then
    vpst? hw1 hw2
  else if rn = .pc then none
  else if field hw1 4 12 = 0xF8D then
    some (.ldrImm (Reg.ofField (field hw2 12 4)) rn (field hw2 0 12 : Nat) .offset)
  else if field hw1 4 12 = 0xF85 then load? rn hw2
  else none

/-- Wide instructions. -/
def wide? (hw1 hw2 : UInt16) : Option Operation :=
  match field hw1 11 5 with
  | 29 => wide29? hw1 hw2
  | 30 => wide30? hw1 hw2
  | 31 => wide31? hw1 hw2
  | _ => none

/-- The instruction that starts with the given half-words, the second of
    which may be missing. -/
def pair (first second : Option UInt16) : Except DecodeError Decoded :=
  match first with
  | none => .error .empty
  | some hw1 =>
    if isWide hw1 then
      match second with
      | none => .error (.truncated hw1)
      | some hw2 =>
        match wide? hw1 hw2 with
        | none => .error (.undefinedWide hw1 hw2)
        | some op => .ok ⟨op, .wide⟩
    else
      match narrow? hw1 with
      | none => .error (.undefinedNarrow hw1)
      | some op => .ok ⟨op, .narrow⟩

end Decode

/-- The instruction at the start of `code`. -/
def decode (code : List UInt16) : Except DecodeError Decoded :=
  Decode.pair code[0]? code[1]?

/-- The instruction at half-word `index` of `code`. -/
def decodeAt (code : Array UInt16) (index : Nat) : Except DecodeError Decoded :=
  Decode.pair code[index]? code[index + 1]?

end HeliumKernels
