/-
  HeliumKernels.Instruction.Basic

  Instructions as they are asked for: an operation, its operands and the
  encoding form chosen for it.  Nothing is validated here; operands may not
  fit the form.
-/
import HeliumKernels.Register.Set

namespace HeliumKernels

/-- Instruction size. -/
inductive Width where
  | narrow
  | wide
deriving DecidableEq, Repr

namespace Width

/-- Half-words occupied. -/
def halfWords : Width → Nat
  | narrow => 1
  | wide => 2

/-- Capitalised name, as faults print it. -/
def label : Width → String
  | narrow => "Narrow"
  | wide => "Wide"

end Width

/-- Condition of a branch, in code order. -/
inductive Condition where
  | eq | ne | cs | cc | mi | pl | vs | vc | hi | ls | ge | lt | gt | le | al
deriving DecidableEq, Repr

namespace Condition

/-- All conditions in code order. -/
def all : List Condition :=
  [eq, ne, cs, cc, mi, pl, vs, vc, hi, ls, ge, lt, gt, le, al]

/-- Four-bit condition code. -/
def code : Condition → Nat
  | eq => 0 | ne => 1 | cs => 2 | cc => 3 | mi => 4 | pl => 5 | vs => 6 | vc => 7
  | hi => 8 | ls => 9 | ge => 10 | lt => 11 | gt => 12 | le => 13 | al => 14

/-- Condition with the given code; fifteen is not a condition. -/
def ofCode? (code : Nat) : Option Condition :=
  all[code]?

/-- Mnemonic suffix, empty for "always". -/
def suffix : Condition → String
  | eq => "eq" | ne => "ne" | cs => "cs" | cc => "cc" | mi => "mi" | pl => "pl"
  | vs => "vs" | vc => "vc" | hi => "hi" | ls => "ls" | ge => "ge" | lt => "lt"
  | gt => "gt" | le => "le" | al => ""

@[simp] theorem ofCode?_code (c : Condition) : ofCode? c.code = some c := by
  cases c <;> rfl

end Condition

/-- Vector element size of predicates and tail-predicated loops. -/
inductive LaneSize where
  | b8 | b16 | b32 | b64
deriving DecidableEq, Repr

namespace LaneSize

/-- Two-bit size code. -/
def code : LaneSize → Nat
  | b8 => 0
  | b16 => 1
  | b32 => 2
  | b64 => 3

/-- Size with the given two low bits as its code. -/
def ofCode (code : Nat) : LaneSize :=
  match code % 4 with
  | 0 => b8
  | 1 => b16
  | 2 => b32
  | _ => b64

/-- Bits of a lane. -/
def bits (s : LaneSize) : Nat :=
  8 <<< s.code

/-- Lanes of a 128-bit vector. -/
def lanes (s : LaneSize) : Nat :=
  128 / s.bits

@[simp] theorem ofCode_code (s : LaneSize) : ofCode s.code = s := by
  cases s <;> rfl

end LaneSize

/-- Addressing mode of a load or store with an immediate offset. -/
inductive Indexing where
  /-- The base plus the offset is accessed; the base stays. -/
  | offset
  /-- The base plus the offset is accessed and becomes the base. -/
  | preIndex
  /-- The base is accessed, then the offset is added to it. -/
  | postIndex
deriving DecidableEq, Repr

namespace Indexing

/-- One unless the access happens before the base moves. -/
def p : Indexing → Nat
  | offset | preIndex => 1
  | postIndex => 0

/-- One if the base is written back. -/
def w : Indexing → Nat
  | offset => 0
  | preIndex | postIndex => 1

end Indexing

/-- The two arithmetic operations. -/
inductive AddSub where
  | add
  | sub
deriving DecidableEq, Repr

/-- Forms of addition and subtraction of an immediate. -/
inductive AddSubImmForm where
  /-- Three-bit immediate, low registers, sets the flags. -/
  | narrow3
  /-- Eight-bit immediate, low register that is source and destination, sets the flags. -/
  | narrow8
  /-- Modified constant. -/
  | modified
  /-- Plain twelve-bit immediate. -/
  | plain12
deriving DecidableEq, Repr

/-- Forms of addition and subtraction of a register. -/
inductive AddSubRegForm where
  /-- Three low registers, sets the flags. -/
  | narrow3
  /-- Any registers, destination equal to the first source, addition only. -/
  | narrowAcc
  /-- Second source shifted left. -/
  | wide
deriving DecidableEq, Repr

/-- Forms of comparison with an immediate. -/
inductive CmpImmForm where
  | narrow8
  | modified
deriving DecidableEq, Repr

/-- Forms of an immediate move. -/
inductive MovImmForm where
  /-- Eight-bit immediate, low register, sets the flags. -/
  | narrow8
  /-- Modified constant. -/
  | modified
  /-- Plain sixteen-bit immediate. -/
  | plain16
  /-- Sixteen-bit immediate into the top half only. -/
  | top16
deriving DecidableEq, Repr

/-- Forms of a word load with an immediate offset. -/
inductive LdrImmForm where
  /-- Five-bit word offset, low registers. -/
  | narrow
  /-- Twelve-bit offset. -/
  | wide12
  /-- Eight-bit signed offset with indexing. -/
  | wide8
deriving DecidableEq, Repr

/-- Direction of a vector memory access. -/
inductive Access where
  | load
  | store
deriving DecidableEq, Repr

/-- An instruction request.  Branch offsets are bytes relative to the
    instruction's address plus four; `vpush` and `vpop` count double registers. -/
inductive Instruction where
  | addSubImm (op : AddSub) (rd rn : Reg) (imm : UInt32) (form : AddSubImmForm)
  | addSubReg (op : AddSub) (rd rn rm : Reg) (shift : Nat) (form : AddSubRegForm)
  | cmpImm (rn : Reg) (imm : UInt32) (form : CmpImmForm)
  | cmpReg (rn rm : Reg)
  | movImm (rd : Reg) (imm : UInt32) (form : MovImmForm)
  | movReg (rd rm : Reg)
  | ldrImm (rt rn : Reg) (offset : Int) (indexing : Indexing) (form : LdrImmForm)
  | ldrReg (rt rn rm : Reg) (shift : Nat)
  | branch (cond : Condition) (offset : Int) (width : Width)
  | bx (rm : Reg)
  | nop (width : Width)
  /-- Loop start; with an exit offset the body is skipped when the count is zero. -/
  | loopStart (rn : Reg) (tail : Option LaneSize) (exit : Option Int)
  /-- Loop end that branches back by `back` bytes. -/
  | loopEnd (back : Int) (tailPredicated : Bool)
  | push (regs : RegSet)
  | pop (regs : RegSet)
  | vpush (first count : Nat)
  | vpop (first count : Nat)
  | vecMem (access : Access) (qd : QReg) (rn : Reg) (offset : Int) (indexing : Indexing)
  | vfmaScalar (qda qn : QReg) (rm : Reg)
  | vfmaVector (qd qn qm : QReg)
  | vmovImm (qd : QReg) (value : UInt32)
  | vctp (size : LaneSize) (rn : Reg)
  | vpst (count : Nat)
  | vmovSr (sd : SReg) (rt : Reg)
deriving DecidableEq, Repr

namespace Instruction

/-- Width of the chosen form, known even when the operands do not fit it. -/
def width : Instruction → Width
  | addSubImm _ _ _ _ form =>
    match form with
    | .narrow3 | .narrow8 => .narrow
    | .modified | .plain12 => .wide
  | addSubReg _ _ _ _ _ form =>
    match form with
    | .narrow3 | .narrowAcc => .narrow
    | .wide => .wide
  | cmpImm _ _ form =>
    match form with
    | .narrow8 => .narrow
    | .modified => .wide
  | movImm _ _ form =>
    match form with
    | .narrow8 => .narrow
    | .modified | .plain16 | .top16 => .wide
  | ldrImm _ _ _ _ form =>
    match form with
    | .narrow => .narrow
    | .wide12 | .wide8 => .wide
  | cmpReg .. | movReg .. | bx .. => .narrow
  | branch _ _ width | nop width => width
  | push regs => if regs.isLowPlus .lr then .narrow else .wide
  | pop regs => if regs.isLowPlus .pc then .narrow else .wide
  | ldrReg .. | loopStart .. | loopEnd .. | vpush .. | vpop .. | vecMem .. | vfmaScalar ..
  | vfmaVector .. | vmovImm .. | vctp .. | vpst .. | vmovSr .. => .wide

/-- Lowest and highest reachable offset of a branch. -/
def branchRange (cond : Condition) (width : Width) : Int × Int :=
  match width, cond == .al with
  | .narrow, false => (-256, 254)
  | .narrow, true => (-2048, 2046)
  | .wide, false => (-1048576, 1048574)
  | .wide, true => (-16777216, 16777214)

/-- Whether a branch reaches `offset`. -/
def branchFits (cond : Condition) (width : Width) (offset : Int) : Bool :=
  let (low, high) := branchRange cond width
  low ≤ offset && offset ≤ high && offset % 2 == 0

/-- Farthest reach of the loop instructions, in bytes. -/
def loopRange : Int := 4094

/-- Largest magnitude of a vector load or store offset, in bytes. -/
def vectorOffsetMax : Int := 508

end Instruction

end HeliumKernels
