/-
  HeliumKernels.Machine.Basic

  State of the simulated processor: scalar registers, single precision
  registers (four of them are the lanes of a vector register), condition
  flags, the lane predicate with the number of instructions a predication
  block still covers, tail predication, memory and the instruction count.
-/
import HeliumKernels.Machine.Memory
import HeliumKernels.Operation.Listing

namespace HeliumKernels

/-- Condition flags. -/
structure Flags where
  n : Bool
  z : Bool
  c : Bool
  v : Bool
deriving DecidableEq, Repr

namespace Flags

/-- Whether a condition holds. -/
def holds (f : Flags) : Condition → Bool
  | .eq => f.z
  | .ne => !f.z
  | .cs => f.c
  | .cc => !f.c
  | .mi => f.n
  | .pl => !f.n
  | .vs => f.v
  | .vc => !f.v
  | .hi => f.c && !f.z
  | .ls => !f.c || f.z
  | .ge => f.n == f.v
  | .lt => f.n != f.v
  | .gt => !f.z && f.n == f.v
  | .le => f.z || f.n != f.v
  | .al => true

/-- The set flags by their letters, a dash for each clear one. -/
def text (f : Flags) : String :=
  let letter (flag : Bool) (c : Char) := if flag then c else '-'
  String.ofList [letter f.n 'N', letter f.z 'Z', letter f.c 'C', letter f.v 'V']

end Flags

/-- Lane of a vector register. -/
abbrev Lane := Fin 4

/-- All lanes in order. -/
def Lane.all : List Lane := [0, 1, 2, 3]

/-- Which lanes an instruction acts on. -/
abbrev LaneMask := Vector Bool 4

/-- The mask of all lanes. -/
def LaneMask.all : LaneMask := Vector.replicate 4 true

/-- The lanes of a mask below a count. -/
@[inline] def LaneMask.below (mask : LaneMask) (count : UInt32) : LaneMask :=
  if 4 ≤ count then mask
  else Vector.ofFn fun lane => mask.get lane && decide (lane.val < count.toNat)

/-- Why a call stops. -/
inductive MachineError where
  | undefined (address : UInt32) (cause : DecodeError)
  | pcOutOfRange (address : UInt32)
  | memory (cause : MemoryError)
  | stepLimit (limit : Nat)
  | vptBlock (address : UInt32) (op : String)
  | armState (target : UInt32)
  | unsupported (address : UInt32) (what : String)
deriving DecidableEq, Repr

/-- Wording of each cause. -/
def MachineError.message : MachineError → String
  | undefined address cause => s!"cannot execute at {Numeral.word address}: {cause.message}"
  | pcOutOfRange address => s!"pc {Numeral.word address} is outside the code"
  | memory cause => cause.message
  | stepLimit limit => s!"step limit of {limit} instructions reached"
  | vptBlock address op =>
    s!"\x60{op}\x60 at {Numeral.word address} is not allowed inside a VPT block"
  | armState target => s!"branch to ARM state at {Numeral.word target}"
  | unsupported address what => s!"unsupported at {Numeral.word address}: {what}"

/-- How execution ends before its time: with an error of the machine, or with
    a number outside its range. -/
inductive Halt where
  | error (cause : MachineError)
  | trap (cause : Trap)
deriving DecidableEq, Repr

namespace Memory

/-- Collect `count` words from `address` on, up to the first that cannot be
    read.  Words beyond the address space have no address. -/
def collectWords (m : Memory) (address : UInt32) (found : Array UInt32) :
    Nat → Except Halt (Array UInt32)
  | 0 => .ok found
  | count + 1 =>
    match m.read address with
    | .error e => .error (.error (.memory e))
    | .ok value =>
      if address + 4 < address ∧ 0 < count then .error (.trap .overflow)
      else collectWords m (address + 4) (found.push value) count

/-- The `count` words from `address` on; the count is taken modulo `2 ^ 32`. -/
def readWords (m : Memory) (address : UInt32) (count : Nat) : Except Halt (Array UInt32) :=
  m.collectWords address #[] (count % 0x100000000)

end Memory

/-- Processor state. -/
structure Machine where
  regs : Vector UInt32 16
  /-- Register `4q + l` is lane `l` of vector register `q`. -/
  singles : Vector UInt32 32
  flags : Flags
  predicate : LaneMask
  /-- Instructions the current predication block still covers. -/
  vptRemaining : Nat
  tailPredicated : Bool
  memory : Memory
  stepLimit : Nat
  /-- Instructions executed by the last call. -/
  steps : Nat

namespace Machine

/-- Address of the first half-word of code. -/
def codeBase : UInt32 := 0x1000

/-- Returning here ends a call. -/
def returnAddress : UInt32 := 0xFFFFFFF0

/-- First address behind the stack. -/
def stackTop : UInt32 := 0x30000000

/-- Bytes of the stack. -/
def stackSize : UInt32 := 0x10000

/-- Step limit of a fresh machine. -/
def defaultStepLimit : Nat := 50000000

/-- Position of a scalar register in the register file. -/
@[inline] def regIndex (r : Reg) : Fin 16 :=
  ⟨r.num, r.num_lt⟩

/-- Position of a vector lane in the single register file. -/
@[inline] def laneIndex (q : QReg) (lane : Lane) : Fin 32 :=
  ⟨4 * q.val + lane.val, by omega⟩

/-- Stored value of a scalar register. -/
@[inline] def reg (m : Machine) (r : Reg) : UInt32 :=
  m.regs[regIndex r]

/-- Replace the stored value of a scalar register. -/
def setReg (m : Machine) (r : Reg) (value : UInt32) : Machine :=
  { m with regs := m.regs.set (regIndex r).val value (regIndex r).isLt }

/-- Value of a single register. -/
@[inline] def single (m : Machine) (s : SReg) : UInt32 :=
  m.singles[s]

/-- Replace a single register. -/
def setSingle (m : Machine) (s : SReg) (value : UInt32) : Machine :=
  { m with singles := m.singles.set s.val value s.isLt }

/-- Value of a vector lane. -/
@[inline] def lane (m : Machine) (q : QReg) (l : Lane) : UInt32 :=
  m.single (laneIndex q l)

/-- Replace a vector lane. -/
@[inline] def setLane (m : Machine) (q : QReg) (l : Lane) (value : UInt32) : Machine :=
  m.setSingle (laneIndex q l) value

/-- Replace a word of mapped memory. -/
def putWord (m : Machine) (address value : UInt32) : Machine :=
  { m with memory := ⟨Memory.put address value m.memory.regions⟩ }

/-- The four lanes of a vector register. -/
def vector (m : Machine) (q : QReg) : List UInt32 :=
  Lane.all.map (m.lane q)

/-- Replace the lanes of a vector register. -/
def setVector (m : Machine) (q : QReg) (values : Vector UInt32 4) : Machine :=
  Lane.all.foldl (fun m l => m.setLane q l (values.get l)) m

/-! ### Reading what was written -/

theorem regIndex_injective {r s : Reg} (h : regIndex r = regIndex s) : r = s :=
  Reg.num_injective (Fin.val_eq_of_eq h)

@[simp] theorem reg_setReg_self (m : Machine) (r : Reg) (value : UInt32) :
    (m.setReg r value).reg r = value := by
  simp only [reg, setReg, Fin.getElem_fin, Vector.getElem_set_self]

theorem reg_setReg_of_ne (m : Machine) {r s : Reg} (value : UInt32) (h : r ≠ s) :
    (m.setReg r value).reg s = m.reg s := by
  simp only [reg, setReg, Fin.getElem_fin]
  exact Vector.getElem_set_ne _ _ fun h' => h (regIndex_injective (Fin.ext h'))

@[simp] theorem single_setSingle_self (m : Machine) (s : SReg) (value : UInt32) :
    (m.setSingle s value).single s = value := by
  simp only [single, setSingle, Fin.getElem_fin, Vector.getElem_set_self]

theorem single_setSingle_of_ne (m : Machine) {s t : SReg} (value : UInt32) (h : s ≠ t) :
    (m.setSingle s value).single t = m.single t := by
  simp only [single, setSingle, Fin.getElem_fin]
  exact Vector.getElem_set_ne _ _ fun h' => h (Fin.ext h')

theorem laneIndex_injective {q p : QReg} {l k : Lane} (h : laneIndex q l = laneIndex p k) :
    q = p ∧ l = k := by
  have hval := Fin.val_eq_of_eq h
  simp only [laneIndex] at hval
  exact ⟨Fin.ext (by omega), Fin.ext (by omega)⟩

/-! ### Fresh machines and calls -/

/-- Value of a scalar register as an instruction at `pc` reads it: the program
    counter is four bytes ahead. -/
@[inline] def read (m : Machine) (pc : UInt32) (r : Reg) : UInt32 :=
  match r with
  | .pc => pc + 4
  | r => m.reg r

/-- Initial value of scalar register `n`: a recognisable value in the
    callee-saved registers, zero elsewhere. -/
def initialReg (n : Nat) : UInt32 :=
  if n = 13 then stackTop
  else if 4 ≤ n ∧ n < 12 then UInt32.ofNat (0x5EED0000 + n)
  else 0

/-- Initial value of single register `n`: a recognisable value in the lanes of
    the callee-saved vector registers, zero elsewhere. -/
def initialSingle (n : Nat) : UInt32 :=
  if n < 16 then 0
  else 0x7FC0C0DE ||| UInt32.ofNat (n / 4 * 256) ||| UInt32.ofNat (n % 4 * 16)

/-- Fresh machine with a zeroed stack. -/
def fresh : Machine where
  regs := Vector.ofFn fun n => initialReg n.val
  singles := Vector.ofFn fun n => initialSingle n.val
  flags := ⟨false, false, false, false⟩
  predicate := LaneMask.all
  vptRemaining := 0
  tailPredicated := false
  memory := Memory.ofRegion
    ⟨stackTop - stackSize, Bytes.zeros stackSize.toNat, true⟩
  stepLimit := defaultStepLimit
  steps := 0

/-- Registers a function has to leave as it found them. -/
structure CalleeSaved where
  scalars : List UInt32
  lanes : List UInt32
deriving DecidableEq, Repr

/-- Current values of the callee-saved registers. -/
def calleeSaved (m : Machine) : CalleeSaved where
  scalars := (m.regs.toList.drop 4).take 8
  lanes := m.singles.toList.drop 16

/-- Whether the callee-saved registers hold the values `before` and the stack
    pointer is back at the top. -/
def calleeSavedIntact (m : Machine) (before : CalleeSaved) : Bool :=
  m.calleeSaved == before && m.reg .sp == stackTop

end Machine

end HeliumKernels
