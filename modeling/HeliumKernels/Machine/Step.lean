/-
  HeliumKernels.Machine.Step

  Execution.  An instruction that stops with an error keeps the effects it
  had before.  Multiply-add is a parameter: the machine moves bit patterns
  and leaves their arithmetic to it.
-/
import HeliumKernels.Binary32
import HeliumKernels.Machine.Basic

namespace HeliumKernels

namespace Machine

/-- A computation on the machine that may halt; the state survives a halt. -/
abbrev Run := EStateM Halt Machine

namespace Run

/-- Stop with an error of the machine. -/
@[inline] def fail {α : Type} (cause : MachineError) : Run α :=
  throw (.error cause)

/-- A number in its range, or a trap. -/
@[inline] def checked {α : Type} : Except Trap α → Run α
  | .ok value => pure value
  | .error cause => throw (.trap cause)

/-- Sum of an address and a distance that must stay in the address space. -/
@[inline] def advance (address distance : UInt32) : Run UInt32 :=
  if address + distance < address then throw (.trap .overflow) else pure (address + distance)

/-- Read a word of memory. -/
@[inline] def load (address : UInt32) : Run UInt32 := fun m =>
  match m.memory.read address with
  | .ok value => .ok value m
  | .error e => .error (.error (.memory e)) m

/-- Write a word of memory. -/
@[inline] def store (address value : UInt32) : Run Unit := fun m =>
  match m.memory.writeError? address with
  | some e => .error (.error (.memory e)) m
  | none => .ok () (m.putWord address value)

/-- Write a scalar register. -/
@[inline] def writeReg (r : Reg) (value : UInt32) : Run Unit :=
  modify fun m => m.setReg r value

end Run

open Run

/-! ## Arithmetic and flags -/

/-- Whether a word is negative as a signed number. -/
@[inline] def isNegative (x : UInt32) : Bool :=
  0x80000000 ≤ x

/-- Sum with a carry: the word, the carry out, and whether the signed sum left
    its range, which it does if both parts have one sign and the sum the other. -/
@[inline] def addWithCarry (x y : UInt32) (carry : Bool) : UInt32 × Bool × Bool :=
  let result := if carry then x + y + 1 else x + y
  (result, if carry then result ≤ x else result < x,
    isNegative x == isNegative y && isNegative result != isNegative x)

/-- The carry says whether the unsigned sum left its range. -/
theorem carry_addWithCarry (x y : UInt32) (carry : Bool) :
    (addWithCarry x y carry).2.1 = decide (0x100000000 ≤ x.toNat + y.toNat + carry.toNat) := by
  have hx := x.toNat_lt
  have hy := y.toNat_lt
  cases carry <;>
    simp only [addWithCarry, UInt32.lt_iff_toNat_lt, UInt32.le_iff_toNat_le, UInt32.toNat_add,
      UInt32.reduceToNat, decide_eq_decide, Bool.toNat_true, Bool.toNat_false, ↓reduceIte,
      Bool.false_eq_true] <;>
    omega

/-- Sum or difference; a difference adds the complement with a carry. -/
@[inline] def addSub (op : AddSub) (x y : UInt32) : UInt32 × Bool × Bool :=
  match op with
  | .add => addWithCarry x y false
  | .sub => addWithCarry x (~~~y) true

/-- Set the sign and zero flags. -/
@[inline] def setSignZero (m : Machine) (value : UInt32) : Machine :=
  { m with flags := { m.flags with n := isNegative value, z := value == 0 } }

/-- Sum or difference, setting all flags if asked to. -/
@[inline] def arithmetic (op : AddSub) (x y : UInt32) (setFlags : Bool) : Run UInt32 := do
  let (result, c, v) := addSub op x y
  if setFlags then
    modify fun m =>
      let m := m.setSignZero result
      { m with flags := { m.flags with c, v } }
  return result

/-! ## Predication -/

/-- Lanes an instruction at `pc` acts on; uses up one place of a predication
    block, in which only vector instructions may stand. -/
def laneMask (op : Operation) (pc : UInt32) : Run LaneMask := do
  let m ← get
  if m.vptRemaining = 0 && !m.tailPredicated then
    return LaneMask.all
  let blocked := 0 < m.vptRemaining
  if blocked then
    if !op.isVector then
      fail (.vptBlock pc (← checked op.text))
    modify fun m => { m with vptRemaining := m.vptRemaining - 1 }
  let mask := if blocked then m.predicate else LaneMask.all
  if m.tailPredicated && op.isVector then
    return LaneMask.below mask (m.reg .lr)
  else
    return mask

/-- Only lanes of 32 bits are modelled. -/
def requireWords (size : LaneSize) (pc : UInt32) : Run Unit :=
  if size = .b32 then pure () else fail (.unsupported pc s!"{size.bits}-bit lanes")

/-! ## Instructions -/

/-- Target of an exchange branch, which must keep the Thumb state. -/
@[inline] def exchange (target : UInt32) : Run UInt32 :=
  if target % 2 = 0 then fail (.armState target) else return target - 1

/-- An address moved by a signed offset, modulo `2 ^ 32`. -/
@[inline] def displaced (address : UInt32) : Int → UInt32
  | .ofNat n => address + UInt32.ofNat n
  | .negSucc n => address - UInt32.ofNat n - 1

theorem displaced_eq_add (address : UInt32) (offset : Int) :
    displaced address offset = address + UInt32.ofInt offset := by
  have h := address.toNat_lt
  apply UInt32.toNat.inj
  cases offset <;>
    simp only [displaced, UInt32.ofInt, UInt32.toNat_add, UInt32.toNat_sub, UInt32.toNat_ofNat',
      UInt32.toNat_one, Int.ofNat_eq_natCast, Int.negSucc_eq] <;>
    omega

/-- Destination of a branch at `pc`. -/
@[inline] def branchTarget (pc : UInt32) (offset : Int) : Run UInt32 := do
  return displaced (← advance pc 4) offset

/-- Address accessed and address written back by an indexed access. -/
@[inline] def indexed (base : UInt32) (offset : Int) (indexing : Indexing) : UInt32 × UInt32 :=
  let moved := displaced base offset
  (match indexing with
    | .postIndex => base
    | _ => moved, moved)

/-- Store registers upward from `address`. -/
def storeRegs (pc : UInt32) : List Reg → UInt32 → Run Unit
  | [], _ => pure ()
  | r :: rest, address => do
    store address ((← get).read pc r)
    storeRegs pc rest (← advance address 4)

/-- Load registers upward from `address`; gives the address behind and the
    next program counter. -/
def loadRegs : List Reg → UInt32 → UInt32 → Run (UInt32 × UInt32)
  | [], address, next => pure (address, next)
  | r :: rest, address, next => do
    let value ← load address
    let next ← if r = .pc then exchange value else do
      writeReg r value
      pure next
    loadRegs rest (← advance address 4) next

/-- The single register of half `half` of double register `d`. -/
def doubleHalf (d half : Nat) : Run SReg :=
  match SReg.ofNum? (2 * d + half) with
  | some s => pure s
  | none => throw (.trap .outOfBounds)

/-- Store `count` double registers from `d` on upward from `address`. -/
def storeDoubles : Nat → Nat → UInt32 → Run Unit
  | 0, _, _ => pure ()
  | count + 1, d, address => do
    let low ← doubleHalf d 0
    let high ← doubleHalf d 1
    store address ((← get).single low)
    store (← advance address 4) ((← get).single high)
    storeDoubles count (d + 1) (← advance address 8)

/-- Load `count` double registers from `d` on upward from `address`; gives the
    address behind. -/
def loadDoubles : Nat → Nat → UInt32 → Run UInt32
  | 0, _, address => pure address
  | count + 1, d, address => do
    let value ← load address
    let low ← doubleHalf d 0
    modify fun m => m.setSingle low value
    let value ← load (← advance address 4)
    let high ← doubleHalf d 1
    modify fun m => m.setSingle high value
    loadDoubles count (d + 1) (← advance address 8)

/-- Address of a lane in memory. -/
@[inline] def laneAddress (address : UInt32) (lane : Lane) : UInt32 :=
  address + UInt32.ofNat (4 * lane.val)

/-- Load the lanes of a mask and clear the others. -/
def loadLanes (mask : LaneMask) (q : QReg) (address : UInt32) : Run Unit :=
  Lane.all.forM fun lane => do
    let value ← if mask.get lane then load (laneAddress address lane) else pure 0
    modify fun m => m.setLane q lane value

/-- Store the lanes of a mask. -/
def storeLanes (mask : LaneMask) (q : QReg) (address : UInt32) : Run Unit :=
  Lane.all.forM fun lane => do
    if mask.get lane then
      store (laneAddress address lane) ((← get).lane q lane)

/-- Replace the lanes of a mask. -/
@[inline] def mapLanes (m : Machine) (mask : LaneMask) (q : QReg)
    (value : Machine → Lane → UInt32) : Machine :=
  Lane.all.foldl (fun m lane => if mask.get lane then m.setLane q lane (value m lane) else m) m

/-- Execute an operation at `pc` on the lanes of `mask`; `next` is the address
    behind it.  Gives the next program counter. -/
def execute (mulAdd : MulAdd) (pc next : UInt32) (mask : LaneMask) : Operation → Run UInt32
  | .nop => return next
  | .movImm rd imm setFlags => do
    writeReg rd imm
    if setFlags then
      modify fun m => m.setSignZero imm
    return next
  | .movTop rd imm => do
    let value := (← get).read pc rd
    writeReg rd (value % 0x10000 + imm.toUInt32 * 0x10000)
    return next
  | .movReg rd rm => do
    writeReg rd ((← get).read pc rm)
    return next
  | .addImm rd rn imm setFlags => do
    writeReg rd (← arithmetic .add ((← get).read pc rn) imm setFlags)
    return next
  | .subImm rd rn imm setFlags => do
    writeReg rd (← arithmetic .sub ((← get).read pc rn) imm setFlags)
    return next
  | .addReg rd rn rm shift setFlags => do
    let m ← get
    writeReg rd (← arithmetic .add (m.read pc rn) (m.read pc rm <<< UInt32.ofNat shift) setFlags)
    return next
  | .subReg rd rn rm shift setFlags => do
    let m ← get
    writeReg rd (← arithmetic .sub (m.read pc rn) (m.read pc rm <<< UInt32.ofNat shift) setFlags)
    return next
  | .cmpImm rn imm => do
    let _ ← arithmetic .sub ((← get).read pc rn) imm true
    return next
  | .cmpReg rn rm => do
    let m ← get
    let _ ← arithmetic .sub (m.read pc rn) (m.read pc rm) true
    return next
  | .ldrImm rt rn offset indexing => do
    let (address, moved) := indexed ((← get).read pc rn) offset indexing
    let value ← load address
    if indexing ≠ .offset then
      writeReg rn moved
    writeReg rt value
    return next
  | .ldrReg rt rn rm shift => do
    let m ← get
    writeReg rt (← load (m.read pc rn + (m.read pc rm <<< UInt32.ofNat shift)))
    return next
  | .branch cond offset => do
    if (← get).flags.holds cond then branchTarget pc offset else return next
  | .bx rm => do
    exchange ((← get).read pc rm)
  | .push regs => do
    let address ← checked (Checked.sub ((← get).reg .sp).toNat (4 * regs.size))
    writeReg .sp (UInt32.ofNat address)
    storeRegs pc regs.toList (UInt32.ofNat address)
    return next
  | .pop regs => do
    let (address, next) ← loadRegs regs.toList ((← get).reg .sp) next
    writeReg .sp address
    return next
  | .vpush first count => do
    let address ← checked (Checked.sub ((← get).reg .sp).toNat (8 * count))
    writeReg .sp (UInt32.ofNat address)
    storeDoubles count first (UInt32.ofNat address)
    return next
  | .vpop first count => do
    writeReg .sp (← loadDoubles count first ((← get).reg .sp))
    return next
  | .loopStart rn tail exit => do
    if let some size := tail then
      requireWords size pc
    let count := (← get).read pc rn
    match exit, count == 0 with
    | some exit, true => branchTarget pc exit
    | _, _ =>
      writeReg .lr count
      modify fun m => { m with tailPredicated := tail.isSome }
      return next
  | .loopEnd back tailPredicated => do
    let count := (← get).reg .lr
    let step : UInt32 := if tailPredicated then 4 else 1
    if step < count then
      writeReg .lr (count - step)
      branchTarget pc (-back)
    else
      if tailPredicated then
        modify fun m => { m with tailPredicated := false }
      return next
  | .vecMem access qd rn offset indexing => do
    let (address, moved) := indexed ((← get).read pc rn) offset indexing
    match access with
    | .load => loadLanes mask qd address
    | .store => storeLanes mask qd address
    match indexing with
    | .offset => return next
    | _ =>
      writeReg rn moved
      return next
  | .vfmaScalar qda qn rm => do
    let scalar := (← get).read pc rm
    modify fun m => m.mapLanes mask qda fun m l => mulAdd (m.lane qn l) scalar (m.lane qda l)
    return next
  | .vfmaVector qd qn qm => do
    modify fun m =>
      m.mapLanes mask qd fun m l => mulAdd (m.lane qn l) (m.lane qm l) (m.lane qd l)
    return next
  | .vmovImm qd value => do
    modify fun m => m.mapLanes mask qd fun _ _ => value
    return next
  | .vctp size rn => do
    requireWords size pc
    let count := (← get).read pc rn
    modify fun m => { m with predicate := LaneMask.below mask count }
    return next
  | .vpst count => do
    modify fun m => { m with vptRemaining := count }
    return next
  | .vmovSr sd rt => do
    let value := (← get).read pc rt
    modify fun m => m.setSingle sd value
    return next

/-- Code as the machine reads it: the instruction that starts at each half-word. -/
abbrev Program := Array (Except DecodeError Decoded)

/-- Read code once for all steps. -/
def Program.ofCode (code : Array UInt16) : Program :=
  Array.ofFn fun index : Fin code.size => decodeAt code index.val

theorem Program.getElem?_ofCode (code : Array UInt16) (index : Nat) :
    (Program.ofCode code)[index]? =
      if index < code.size then some (decodeAt code index) else none := by
  simp only [Program.ofCode, Array.getElem?_ofFn, dite_eq_ite]

/-- Half-word a program counter from the first half-word on points into. -/
@[inline] def codeIndex (pc : UInt32) : Nat :=
  ((pc - codeBase) / 2).toNat

/-- The instruction at `pc`, if that is the address of a half-word. -/
@[inline] def fetch? (program : Program) (pc : UInt32) : Option (Except DecodeError Decoded) :=
  if codeBase ≤ pc && pc % 2 == 0 then program[codeIndex pc]? else none

/-- Bytes of an instruction. -/
@[inline] def byteWidth : Width → UInt32
  | .narrow => 2
  | .wide => 4

/-- Execute the instruction at `pc` and give the next program counter. -/
def step (mulAdd : MulAdd) (program : Program) (pc : UInt32) : Run UInt32 := do
  match fetch? program pc with
  | none => fail (.pcOutOfRange pc)
  | some (.error e) => fail (.undefined pc e)
  | some (.ok decoded) =>
    let mask ← laneMask decoded.op pc
    let next ← advance pc (byteWidth decoded.width)
    execute mulAdd pc next mask decoded.op

/-- Execute from `pc` until the return address is reached, for at most `fuel`
    instructions. -/
def runFrom (mulAdd : MulAdd) (program : Program) : Nat → UInt32 → Run Unit
  | fuel, pc =>
    if pc = returnAddress then pure ()
    else
      match fuel with
      | 0 => do fail (.stepLimit (← get).stepLimit)
      | fuel + 1 => do
        let pc ← step mulAdd program pc
        modify fun m => { m with steps := m.steps + 1 }
        runFrom mulAdd program fuel pc

/-- State in which a call starts: up to four arguments in the first registers,
    an empty stack, and the return address with its Thumb bit. -/
def enter (args : List UInt32) (m : Machine) : Machine :=
  let m := (Reg.all.zip (args.take 4)).foldl (fun m (r, value) => m.setReg r value) m
  let m := (m.setReg .sp stackTop).setReg .lr (returnAddress + 1)
  { m with vptRemaining := 0, tailPredicated := false, steps := 0 }

/-- Run code as a function of up to four words; gives the first register. -/
def call (mulAdd : MulAdd) (code : Array UInt16) (args : List UInt32) : Run UInt32 := do
  modify (enter args)
  runFrom mulAdd (Program.ofCode code) (← get).stepLimit codeBase
  return (← get).reg .r0

end Machine

end HeliumKernels
