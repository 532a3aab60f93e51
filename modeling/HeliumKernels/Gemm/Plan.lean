/-
  HeliumKernels.Gemm.Plan

  The register plan of one kernel: which strides, column bases and loop
  bounds are immediates and which live in registers.  Fixed roles take most
  scalar registers; the rest form a pool.  Values that do not fit the
  immediate field of their instruction claim a register from the pool, in a
  fixed order: the column stride of `B`, the column stride of `A`, the column
  bases of `C`, the loop bounds.  A value that finds the pool empty falls
  back to another immediate form if there is one; otherwise it is rebuilt at
  every use and listed as unavailable.
-/
import HeliumKernels.Gemm.Tiling
import HeliumKernels.Instruction.Constant
import HeliumKernels.Register.Set

namespace HeliumKernels.Gemm

/-! ## Fixed roles -/

namespace Role

/-- Pointer to the current tile of `A`. -/
def aTile : Reg := .r0

/-- Pointer to the current tile of `B`. -/
def bTile : Reg := .r1

/-- Pointer to the current tile of `C`. -/
def cTile : Reg := .r2

/-- Walks `A` inside a tile; free for constants outside. -/
def aWalk : Reg := .r3

/-- Walks `B` inside a tile. -/
def bWalk : Reg := .r4

/-- Value of `B` for tile column `j`. -/
def bScalar : Nat → Reg
  | 0 => .r5
  | 1 => .r6
  | _ => .r7

/-- Number of the scalars of `B`. -/
def bScalars : Nat := 3

/-- Row index. -/
def mIndex : Reg := .r8

/-- Column index. -/
def nIndex : Reg := .r9

end Role

/-! ## Forms of the planned values -/

/-- Largest twelve-bit immediate. -/
def imm12Max : Nat := 0xFFF

/-- Largest vector load offset. -/
def vectorOffsetMax : Nat := 508

/-- How the walk through `A` moves to the next column. -/
inductive AStride where
  /-- Writeback of the last vector load. -/
  | postIndex (bytes : Nat)
  /-- Addition of a plain immediate. -/
  | plain (bytes : Nat)
  /-- Addition of a modified constant. -/
  | modified (bytes : Nat)
  | register (reg : Reg)
  /-- Rebuilt in the scalar of column zero before each use. -/
  | scratch (bytes : Nat)
deriving DecidableEq, Repr

/-- How the columns of `B` are reached from the walk register. -/
inductive BStride where
  /-- Load offset `j * bytes`. -/
  | offset (bytes : Nat)
  /-- Register offset, shifted for column two. -/
  | register (reg : Reg)
  /-- Address built in the scalar of the column. -/
  | scratch (bytes : Nat)
deriving DecidableEq, Repr

/-- Base of a column of `C` inside a tile. -/
inductive CColumn where
  /-- Offset from the tile pointer. -/
  | offset (bytes : Nat)
  /-- Register, computed at the start of each tile. -/
  | register (reg : Reg)
  /-- Built in the scalar of the column before the loads and again before the stores. -/
  | scratch (bytes : Nat)
deriving DecidableEq, Repr

/-- How a loop index is compared with its bound. -/
inductive Bound where
  /-- There is no loop. -/
  | absent
  | immediate (value : Nat)
  | register (reg : Reg)
  /-- Loaded into the walk register of `A` at the end of the loop. -/
  | scratch (value : Nat)
deriving DecidableEq, Repr

/-- Form and operand. -/
def AStride.text : AStride → String
  | postIndex bytes => s!"PostIndex({bytes})"
  | plain bytes => s!"Plain({bytes})"
  | modified bytes => s!"Modified({bytes})"
  | register reg => s!"Register({reg.label})"
  | scratch bytes => s!"Scratch({bytes})"

/-- Form and operand. -/
def BStride.text : BStride → String
  | offset bytes => s!"Offset({bytes})"
  | register reg => s!"Register({reg.label})"
  | scratch bytes => s!"Scratch({bytes})"

/-- Form and operand. -/
def CColumn.text : CColumn → String
  | offset bytes => s!"Offset({bytes})"
  | register reg => s!"Register({reg.label})"
  | scratch bytes => s!"Scratch({bytes})"

/-- Form and operand. -/
def Bound.text : Bound → String
  | absent => "Absent"
  | immediate value => s!"Immediate({value})"
  | register reg => s!"Register({reg.label})"
  | scratch value => s!"Scratch({value})"

/-! ## Claims on the pool -/

/-- Registers that the fixed roles leave free. -/
def pool (layout : Layout) : RegSet :=
  let free (condition : Bool) (reg : Reg) (set : RegSet) :=
    if condition then set.insert reg else set
  RegSet.ofList [.r10, .r11, .r12]
    |> free (!layout.mLoop) Role.mIndex
    |> free (!layout.nLoop) Role.nIndex
    |> free (layout.maxTileN ≤ 1) (Role.bScalar 1)
    |> free (layout.maxTileN ≤ 2) (Role.bScalar 2)

/-- What is left of the pool, and what was decided so far. -/
structure Claims where
  pool : RegSet
  /-- Registers to load once at the start of the kernel. -/
  preloads : List (Reg × Nat)
  /-- Values that needed a register and got none. -/
  unavailable : List String
deriving DecidableEq, Repr

namespace Claims

/-- A register of the pool, if there is one; loaded at the start when a value
    is given. -/
def take? (c : Claims) (value : Option Nat) : Option (Reg × Claims) :=
  c.pool.takeFirst?.map fun (reg, pool) =>
    (reg, { c with pool, preloads := c.preloads ++ (value.map (reg, ·)).toList })

/-- Note a value that got no register. -/
def miss (c : Claims) (name : String) : Claims :=
  { c with unavailable := c.unavailable ++ [name] }

/-- Column stride of `B`: the last column of the widest tile must be in reach
    of a load offset. -/
def bStride (c : Claims) (layout : Layout) (bytes : Nat) : Except Trap (BStride × Claims) := do
  let reach ← if layout.maxTileN < 2 then pure 0 else Checked.mul (layout.maxTileN - 1) bytes
  if reach ≤ imm12Max then
    return (.offset bytes, c)
  match c.take? (some bytes) with
  | some (reg, c) => return (.register reg, c)
  | none => return (.scratch bytes, c.miss "the B column stride")

/-- Column stride of `A`. -/
def aStride (c : Claims) (bytes : Nat) : AStride × Claims :=
  if bytes ≤ vectorOffsetMax then (.postIndex bytes, c)
  else if bytes ≤ imm12Max then (.plain bytes, c)
  else
    match c.take? (some bytes) with
    | some (reg, c) => (.register reg, c)
    | none =>
      if ModifiedConstant.isEncodable (UInt32.ofNat bytes) then (.modified bytes, c)
      else (.scratch bytes, c.miss "the A column stride")

/-- Base of column `j` of `C`: the last vector of the tallest tile must be in
    reach of a vector offset.  Columns no tile has need nothing. -/
def cColumn (c : Claims) (layout : Layout) (bytes j : Nat) (name : String) :
    Except Trap (CColumn × Claims) := do
  let offset ← Checked.mul j bytes
  if layout.maxTileN ≤ j then
    return (.offset offset, c)
  let last ← Checked.mul 16 (← Checked.sub (vectorsOf layout.maxTileM) 1)
  let reach ← Checked.add offset last
  if reach ≤ vectorOffsetMax then
    return (.offset offset, c)
  match c.take? none with
  | some (reg, c) => return (.register reg, c)
  | none => return (.scratch offset, c.miss name)

/-- Bound of a loop. -/
def bound (c : Claims) (active : Bool) (value : Nat) (name : String) : Bound × Claims :=
  if !active then (.absent, c)
  else if ModifiedConstant.isEncodable (UInt32.ofNat value) then (.immediate value, c)
  else
    match c.take? (some value) with
    | some (reg, c) => (.register reg, c)
    | none => (.scratch value, c.miss name)

end Claims

/-! ## The plan -/

/-- Register plan of one kernel. -/
structure Plan where
  aStride : AStride
  bStride : BStride
  cColumn1 : CColumn
  cColumn2 : CColumn
  mBound : Bound
  nBound : Bound
  /-- Registers loaded once at the start of the kernel, with their values. -/
  preloads : List (Reg × Nat)
  /-- Values that are rebuilt at every use for want of a register. -/
  unavailable : List String
  /-- Registers of the pool that nothing claimed. -/
  spare : RegSet
deriving DecidableEq, Repr

namespace Plan

/-- Whether every value got a register or an immediate. -/
def isComplete (p : Plan) : Bool :=
  p.unavailable.isEmpty

/-- How column `j` of `C` is reached, for a `j` of one or two. -/
def cColumn (p : Plan) (j : Nat) : CColumn :=
  if j = 1 then p.cColumn1 else p.cColumn2

/-- All decisions in one line. -/
def text (p : Plan) : String :=
  s!"a {p.aStride.text}, b {p.bStride.text}, " ++
    s!"c [{p.cColumn1.text}, {p.cColumn2.text}], " ++
    s!"m {p.mBound.text}, n {p.nBound.text}, spare {p.spare.text}"

/-- Plan with the given pool. -/
def ofPool (shape : Shape) (layout : Layout) (pool : RegSet) : Except Trap Plan := do
  let aBytes ← Checked.mul shape.lda 4
  let bBytes ← Checked.mul shape.ldb 4
  let cBytes ← Checked.mul shape.ldc 4
  let claims : Claims := { pool, preloads := [], unavailable := [] }
  let (bStride, claims) ← claims.bStride layout bBytes
  let (aStride, claims) := claims.aStride aBytes
  let (cColumn1, claims) ← claims.cColumn layout cBytes 1 "the C column 1 base"
  let (cColumn2, claims) ← claims.cColumn layout cBytes 2 "the C column 2 base"
  let (mBound, claims) := claims.bound layout.mLoop layout.mBound "the m loop bound"
  let (nBound, claims) := claims.bound layout.nLoop layout.nBound "the n loop bound"
  return { aStride, bStride, cColumn1, cColumn2, mBound, nBound,
           preloads := claims.preloads, unavailable := claims.unavailable, spare := claims.pool }

/-- Plan with the registers the fixed roles leave free. -/
def ofLayout (shape : Shape) (layout : Layout) : Except Trap Plan :=
  ofPool shape layout (pool layout)

/-- Byte offset of column `j` of `B` from the walk register, where it is a
    constant of the code. -/
def bOffset (p : Plan) (j : Nat) : Except Trap Nat :=
  match p.bStride with
  | .offset bytes | .scratch bytes => Checked.mul j bytes
  | .register _ => .ok 0

end Plan

end HeliumKernels.Gemm
