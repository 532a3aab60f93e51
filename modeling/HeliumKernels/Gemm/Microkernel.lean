/-
  HeliumKernels.Gemm.Microkernel

  The code of one tile.  A column slice of `A` sits in up to four vector
  registers, each tile column of `C` in as many accumulators, and one value
  of `B` per column is broadcast into the multiply-adds.  The first and the
  last step of the `k` loop are peeled off the hardware loop, so that
  pointers move only where a next step follows.  Rows that do not fill a
  vector are loaded and stored under a lane predicate.
-/
import HeliumKernels.Gemm.Plan
import HeliumKernels.Kernel.Sequence

namespace HeliumKernels.Gemm

open Role

/-- A shape with its plan, and the byte offsets of columns one and two of `B`. -/
structure Context where
  shape : Shape
  plan : Plan
  bOffset1 : Nat
  bOffset2 : Nat
deriving DecidableEq, Repr

/-- A tile of `mt` rows and `nt` columns. -/
structure Tile where
  mt : Nat
  nt : Nat
deriving DecidableEq, Repr

namespace Tile

/-- Vectors of a column. -/
def vectors (t : Tile) : Nat :=
  vectorsOf t.mt

/-- Rows of the last vector if it is not full, else zero. -/
def tail (t : Tile) : Nat :=
  t.mt % 4

/-- Whether vector `i` of a column is not full. -/
def isPartial (t : Tile) (i : Nat) : Bool :=
  t.tail != 0 && i + 1 == t.vectors

/-- Register of vector `i` of the slice of `A`. -/
def a (i : Nat) : QReg :=
  QReg.ofField i

/-- Accumulator of vector `i` of column `j`. -/
def acc (t : Tile) (i j : Nat) : QReg :=
  QReg.ofField (t.vectors * (j + 1) + i)

/-- Tile columns after the first. -/
def laterColumns (t : Tile) : List Nat :=
  List.range' 1 (t.nt - 1)

end Tile

/-- Stop unless the parts of the largest tile can be numbered: its columns by the scalars
    of `B`, the accumulators, and the bytes of a column from the last offset in reach on. -/
def Layout.checkTile (l : Layout) : Except Trap Unit := do
  if bScalars < l.maxTileN then
    throw .outOfBounds
  let _ ← vectorRegisters l.maxTileM l.maxTileN
  let _ ← Checked.int32 (vectorOffsetMax + 16 * vectorsOf l.maxTileM : Nat)

namespace Context

/-- Byte offset of column `j` of `B`. -/
def bOffset (ctx : Context) (j : Nat) : Nat :=
  if j = 1 then ctx.bOffset1 else ctx.bOffset2

/-- Base register and byte offset of column `j` of `C`. -/
def columnBase (ctx : Context) (j : Nat) : Reg × Int :=
  if j = 0 then (cTile, 0)
  else
    match ctx.plan.cColumn j with
    | .offset bytes => (cTile, bytes)
    | .register reg => (reg, 0)
    | .scratch _ => (bScalar j, 0)

/-- Compute the column bases that are not offsets.  Uses the walk register of
    `A`, so it stands before the walk starts. -/
def columnBases (ctx : Context) (t : Tile) : Script :=
  t.laterColumns.flatMap fun j =>
    match ctx.plan.cColumn j with
    | .offset _ => []
    | .register reg => Sequence.addConstant reg cTile (j * ctx.shape.ldc * 4 : Nat) aWalk
    | .scratch bytes => Sequence.addConstant (bScalar j) cTile bytes aWalk

/-- Compute again the column bases that the `k` loop has overwritten. -/
def rebuildColumns (ctx : Context) (t : Tile) : Script :=
  t.laterColumns.flatMap fun j =>
    match ctx.plan.cColumn j with
    | .offset _ | .register _ => []
    | .scratch bytes => Sequence.addConstant (bScalar j) cTile bytes aWalk

/-- Load or store vector `i` of column `j` of `C`. -/
def accessC (ctx : Context) (t : Tile) (access : Access) (i j : Nat) : Directive :=
  let (rn, offset) := ctx.columnBase j
  .emit (.vecMem access (t.acc i j) rn (offset + (16 * i : Nat)) .offset)

/-- Load or store all accumulators: full vectors first, then the partial
    vectors of all columns under one predication block. -/
def transferC (ctx : Context) (t : Tile) (access : Access) : Script :=
  let rows := List.range t.vectors
  let columns := List.range t.nt
  (columns.flatMap fun j =>
    (rows.filter fun i => !t.isPartial i).map fun i => ctx.accessC t access i j) ++
  if t.tail = 0 then []
  else .emit (.vpst t.nt) :: columns.map fun j => ctx.accessC t access (t.vectors - 1) j

/-- Move the walk through `A` to the next column. -/
def advanceA (ctx : Context) : Script :=
  match ctx.plan.aStride with
  | .postIndex bytes | .plain bytes =>
    [.emit (.addSubImm .add aWalk aWalk (UInt32.ofNat bytes) .plain12)]
  | .modified bytes => [.emit (.addSubImm .add aWalk aWalk (UInt32.ofNat bytes) .modified)]
  | .register rm => [.emit (.addSubReg .add aWalk aWalk rm 0 .narrowAcc)]
  | .scratch bytes =>
    -- The value of `B` in this scalar is used up by the previous step.
    Sequence.loadConstant (bScalar 0) (UInt32.ofNat bytes) ++
      [.emit (.addSubReg .add aWalk aWalk (bScalar 0) 0 .narrowAcc)]

/-- Load the value of `B` for a column `j` after the first. -/
def loadB (ctx : Context) (j : Nat) : Script :=
  let rt := bScalar j
  let offset := ctx.bOffset j
  match ctx.plan.bStride with
  | .offset _ =>
    let form := if offset ≤ 124 then LdrImmForm.narrow else LdrImmForm.wide12
    [.emit (.ldrImm rt bWalk offset .offset form)]
  | .register rm => [.emit (.ldrReg rt bWalk rm (j - 1))]
  | .scratch _ =>
    Sequence.loadConstant rt (UInt32.ofNat offset) ++
      [.emit (.addSubReg .add rt rt bWalk 0 .narrowAcc),
       .emit (.ldrImm rt rt 0 .offset .narrow)]

/-- Bytes by which the last load of `A` moves the walk, if it does. -/
def postIndex? (ctx : Context) (advance : Bool) : Option Nat :=
  match ctx.plan.aStride, advance with
  | .postIndex bytes, true => some bytes
  | _, _ => none

/-- Load the slice of `A`, last vector first, so that the walk moves only with
    the first one. -/
def loadA (t : Tile) (post : Option Nat) : Script :=
  (List.range t.vectors).reverse.flatMap fun i =>
    (if t.isPartial i then [.emit (.vpst 1)] else []) ++
    match post, i with
    | some bytes, 0 => [.emit (.vecMem .load (Tile.a 0) aWalk bytes .postIndex)]
    | _, _ => [.emit (.vecMem .load (Tile.a i) aWalk (16 * i : Nat) .offset)]

/-- Load the value of `B` for the first column. -/
def loadFirstB (advance : Bool) : Directive :=
  if advance then .emit (.ldrImm (bScalar 0) bWalk 4 .postIndex .wide8)
  else .emit (.ldrImm (bScalar 0) bWalk 0 .offset .narrow)

/-- All multiply-adds of one step. -/
def multiplyAdds (t : Tile) : Script :=
  (List.range t.nt).flatMap fun j =>
    (List.range t.vectors).map fun i => .emit (.vfmaScalar (t.acc i j) (Tile.a i) (bScalar j))

/-- One step of the `k` loop, moving on to the next if `advance` is set. -/
def kStep (ctx : Context) (t : Tile) (advance : Bool) : Script :=
  let post := ctx.postIndex? advance
  loadA t post ++
  (if advance && post.isNone then ctx.advanceA else []) ++
  t.laterColumns.flatMap ctx.loadB ++
  [loadFirstB advance] ++
  multiplyAdds t

/-- Label of the `k` loop. -/
def depth : Label := "depth"

/-- Set the lane predicate for the rows of a partial vector. -/
def tailPredicate (t : Tile) : Script :=
  if t.tail = 0 then []
  else
    [.emit (.movImm (bScalar 0) (UInt32.ofNat t.tail) .narrow8),
     .emit (.vctp .b32 (bScalar 0))]

/-- The hardware loop over the steps between the first and the last. -/
def kLoop (ctx : Context) (t : Tile) : Script :=
  if ctx.shape.k < 3 then []
  else
    Sequence.loadConstant .lr (UInt32.ofNat (ctx.shape.k - 2)) ++
    [.emit (.loopStart .lr none none), .mark depth] ++
    ctx.kStep t true ++
    [.loopEnd depth false]

/-- The code of one tile at the current tile pointers. -/
def microkernel (ctx : Context) (t : Tile) : Script :=
  ctx.columnBases t ++
  [.emit (.movReg aWalk aTile), .emit (.movReg bWalk bTile)] ++
  tailPredicate t ++
  ctx.transferC t .load ++
  ctx.kStep t (1 < ctx.shape.k) ++
  ctx.kLoop t ++
  (if ctx.shape.k < 2 then [] else ctx.kStep t false) ++
  ctx.rebuildColumns t ++
  ctx.transferC t .store

end Context

end HeliumKernels.Gemm
