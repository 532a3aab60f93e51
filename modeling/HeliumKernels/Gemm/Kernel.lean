/-
  HeliumKernels.Gemm.Kernel

  The whole kernel: the frame, the registers that are loaded once, and the
  tiles in the arrangement the regime asks for, with tiles of the remaining
  rows and columns after the full ones.  A shape or tiling that is refused
  gives a script that only records why.
-/
import HeliumKernels.Gemm.Microkernel

namespace HeliumKernels.Gemm

open Role

namespace Context

/-- Compare a loop index with its bound. -/
def compare (index : Reg) : Bound → Script
  | .absent => []
  | .immediate value => [.emit (.cmpImm index (UInt32.ofNat value) .modified)]
  | .register rm => [.emit (.cmpReg index rm)]
  | .scratch value =>
    Sequence.loadConstant aWalk (UInt32.ofNat value) ++ [.emit (.cmpReg index aWalk)]

/-- Label of the loop over blocks of rows. -/
def rows : Label := "rows"

/-- Label of the loop over blocks of columns. -/
def columns : Label := "columns"

/-- Full blocks of `tileM` rows, then the remaining rows. -/
def rowLoop (ctx : Context) (tileM nt : Nat) : Script :=
  let rest := ctx.shape.m % tileM
  let step : Int := (tileM * 4 : Nat)
  Sequence.loadConstant mIndex 0 ++
  [.mark rows] ++
  ctx.microkernel ⟨tileM, nt⟩ ++
  Sequence.addConstant aTile aTile step aWalk ++
  Sequence.addConstant cTile cTile step aWalk ++
  Sequence.addConstant mIndex mIndex tileM aWalk ++
  compare mIndex ctx.plan.mBound ++
  [.branchTo rows .ne] ++
  if rest = 0 then [] else ctx.microkernel ⟨rest, nt⟩

/-- What the column loop runs for a block of `nt` columns: the row loop, or
    one tile of all rows. -/
def columnBlock (ctx : Context) (tileM : Option Nat) (nt : Nat) : Script :=
  match tileM with
  | none => ctx.microkernel ⟨ctx.shape.m, nt⟩
  | some tileM => ctx.rowLoop tileM nt

/-- Bytes by which the row loop has moved the tile pointers of `A` and `C`. -/
def rewind (ctx : Context) (tileM : Option Nat) : Int :=
  match tileM with
  | none => 0
  | some tileM => ((ctx.shape.m - ctx.shape.m % tileM) * 4 : Nat)

/-- Full blocks of `tileN` columns, then the remaining columns. -/
def columnLoop (ctx : Context) (tileM : Option Nat) (tileN : Nat) : Script :=
  let rest := ctx.shape.n % tileN
  let rewind := ctx.rewind tileM
  Sequence.loadConstant nIndex 0 ++
  [.mark columns] ++
  ctx.columnBlock tileM tileN ++
  Sequence.addConstant aTile aTile (-rewind) aWalk ++
  Sequence.addConstant bTile bTile (tileN * ctx.shape.ldb * 4 : Nat) aWalk ++
  Sequence.addConstant cTile cTile ((tileN * ctx.shape.ldc * 4 : Nat) - rewind) aWalk ++
  Sequence.addConstant nIndex nIndex tileN aWalk ++
  compare nIndex ctx.plan.nBound ++
  [.branchTo columns .ne] ++
  if rest = 0 then [] else ctx.columnBlock tileM rest

/-- Callee-saved registers of the frame. -/
def saved : RegSet :=
  RegSet.range .r4 .r11

/-- The tiles of a regime. -/
def tiles (ctx : Context) : Regime → Script
  | .single => ctx.microkernel ⟨ctx.shape.m, ctx.shape.n⟩
  | .mLoop tileM => ctx.rowLoop tileM ctx.shape.n
  | .nLoop tileN => ctx.columnLoop none tileN
  | .nested tileM tileN => ctx.columnLoop (some tileM) tileN

/-- The kernel of a planned shape. -/
def script (ctx : Context) (regime : Regime) : Script :=
  Sequence.save saved true ++
  (ctx.plan.unavailable.map fun value => .note (.registerUnavailable value)) ++
  (ctx.plan.preloads.flatMap fun (reg, value) =>
    Sequence.loadConstant reg (UInt32.ofNat value)) ++
  ctx.tiles regime ++
  Sequence.restoreAndReturn saved true

/-- The shape with a plan, the offsets of `B` computed. -/
def ofPlan (shape : Shape) (plan : Plan) : Except Trap Context := do
  let bOffset1 ← plan.bOffset 1
  let bOffset2 ← plan.bOffset 2
  return { shape, plan, bOffset1, bOffset2 }

end Context

/-- The first reason to refuse a request, if there is one; the tiling is
    looked at first. -/
def refusal? (tiling : Tiling) (shape : Shape) : Except Trap (Option String) := do
  match ← tiling.error? with
  | some e => return some s!"tiling: {e.message}"
  | none => return shape.error?.map ShapeError.message

/-- Script of the kernel for a shape.  Without a pool the plan may use every
    register that the fixed roles leave free. -/
def script (tiling : Tiling) (pool? : Option RegSet) (shape : Shape) : Except Trap Script := do
  match ← refusal? tiling shape with
  | some reason => return [.note (.invalidShape reason)]
  | none =>
    let regime := Regime.select shape tiling
    let layout ← regime.layout shape
    let plan ← Plan.ofPool shape layout (pool?.getD (pool layout))
    let ctx ← Context.ofPlan shape plan
    layout.checkTile
    return ctx.script regime

end HeliumKernels.Gemm
