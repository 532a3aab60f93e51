/-
  HeliumKernels.Gemm.Tiling

  How the problem is cut into tiles, and how the tiles are arranged.  A tile
  needs one vector register per four rows of `A` and as many accumulators per
  column.  The regime says which loops run over the tiles, the layout what
  the register plan has to know about them.
-/
import HeliumKernels.Gemm.Shape
import HeliumKernels.Trap

namespace HeliumKernels.Gemm

/-- Tile sizes. -/
structure Tiling where
  /-- Rows of the general tile. -/
  tileM : Nat := 8
  /-- Columns of the general tile. -/
  tileN : Nat := 3
  /-- Rows of the tile that is used when there is a single column. -/
  columnTileM : Nat := 16
deriving DecidableEq, Repr

/-- Why a tiling is refused. -/
inductive TilingError where
  | tileHeight (tileM max : Nat)
  | tileWidth (tileN max : Nat)
  | registerBudget (tileM tileN needed available : Nat)
deriving DecidableEq, Repr

/-- Wording of each cause. -/
def TilingError.message : TilingError → String
  | tileHeight tileM max => s!"tile height {tileM} must be a multiple of 4 in 4..={max}"
  | tileWidth tileN max => s!"tile width {tileN} must be in 1..={max}"
  | registerBudget tileM tileN needed available =>
    s!"a {tileM}x{tileN} tile needs {needed} vector registers, {available} available"

/-- Vectors of four rows that cover `rows` rows. -/
def vectorsOf (rows : Nat) : Nat :=
  (rows + 3) / 4

/-- Vector registers a tile occupies. -/
def vectorRegisters (tileM tileN : Nat) : Except Trap Nat := do
  Checked.mul (vectorsOf tileM) (← Checked.add tileN 1)

namespace Tiling

/-- Most rows of a tile. -/
def maxTileM : Nat := 16

/-- Most columns of a tile; each keeps a scalar of `B`. -/
def maxTileN : Nat := 3

/-- Vector registers there are. -/
def available : Nat := 8

/-- Refuses a height that is not a multiple of four in range. -/
def heightError? (tileM : Nat) : Option TilingError :=
  if tileM = 0 ∨ tileM % 4 ≠ 0 ∨ maxTileM < tileM then some (.tileHeight tileM maxTileM) else none

/-- Refuses a tile that needs more vector registers than there are. -/
def budgetError? (tileM tileN : Nat) : Except Trap (Option TilingError) := do
  let needed ← vectorRegisters tileM tileN
  return if available < needed then some (.registerBudget tileM tileN needed available) else none

/-- First reason to refuse the tiling, if there is one: heights, width, then
    the register budget of both tiles. -/
def error? (t : Tiling) : Except Trap (Option TilingError) := do
  if let some e := heightError? t.tileM <|> heightError? t.columnTileM then
    return some e
  if t.tileN = 0 ∨ maxTileN < t.tileN then
    return some (.tileWidth t.tileN maxTileN)
  if let some e ← budgetError? t.tileM t.tileN then
    return some e
  budgetError? t.columnTileM 1

end Tiling

/-- Loop structure as far as registers are concerned. -/
structure Layout where
  mLoop : Bool
  nLoop : Bool
  /-- Rows of the tallest tile. -/
  maxTileM : Nat
  /-- Columns of the widest tile. -/
  maxTileN : Nat
  /-- Rows covered by full tiles, where the row loop ends. -/
  mBound : Nat
  /-- Columns covered by full tiles, where the column loop ends. -/
  nBound : Nat
deriving DecidableEq, Repr

/-- Arrangement of the tiles. -/
inductive Regime where
  /-- One tile covers all of `C`. -/
  | single
  /-- Loop over blocks of rows, all columns at once. -/
  | mLoop (tileM : Nat)
  /-- Loop over blocks of columns, all rows at once. -/
  | nLoop (tileN : Nat)
  /-- Blocks of columns outside, blocks of rows inside. -/
  | nested (tileM tileN : Nat)
deriving DecidableEq, Repr

namespace Regime

/-- Arrangement for a shape. -/
def select (shape : Shape) (tiling : Tiling) : Regime :=
  if (shape.m ≤ tiling.columnTileM ∧ shape.n = 1) ∨
      (shape.m ≤ tiling.tileM ∧ shape.n ≤ tiling.tileN) then .single
  else if shape.n ≤ tiling.tileN then
    .mLoop (if shape.n = 1 then tiling.columnTileM else tiling.tileM)
  else if shape.m ≤ tiling.tileM then .nLoop tiling.tileN
  else .nested tiling.tileM tiling.tileN

/-- The part of `total` that full tiles cover. -/
def full (total tile : Nat) : Except Trap Nat := do
  let rest ← Checked.mod total tile
  return total - rest

/-- Layout of an arrangement. -/
def layout (shape : Shape) : Regime → Except Trap Layout
  | single =>
    .ok { mLoop := false, nLoop := false, maxTileM := shape.m, maxTileN := shape.n,
          mBound := 0, nBound := 0 }
  | mLoop tileM => do
    let mBound ← full shape.m tileM
    return { mLoop := true, nLoop := false, maxTileM := tileM, maxTileN := shape.n,
             mBound, nBound := 0 }
  | nLoop tileN => do
    let nBound ← full shape.n tileN
    return { mLoop := false, nLoop := true, maxTileM := shape.m, maxTileN := tileN,
             mBound := 0, nBound }
  | nested tileM tileN => do
    let mBound ← full shape.m tileM
    let nBound ← full shape.n tileN
    return { mLoop := true, nLoop := true, maxTileM := tileM, maxTileN := tileN,
             mBound, nBound }

/-- Name and tile sizes. -/
def text : Regime → String
  | single => "Single"
  | mLoop tileM => s!"MLoop \x7b tile_m: {tileM} \x7d"
  | nLoop tileN => s!"NLoop \x7b tile_n: {tileN} \x7d"
  | nested tileM tileN => s!"Nested \x7b tile_m: {tileM}, tile_n: {tileN} \x7d"

end Regime

end HeliumKernels.Gemm
