/-
  HeliumKernels.Proofs.Gemm.Coverage

  The places at which a regime puts its tiles.  Rows and columns are each cut
  into full pieces and a rest, and there is a tile for every pair of pieces.
  Each element of `C` lies in exactly one tile, every tile is within the
  bounds of the layout, and its vectors have registers of their own.
-/
import HeliumKernels.Proofs.Gemm.Tile

namespace HeliumKernels.Gemm

/-! ## Pieces of a range -/

/-- Part of a range of rows or columns. -/
structure Piece where
  start : Nat
  size : Nat
deriving DecidableEq, Repr

/-- Whether a row or column lies in the piece. -/
def Piece.covers (p : Piece) (i : Nat) : Bool :=
  p.start ≤ i ∧ i < p.start + p.size

/-- Full pieces, and a smaller one for what is left. -/
def cut (total tile : Nat) : List Piece :=
  (List.range (total / tile)).map (fun c => ⟨c * tile, tile⟩) ++
    if total % tile = 0 then [] else [⟨total - total % tile, total % tile⟩]

theorem countP_fulls {tile : Nat} (rounds i : Nat) :
    ((List.range rounds).map fun c => (⟨c * tile, tile⟩ : Piece)).countP (·.covers i) =
      if i < rounds * tile then 1 else 0 := by
  induction rounds with
  | zero => simp
  | succ rounds ih =>
    rw [List.range_succ, List.map_append, List.countP_append, ih, List.map_singleton,
      List.countP_singleton, Nat.succ_mul]
    simp only [Piece.covers, decide_eq_true_eq]
    -- a number below the new end is either below the old one or in the new piece
    split <;> split <;> split <;> omega

/-- Cutting a range loses nothing and takes nothing twice. -/
theorem countP_cut (total tile i : Nat) :
    (cut total tile).countP (·.covers i) = if i < total then 1 else 0 := by
  have hdiv := Nat.div_mul_self_eq_mod_sub_self (x := total) (k := tile)
  have hle := Nat.mod_le total tile
  rw [cut, List.countP_append, countP_fulls, hdiv]
  by_cases hrest : total % tile = 0
  · rw [if_pos hrest, hrest, Nat.sub_zero, List.countP_nil]
    rfl
  · rw [if_neg hrest, List.countP_singleton]
    simp only [Piece.covers, decide_eq_true_eq]
    split <;> split <;> split <;> omega

theorem countP_whole (total i : Nat) :
    [(⟨0, total⟩ : Piece)].countP (·.covers i) = if i < total then 1 else 0 := by
  simp [Piece.covers]

/-- Pieces of a cut are not empty and no longer than a tile. -/
theorem bounds_of_mem_cut {total tile : Nat} (htile : 0 < tile) {p : Piece} (hp : p ∈ cut total tile) :
    0 < p.size ∧ p.size ≤ tile := by
  have hlt := Nat.mod_lt total htile
  rcases List.mem_append.mp hp with hp | hp
  · obtain ⟨c, -, rfl⟩ := List.mem_map.mp hp
    exact ⟨htile, Nat.le_refl _⟩
  · split at hp
    · exact absurd hp List.not_mem_nil
    · obtain rfl := List.mem_singleton.mp hp
      exact ⟨Nat.pos_of_ne_zero ‹_›, Nat.le_of_lt hlt⟩

/-! ## Tiles and their places -/

/-- A tile with the row and the column of its first element. -/
structure Stop where
  tile : Tile
  row : Nat
  column : Nat
deriving DecidableEq, Repr

/-- Whether the tile has element `(i, j)`. -/
def Stop.covers (s : Stop) (i j : Nat) : Bool :=
  (s.row ≤ i ∧ i < s.row + s.tile.mt) ∧ s.column ≤ j ∧ j < s.column + s.tile.nt

/-- The tiles of a block of columns, from top to bottom. -/
def blockStops (rows : List Piece) (column : Piece) : List Stop :=
  rows.map fun row => ⟨⟨row.size, column.size⟩, row.start, column.start⟩

theorem countP_blockStops (rows : List Piece) (column : Piece) (i j : Nat) :
    (blockStops rows column).countP (·.covers i j) =
      if column.covers j then rows.countP (·.covers i) else 0 := by
  rw [blockStops, List.countP_map]
  by_cases hj : column.covers j = true
  · rw [if_pos hj]
    refine List.countP_congr fun row _ => ?_
    simp only [Piece.covers, decide_eq_true_eq] at hj
    simp [Stop.covers, Piece.covers, hj]
  · rw [if_neg hj, List.countP_eq_zero]
    intro row _ hcovers
    simp only [Function.comp_apply, Stop.covers, decide_eq_true_eq] at hcovers
    exact hj (by simpa [Piece.covers] using hcovers.2)

/-- In a grid of rows and columns the counts multiply. -/
theorem countP_grid (rows columns : List Piece) (i j : Nat) :
    (columns.flatMap (blockStops rows)).countP (·.covers i j) =
      columns.countP (·.covers j) * rows.countP (·.covers i) := by
  induction columns with
  | nil => simp
  | cons column columns ih =>
    rw [List.flatMap_cons, List.countP_append, countP_blockStops, ih, List.countP_cons]
    split
    · rw [Nat.add_mul, Nat.one_mul, Nat.add_comm]
    · rw [Nat.zero_add, Nat.add_zero]

namespace Regime

/-- The rows that one tile takes at a time. -/
def rowPieces (shape : Shape) : Regime → List Piece
  | single | nLoop _ => [⟨0, shape.m⟩]
  | mLoop tileM | nested tileM _ => cut shape.m tileM

/-- The columns that one tile takes at a time. -/
def columnPieces (shape : Shape) : Regime → List Piece
  | single | mLoop _ => [⟨0, shape.n⟩]
  | nLoop tileN | nested _ tileN => cut shape.n tileN

/-- All tiles of a regime in the order in which they are computed. -/
def stops (shape : Shape) (regime : Regime) : List Stop :=
  (regime.columnPieces shape).flatMap (blockStops (regime.rowPieces shape))

variable {shape : Shape} {regime : Regime} {layout : Layout}

theorem countP_rowPieces (shape : Shape) (regime : Regime) (i : Nat) :
    (regime.rowPieces shape).countP (·.covers i) = if i < shape.m then 1 else 0 := by
  cases regime with
  | single | nLoop => exact countP_whole _ _
  | mLoop | nested => exact countP_cut _ _ _

theorem countP_columnPieces (shape : Shape) (regime : Regime) (j : Nat) :
    (regime.columnPieces shape).countP (·.covers j) = if j < shape.n then 1 else 0 := by
  cases regime with
  | single | mLoop => exact countP_whole _ _
  | nLoop | nested => exact countP_cut _ _ _

/-- Every element lies in one tile, and tiles have no other elements. -/
theorem countP_stops (shape : Shape) (regime : Regime) (i j : Nat) :
    (regime.stops shape).countP (·.covers i j) = if i < shape.m ∧ j < shape.n then 1 else 0 := by
  rw [stops, countP_grid, countP_rowPieces, countP_columnPieces]
  by_cases hi : i < shape.m <;> by_cases hj : j < shape.n <;> simp [hi, hj]

theorem Arranges.rowPieces_bounds (h : regime.Arranges shape layout) (hm : 0 < shape.m) {p : Piece}
    (hp : p ∈ regime.rowPieces shape) : 0 < p.size ∧ p.size ≤ layout.maxTileM := by
  cases h with
  | single | nLoop =>
    obtain rfl := List.mem_singleton.mp hp
    exact ⟨hm, Nat.le_refl _⟩
  | mLoop hpos | nested hpos => exact bounds_of_mem_cut hpos hp

theorem Arranges.columnPieces_bounds (h : regime.Arranges shape layout) (hn : 0 < shape.n)
    {p : Piece} (hp : p ∈ regime.columnPieces shape) : 0 < p.size ∧ p.size ≤ layout.maxTileN := by
  cases h with
  | single | mLoop =>
    obtain rfl := List.mem_singleton.mp hp
    exact ⟨hn, Nat.le_refl _⟩
  | nLoop hpos => exact bounds_of_mem_cut hpos hp
  | nested _ _ hpos => exact bounds_of_mem_cut hpos hp

theorem whole_tiles {total tile : Nat} (hpos : 0 < tile) (hle : tile ≤ total) :
    0 < total - total % tile ∧
      total - total % tile = (total - total % tile) / tile * tile := by
  have hlt := Nat.mod_lt total hpos
  exact ⟨by omega, (Nat.div_mul_cancel (Nat.dvd_sub_mod _)).symm⟩

/-- A loop over rows ends after a number of full tiles. -/
theorem Arranges.mBound_eq (h : regime.Arranges shape layout) (hloop : layout.mLoop = true) :
    0 < layout.mBound ∧ layout.mBound = layout.mBound / layout.maxTileM * layout.maxTileM := by
  cases h with
  | single | nLoop => cases hloop
  | mLoop hpos hle | nested hpos hle => exact whole_tiles hpos hle

/-- So does a loop over columns. -/
theorem Arranges.nBound_eq (h : regime.Arranges shape layout) (hloop : layout.nLoop = true) :
    0 < layout.nBound ∧ layout.nBound = layout.nBound / layout.maxTileN * layout.maxTileN := by
  cases h with
  | single | mLoop => cases hloop
  | nLoop hpos hle => exact whole_tiles hpos hle
  | nested _ _ hpos hle => exact whole_tiles hpos hle

end Regime

/-! ## Vector registers -/

namespace Tile

/-- Registers of the slice of `A`, then the accumulators. -/
def vectorRegs (t : Tile) : List QReg :=
  (List.range t.vectors).map a ++ t.cells.map fun x => t.acc x.1 x.2

/-- A tile within the budget uses no register twice: no number wraps around. -/
theorem Fits.nodup_vectorRegs {t : Tile} {shape : Shape} {layout : Layout}
    (h : t.Fits shape layout) (hlayout : layout.Fits) : t.vectorRegs.Nodup := by
  refine List.nodup_append.mpr ⟨?_, ?_, ?_⟩
  · refine List.Nodup.map_on (fun i hi i' hi' heq => ?_) List.nodup_range
    exact a_injective h hlayout (List.mem_range.mp hi) (List.mem_range.mp hi') heq
  · exact List.Nodup.map_on (fun x hx y hy heq => acc_injective h hlayout hx hy heq) t.nodup_cells
  · intro q hq q' hq' heq
    obtain ⟨i, hi, rfl⟩ := List.mem_map.mp hq
    obtain ⟨x, hx, rfl⟩ := List.mem_map.mp hq'
    exact acc_ne_a h hlayout hx (List.mem_range.mp hi) heq.symm

end Tile

/-! ## Coverage -/

/-- Tiles at their places cover `C` exactly once, within the bounds of a layout. -/
structure Coverage (shape : Shape) (layout : Layout) (stops : List Stop) : Prop where
  /-- Every element is in exactly one tile, and tiles have no other elements. -/
  once : ∀ i j, stops.countP (·.covers i j) = if i < shape.m ∧ j < shape.n then 1 else 0
  rows : ∀ s ∈ stops, 1 ≤ s.tile.mt ∧ s.tile.mt ≤ layout.maxTileM
  columns : ∀ s ∈ stops, 1 ≤ s.tile.nt ∧ s.tile.nt ≤ layout.maxTileN
  scalars : layout.maxTileN ≤ 3
  /-- Each tile has a vector register of its own for every vector. -/
  vectors : ∀ s ∈ stops, s.tile.vectorRegs.Nodup
  /-- A loop runs a whole number of times, at least once. -/
  mBound : layout.mLoop = true →
    0 < layout.mBound ∧ layout.mBound = layout.mBound / layout.maxTileM * layout.maxTileM
  nBound : layout.nLoop = true →
    0 < layout.nBound ∧ layout.nBound = layout.nBound / layout.maxTileN * layout.maxTileN

theorem Regime.Arranges.coverage {shape : Shape} {regime : Regime} {layout : Layout}
    (h : regime.Arranges shape layout) (hlayout : layout.Fits) (hm : 0 < shape.m)
    (hn : 0 < shape.n) : Coverage shape layout (regime.stops shape) := by
  -- a tile comes from a piece of the rows and a piece of the columns
  have hpieces : ∀ s ∈ regime.stops shape, (1 ≤ s.tile.mt ∧ s.tile.mt ≤ layout.maxTileM) ∧
      1 ≤ s.tile.nt ∧ s.tile.nt ≤ layout.maxTileN := by
    intro s hs
    obtain ⟨column, hcolumn, hs⟩ := List.mem_flatMap.mp hs
    obtain ⟨row, hrow, rfl⟩ := List.mem_map.mp hs
    exact ⟨h.rowPieces_bounds hm hrow, h.columnPieces_bounds hn hcolumn⟩
  refine ⟨countP_stops shape regime, fun s hs => (hpieces s hs).1, fun s hs => (hpieces s hs).2,
    hlayout.maxTileN_le, fun s hs => ?_, h.mBound_eq, h.nBound_eq⟩
  obtain ⟨⟨hmt, hmt'⟩, hnt, hnt'⟩ := hpieces s hs
  have hfits : s.tile.Fits shape layout := ⟨hmt, hnt, hmt', hnt', Nat.le_trans hmt' h.maxTileM_le⟩
  exact hfits.nodup_vectorRegs hlayout

end HeliumKernels.Gemm
