/-
  HeliumKernels.Proofs.Gemm.Tiling

  What an accepted shape and an accepted tiling guarantee.  Whatever regime
  they lead to, its layout exists, its tallest and widest tile fit the vector
  registers, and a loop over blocks has at least one block.
-/
import HeliumKernels.Gemm.Tiling
import HeliumKernels.Proofs.Encoding.Operand
import Mathlib.Data.Option.Basic

namespace HeliumKernels

namespace Checked

theorem add_eq_ok {a b : Nat} (h : a + b < 2 ^ 32) : add a b = .ok (a + b) := if_pos h

theorem mul_eq_ok {a b : Nat} (h : a * b < 2 ^ 32) : mul a b = .ok (a * b) := if_pos h

end Checked

namespace Gemm

/-- Dimensions that the kernel generator accepts. -/
structure Shape.Valid (s : Shape) : Prop where
  m_pos : 0 < s.m
  k_pos : 0 < s.k
  n_pos : 0 < s.n
  m_le_lda : s.m ≤ s.lda
  k_le_ldb : s.k ≤ s.ldb
  m_le_ldc : s.m ≤ s.ldc
  n_le : s.n ≤ maxDimension
  lda_le : s.lda ≤ maxDimension
  ldb_le : s.ldb ≤ maxDimension
  ldc_le : s.ldc ≤ maxDimension

theorem Shape.valid_of_error? {s : Shape} (h : s.error? = none) : s.Valid := by
  unfold error? at h
  simp only [Option.orElse_eq_none, ite_eq_right_iff, reduceCtorEq, imp_false, Nat.not_lt] at h
  -- the bounds of m and k follow from those of the leading dimensions
  obtain ⟨hm, hk, hn, hlda, hldb, hldc, -, -, hn', hlda', hldb', hldc'⟩ := h
  exact ⟨Nat.pos_of_ne_zero hm, Nat.pos_of_ne_zero hk, Nat.pos_of_ne_zero hn, hlda, hldb, hldc,
    hn', hlda', hldb', hldc'⟩

/-- Tile sizes that the kernel generator accepts. -/
structure Tiling.Valid (t : Tiling) : Prop where
  tileM_pos : 0 < t.tileM
  columnTileM_pos : 0 < t.columnTileM
  tileN_pos : 0 < t.tileN
  tileN_le : t.tileN ≤ 3
  budget : vectorsOf t.tileM * (t.tileN + 1) ≤ 8
  columnBudget : vectorsOf t.columnTileM * 2 ≤ 8

theorem Tiling.pos_of_heightError? {tileM : Nat} (h : heightError? tileM = none) :
    0 < tileM ∧ tileM ≤ 16 := by
  unfold heightError? at h
  split at h
  · cases h
  · rename_i hnot
    rw [not_or, not_or] at hnot
    exact ⟨Nat.pos_of_ne_zero hnot.1, Nat.le_of_not_lt hnot.2.2⟩

theorem Tiling.budget_of_budgetError? {tileM tileN : Nat} (h : budgetError? tileM tileN = .ok none) :
    vectorsOf tileM * (tileN + 1) ≤ 8 := by
  obtain ⟨needed, hneeded, h⟩ := bind_eq_ok.mp h
  obtain ⟨sum, hsum, hproduct⟩ := bind_eq_ok.mp hneeded
  obtain ⟨-, rfl⟩ := Checked.below_eq_ok_iff.mp hsum
  obtain ⟨-, rfl⟩ := Checked.below_eq_ok_iff.mp hproduct
  have h := pure_eq_ok.mp h
  split at h
  · cases h
  · rename_i hnot
    exact Nat.le_of_not_lt hnot

theorem Tiling.exists_budgetError? {tileM tileN : Nat} (hheight : tileM ≤ 16) (hwidth : tileN ≤ 3) :
    ∃ error, budgetError? tileM tileN = .ok error := by
  have hvectors : vectorsOf tileM ≤ 4 := by
    unfold vectorsOf
    omega
  have hproduct := Nat.mul_le_mul hvectors (Nat.add_le_add_right hwidth 1)
  exact ⟨_, bind_eq_ok.mpr ⟨_, bind_eq_ok.mpr ⟨_, Checked.add_eq_ok (by omega),
    Checked.mul_eq_ok (by omega)⟩, rfl⟩⟩

/-- Looking at a tiling never leaves the range of its numbers: the budget is computed
    only for tiles of bounded height and width. -/
theorem Tiling.exists_error? (t : Tiling) : ∃ error, t.error? = .ok error := by
  unfold error?
  split
  · exact ⟨_, rfl⟩
  rename_i hheights
  obtain ⟨hheight, hcolumn⟩ :=
    (Option.orElse_eq_none _ _).mp (Option.eq_none_iff_forall_not_mem.mpr hheights)
  split
  · exact ⟨_, rfl⟩
  rename_i hwidth
  rw [not_or] at hwidth
  obtain ⟨error, herror⟩ := exists_budgetError? (pos_of_heightError? hheight).2
    (Nat.le_of_not_lt hwidth.2)
  rw [herror]
  cases error with
  | some e => exact ⟨_, rfl⟩
  | none => exact exists_budgetError? (pos_of_heightError? hcolumn).2 (by decide)

theorem Tiling.valid_of_error? {t : Tiling} (h : t.error? = .ok none) : t.Valid := by
  unfold error? at h
  split at h
  · cases h
  rename_i hheights
  obtain ⟨hheight, hcolumn⟩ :=
    (Option.orElse_eq_none _ _).mp (Option.eq_none_iff_forall_not_mem.mpr hheights)
  split at h
  · cases h
  rename_i hwidth
  rw [not_or] at hwidth
  obtain ⟨error, herror, h⟩ := bind_eq_ok.mp h
  cases error with
  | some e => cases h
  | none =>
    exact ⟨(pos_of_heightError? hheight).1, (pos_of_heightError? hcolumn).1,
      Nat.pos_of_ne_zero hwidth.1, Nat.le_of_not_lt hwidth.2, budget_of_budgetError? herror,
      budget_of_budgetError? h⟩

/-! ## Layouts -/

/-- The vector registers and scalars of the largest tile suffice. -/
structure Layout.Fits (l : Layout) : Prop where
  maxTileM_pos : 0 < l.maxTileM
  maxTileN_pos : 0 < l.maxTileN
  maxTileN_le : l.maxTileN ≤ 3
  budget : vectorsOf l.maxTileM * (l.maxTileN + 1) ≤ 8

/-- The layout of a regime whose loops have at least one full block. -/
inductive Regime.Arranges (shape : Shape) : Regime → Layout → Prop where
  | single : Arranges shape .single
      { mLoop := false, nLoop := false, maxTileM := shape.m, maxTileN := shape.n,
        mBound := 0, nBound := 0 }
  | mLoop {tileM : Nat} (hpos : 0 < tileM) (hle : tileM ≤ shape.m) : Arranges shape (.mLoop tileM)
      { mLoop := true, nLoop := false, maxTileM := tileM, maxTileN := shape.n,
        mBound := shape.m - shape.m % tileM, nBound := 0 }
  | nLoop {tileN : Nat} (hpos : 0 < tileN) (hle : tileN ≤ shape.n) : Arranges shape (.nLoop tileN)
      { mLoop := false, nLoop := true, maxTileM := shape.m, maxTileN := tileN,
        mBound := 0, nBound := shape.n - shape.n % tileN }
  | nested {tileM tileN : Nat} (hm : 0 < tileM) (hm' : tileM ≤ shape.m) (hn : 0 < tileN)
      (hn' : tileN ≤ shape.n) : Arranges shape (.nested tileM tileN)
      { mLoop := true, nLoop := true, maxTileM := tileM, maxTileN := tileN,
        mBound := shape.m - shape.m % tileM, nBound := shape.n - shape.n % tileN }

theorem Regime.full_eq_ok {total tile : Nat} (h : 0 < tile) :
    full total tile = .ok (total - total % tile) := by
  unfold full Checked.mod
  rw [if_neg (by omega)]
  rfl

theorem Regime.Arranges.layout_eq {shape : Shape} {regime : Regime} {layout : Layout}
    (h : Arranges shape regime layout) : regime.layout shape = .ok layout := by
  cases h with
  | single => rfl
  | mLoop hpos => simp only [Regime.layout, full_eq_ok hpos]; rfl
  | nLoop hpos => simp only [Regime.layout, full_eq_ok hpos]; rfl
  | nested hm _ hn => simp only [Regime.layout, full_eq_ok hm, full_eq_ok hn]; rfl

/-- No tile is taller than the matrix. -/
theorem Regime.Arranges.maxTileM_le {shape : Shape} {regime : Regime} {layout : Layout}
    (h : Arranges shape regime layout) : layout.maxTileM ≤ shape.m := by
  cases h with
  | single | nLoop => exact Nat.le_refl _
  | mLoop _ hle | nested _ hle => exact hle

theorem vectorsOf_mono {a b : Nat} (h : a ≤ b) : vectorsOf a ≤ vectorsOf b := by
  unfold vectorsOf
  omega

/-- A smaller tile needs no more registers. -/
theorem vectorsOf_mul_le {a b c d limit : Nat} (hrows : a ≤ b) (hcolumns : c ≤ d)
    (h : vectorsOf b * (d + 1) ≤ limit) : vectorsOf a * (c + 1) ≤ limit :=
  Nat.le_trans (Nat.mul_le_mul (vectorsOf_mono hrows) (by omega)) h

/-- With an accepted tiling every product that is not empty has an arrangement that
    fits. -/
theorem Regime.exists_layout_of_pos {shape : Shape} {tiling : Tiling} (hm : 0 < shape.m)
    (hn : 0 < shape.n) (htiling : tiling.Valid) :
    ∃ layout, Arranges shape (select shape tiling) layout ∧ layout.Fits := by
  obtain ⟨htm, htc, htn, htn', hbudget, hcolumn⟩ := htiling
  unfold select
  split
  · -- one tile: a single column takes the tall tile, otherwise the general one is enough
    rename_i hsingle
    refine ⟨_, .single, hm, hn, ?_, ?_⟩
    · rcases hsingle with ⟨-, h⟩ | ⟨-, h⟩
      · show shape.n ≤ 3
        omega
      · exact Nat.le_trans h htn'
    · rcases hsingle with ⟨h, h'⟩ | ⟨h, h'⟩
      · exact vectorsOf_mul_le h (Nat.le_of_eq h') hcolumn
      · exact vectorsOf_mul_le h h' hbudget
  · rename_i hsingle
    split
    · -- all columns in one tile: a loop over rows, by the tall tile if there is one column
      rename_i hwide
      by_cases hone : shape.n = 1
      · rw [if_pos hone]
        refine ⟨_, .mLoop htc (by omega), htc, hn, Nat.le_trans hwide htn', ?_⟩
        exact vectorsOf_mul_le (Nat.le_refl _) (Nat.le_of_eq hone) hcolumn
      · rw [if_neg hone]
        refine ⟨_, .mLoop htm (by omega), htm, hn, Nat.le_trans hwide htn', ?_⟩
        exact vectorsOf_mul_le (Nat.le_refl _) hwide hbudget
    · split
      · -- all rows in one tile: a loop over columns
        rename_i hwide htall
        exact ⟨_, .nLoop htn (by omega), hm, htn, htn',
          vectorsOf_mul_le htall (Nat.le_refl _) hbudget⟩
      · exact ⟨_, .nested htm (by omega) htn (by omega), htm, htn, htn', hbudget⟩

theorem Regime.exists_layout {shape : Shape} {tiling : Tiling} (hshape : shape.Valid)
    (htiling : tiling.Valid) :
    ∃ layout, Arranges shape (select shape tiling) layout ∧ layout.Fits :=
  exists_layout_of_pos hshape.m_pos hshape.n_pos htiling

end Gemm

end HeliumKernels
