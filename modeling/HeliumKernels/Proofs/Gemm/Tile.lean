/-
  HeliumKernels.Proofs.Gemm.Tile

  A tile and what it works on.  Vectors of a column cover its rows four at a
  time, the last one under a mask that stops at the last row.  The slice of
  `A` and the accumulators are distinct vector registers, and no register of
  the plan has a role of its own in a tile.
-/
import HeliumKernels.Gemm.Microkernel
import HeliumKernels.Proofs.Gemm.Plan
import HeliumKernels.Proofs.Kernel.Sequence

namespace HeliumKernels.Gemm

open Role Machine

/-! ## Elements -/

/-- Address of element `(i, j)` of a matrix with leading dimension `ld`. -/
def elementAddress (base : UInt32) (ld i j : Nat) : UInt32 :=
  wordAddress base (i + j * ld)

theorem elementAddress_eq (base : UInt32) (ld i j : Nat) :
    elementAddress base ld i j = wordAddress (wordAddress base (j * ld)) i := by
  rw [elementAddress, wordAddress_wordAddress, Nat.add_comm]

/-- Adding the bytes of a number of words. -/
theorem add_ofInt_words (x : UInt32) (n : Nat) :
    x + UInt32.ofInt ((n * 4 : Nat) : Int) = wordAddress x n := by
  rw [wordAddress, Nat.mul_comm]
  apply UInt32.toNat.inj
  simp only [UInt32.ofInt, UInt32.toNat_add, UInt32.toNat_ofNat']
  omega

theorem index_injective {ld i j i' j' : Nat} (hi : i < ld) (hi' : i' < ld)
    (h : i + j * ld = i' + j' * ld) : i = i' ∧ j = j' := by
  have hrow : i = i' := by
    have := congrArg (· % ld) h
    simpa only [Nat.add_mul_mod_self_right, Nat.mod_eq_of_lt hi, Nat.mod_eq_of_lt hi'] using this
  rw [hrow, Nat.add_left_cancel_iff] at h
  exact ⟨hrow, Nat.eq_of_mul_eq_mul_right (Nat.zero_lt_of_lt hi) h⟩

theorem elementAddress_injective {base : UInt32} {ld i j i' j' : Nat} (hi : i < ld) (hi' : i' < ld)
    (hlast : i + j * ld < 2 ^ 30) (hlast' : i' + j' * ld < 2 ^ 30)
    (h : elementAddress base ld i j = elementAddress base ld i' j') : i = i' ∧ j = j' :=
  index_injective hi hi' (wordAddress_injective hlast hlast' h)

/-- Add up products, one multiply-add after the other. -/
def accumulate (mulAdd : MulAdd) (x y : Nat → UInt32) (initial : UInt32) : Nat → UInt32
  | 0 => initial
  | k + 1 => mulAdd (x k) (y k) (accumulate mulAdd x y initial k)

/-! ## Tiles of a plan -/

/-- The context of an accepted shape, with a plan from the given registers. -/
structure Context.Planned (ctx : Context) (layout : Layout) (initial : RegSet) : Prop where
  shape : ctx.shape.Valid
  plan : ctx.plan.Fits ctx.shape layout initial
  bOffset : ctx.plan.bStride.regs = [] → ∀ j, 1 ≤ j → j ≤ 2 →
    ctx.bOffset j = j * (ctx.shape.ldb * 4)
  layout : layout.Fits

/-- The plan takes no register that has a fixed role. -/
def Context.Fits (ctx : Context) (layout : Layout) : Prop :=
  ctx.Planned layout (pool layout)

/-- The tile is not empty and no larger than the layout allows. -/
structure Tile.Fits (t : Tile) (shape : Shape) (layout : Layout) : Prop where
  mt_pos : 0 < t.mt
  nt_pos : 0 < t.nt
  mt_le : t.mt ≤ layout.maxTileM
  nt_le : t.nt ≤ layout.maxTileN
  mt_le_m : t.mt ≤ shape.m

namespace Tile

variable {t : Tile} {shape : Shape} {layout : Layout}

theorem Fits.budget (h : t.Fits shape layout) (hlayout : layout.Fits) :
    t.vectors * (t.nt + 1) ≤ 8 :=
  Nat.le_trans (Nat.mul_le_mul (vectorsOf_mono h.mt_le) (Nat.add_le_add_right h.nt_le 1))
    hlayout.budget

theorem Fits.nt_le_three (h : t.Fits shape layout) (hlayout : layout.Fits) : t.nt ≤ 3 :=
  Nat.le_trans h.nt_le hlayout.maxTileN_le

theorem Fits.vectors_pos (h : t.Fits shape layout) : 0 < t.vectors := by
  have := h.mt_pos
  unfold vectors vectorsOf
  omega

theorem Fits.vectors_le (h : t.Fits shape layout) (hlayout : layout.Fits) : t.vectors ≤ 4 := by
  have hbudget := h.budget hlayout
  have hnt := h.nt_pos
  by_contra hlarge
  have := Nat.mul_le_mul (show 5 ≤ t.vectors by omega) (show 2 ≤ t.nt + 1 by omega)
  omega

/-! ### Rows of a vector -/

/-- Lanes of vector `i` that are rows of the tile. -/
def mask (t : Tile) (i : Nat) : LaneMask :=
  if t.isPartial i then LaneMask.below LaneMask.all (UInt32.ofNat t.tail) else LaneMask.all

theorem mask_iff {i : Nat} (hi : i < t.vectors) (l : Lane) :
    (t.mask i).get l = true ↔ 4 * i + l.val < t.mt := by
  have hl := l.isLt
  unfold mask
  by_cases hpartial : t.isPartial i = true
  · have htail : (UInt32.ofNat t.tail).toNat = t.tail := by
      simp only [UInt32.toNat_ofNat', tail]
      omega
    rw [if_pos hpartial, LaneMask.get_below_iff, htail]
    simp only [isPartial, Bool.and_eq_true, bne_iff_ne, beq_iff_eq] at hpartial
    simp only [tail, vectors, vectorsOf] at *
    omega
  · rw [if_neg hpartial, LaneMask.get_all]
    refine iff_of_true rfl ?_
    have hfull : t.tail = 0 ∨ i + 1 ≠ t.vectors := by
      by_contra hcontra
      obtain ⟨htail, hlast⟩ := not_or.mp hcontra
      exact hpartial (by simp [isPartial, htail, not_not.mp hlast])
    simp only [tail, vectors, vectorsOf] at *
    omega

theorem mask_of_full {i : Nat} (h : t.isPartial i = false) : t.mask i = LaneMask.all := by
  simp [mask, h]

/-- The lane predicate is that of the partial vector, if the tile has one. -/
def Predicated (t : Tile) (m : Machine) : Prop :=
  t.tail ≠ 0 → m.predicate = LaneMask.below LaneMask.all (UInt32.ofNat t.tail)

theorem Predicated.mask_eq {m : Machine} (h : t.Predicated m) {i : Nat}
    (hpartial : t.isPartial i = true) : t.mask i = m.predicate := by
  rw [mask, if_pos hpartial, h]
  rintro htail
  simp [isPartial, htail] at hpartial

/-! ### Vector registers -/

/-- Vectors of all columns: `(i, j)` is vector `i` of column `j`. -/
def cells (t : Tile) : List (Nat × Nat) :=
  (List.range t.nt).flatMap fun j => (List.range t.vectors).map fun i => (i, j)

theorem mem_cells {x : Nat × Nat} : x ∈ t.cells ↔ x.1 < t.vectors ∧ x.2 < t.nt := by
  obtain ⟨i, j⟩ := x
  simp only [cells, List.mem_flatMap, List.mem_range, List.mem_map, Prod.mk.injEq]
  constructor
  · rintro ⟨j', hj, i', hi, rfl, rfl⟩
    exact ⟨hi, hj⟩
  · rintro ⟨hi, hj⟩
    exact ⟨j, hj, i, hi, rfl, rfl⟩

theorem nodup_cells (t : Tile) : t.cells.Nodup := by
  refine List.pairwise_flatMap.mpr ⟨fun j _ => ?_, List.nodup_range.imp fun hne x hx y hy heq => ?_⟩
  · exact List.pairwise_map.mpr (List.nodup_range.imp fun hne h => hne (Prod.mk.inj h).1)
  · obtain ⟨i, -, rfl⟩ := List.mem_map.mp hx
    obtain ⟨i', -, rfl⟩ := List.mem_map.mp hy
    exact hne (Prod.mk.inj heq).2

/-- Vectors that are full. -/
def fulls (t : Tile) : List (Nat × Nat) :=
  t.cells.filter fun x => !t.isPartial x.1

/-- Vectors that are not: the last ones of all columns. -/
def partials (t : Tile) : List (Nat × Nat) :=
  if t.tail = 0 then [] else (List.range t.nt).map fun j => (t.vectors - 1, j)

theorem mem_fulls {x : Nat × Nat} : x ∈ t.fulls ↔ x ∈ t.cells ∧ t.isPartial x.1 = false := by
  simp [fulls]

theorem mem_partials (hpos : 0 < t.vectors) {x : Nat × Nat} :
    x ∈ t.partials ↔ x ∈ t.cells ∧ t.isPartial x.1 = true := by
  obtain ⟨i, j⟩ := x
  simp only [partials, isPartial, Bool.and_eq_true, bne_iff_ne, beq_iff_eq, mem_cells]
  by_cases htail : t.tail = 0
  · simp [htail]
  · simp only [htail, ↓reduceIte, List.mem_map, List.mem_range, Prod.mk.injEq, ne_eq,
      not_false_eq_true, true_and]
    constructor
    · rintro ⟨j', hj, hi, rfl⟩
      exact ⟨⟨by omega, hj⟩, by omega⟩
    · rintro ⟨⟨-, hj⟩, hi⟩
      exact ⟨j, hj, by omega, rfl⟩

theorem nodup_partials (t : Tile) : t.partials.Nodup := by
  unfold partials
  split
  · exact List.nodup_nil
  · exact List.pairwise_map.mpr (List.nodup_range.imp fun hne h => hne (Prod.mk.inj h).2)

theorem length_partials (htail : t.tail ≠ 0) : t.partials.length = t.nt := by
  simp [partials, htail]

theorem acc_val (h : t.Fits shape layout) (hlayout : layout.Fits) {x : Nat × Nat}
    (hx : x ∈ t.cells) : (t.acc x.1 x.2).val = t.vectors * (x.2 + 1) + x.1 := by
  obtain ⟨hi, hj⟩ := mem_cells.mp hx
  refine Nat.mod_eq_of_lt ?_
  calc t.vectors * (x.2 + 1) + x.1 < t.vectors * (x.2 + 1) + t.vectors := by omega
    _ = t.vectors * (x.2 + 1 + 1) := (Nat.mul_succ _ _).symm
    _ ≤ t.vectors * (t.nt + 1) := Nat.mul_le_mul_left _ (by omega)
    _ ≤ 8 := h.budget hlayout

theorem a_val (h : t.Fits shape layout) (hlayout : layout.Fits) {i : Nat} (hi : i < t.vectors) :
    (a i).val = i :=
  Nat.mod_eq_of_lt (by have := h.vectors_le hlayout; omega)

theorem acc_injective (h : t.Fits shape layout) (hlayout : layout.Fits) {x y : Nat × Nat}
    (hx : x ∈ t.cells) (hy : y ∈ t.cells) (heq : t.acc x.1 x.2 = t.acc y.1 y.2) : x = y := by
  have hval := congrArg Fin.val heq
  rw [acc_val h hlayout hx, acc_val h hlayout hy] at hval
  have hi := (mem_cells.mp hx).1
  have hi' := (mem_cells.mp hy).1
  have hrow : x.1 = y.1 := by
    have := congrArg (· % t.vectors) hval
    simpa only [Nat.mul_add_mod, Nat.mod_eq_of_lt hi, Nat.mod_eq_of_lt hi'] using this
  rw [hrow, Nat.add_right_cancel_iff] at hval
  have := Nat.eq_of_mul_eq_mul_left h.vectors_pos hval
  exact Prod.ext hrow (by omega)

theorem acc_ne_a (h : t.Fits shape layout) (hlayout : layout.Fits) {x : Nat × Nat}
    (hx : x ∈ t.cells) {i : Nat} (hi : i < t.vectors) : t.acc x.1 x.2 ≠ a i := by
  intro heq
  have hval := congrArg Fin.val heq
  rw [acc_val h hlayout hx, a_val h hlayout hi] at hval
  have := Nat.mul_le_mul_left t.vectors (Nat.le_add_left 1 x.2)
  omega

theorem a_injective (h : t.Fits shape layout) (hlayout : layout.Fits) {i i' : Nat}
    (hi : i < t.vectors) (hi' : i' < t.vectors) (heq : a i = a i') : i = i' := by
  have hval := congrArg Fin.val heq
  rwa [a_val h hlayout hi, a_val h hlayout hi'] at hval

/-- The accumulators hold the elements `z i j` of a matrix. -/
def Holds (t : Tile) (z : Nat → Nat → UInt32) (m : Machine) : Prop :=
  ∀ x ∈ t.cells, ∀ l : Lane, 4 * x.1 + l.val < t.mt →
    m.lane (t.acc x.1 x.2) l = z (4 * x.1 + l.val) x.2

/-! ### Columns -/

theorem mem_laterColumns {j : Nat} : j ∈ t.laterColumns ↔ 1 ≤ j ∧ j < t.nt := by
  simp only [laterColumns, List.mem_range'_1]
  omega

theorem nodup_laterColumns (t : Tile) : t.laterColumns.Nodup :=
  List.nodup_range'

end Tile

/-! ## Scalar registers -/

/-- Registers that have a fixed role in a layout. -/
inductive Layout.Reserves (layout : Layout) : Reg → Prop where
  | fixed {r : Reg} (h : r ∈ [Reg.r0, .r1, .r2, .r3, .r4, .lr, .sp, .pc]) : Reserves layout r
  | scalar {j : Nat} (h : j < layout.maxTileN) : Reserves layout (bScalar j)
  | rowIndex (h : layout.mLoop = true) : Reserves layout mIndex
  | columnIndex (h : layout.nLoop = true) : Reserves layout nIndex

/-- Registers whose values last from one tile to the next. -/
inductive Context.Persists (ctx : Context) (layout : Layout) : Reg → Prop where
  | pointer {r : Reg} (h : r ∈ [aTile, bTile, cTile, .sp]) : Persists ctx layout r
  | rowIndex (h : layout.mLoop = true) : Persists ctx layout mIndex
  | columnIndex (h : layout.nLoop = true) : Persists ctx layout nIndex
  | preload {x : Reg × Nat} (h : x ∈ ctx.plan.preloads) : Persists ctx layout x.1

/-- Registers that a step of a tile works with. -/
def Tile.Moves (t : Tile) (r : Reg) : Prop :=
  r = aWalk ∨ r = bWalk ∨ ∃ j < t.nt, r = bScalar j

/-- Registers that the loop over the steps works with: also the counter. -/
def Tile.Works (t : Tile) (r : Reg) : Prop :=
  r = .lr ∨ t.Moves r

/-- Registers that a tile may change: also the column bases. -/
def Context.Uses (ctx : Context) (t : Tile) (r : Reg) : Prop :=
  t.Works r ∨ ∃ j, 1 ≤ j ∧ j < t.nt ∧ r ∈ (ctx.plan.cColumn j).regs

theorem bScalar_cases (j : Nat) : bScalar j = .r5 ∨ bScalar j = .r6 ∨ bScalar j = .r7 :=
  match j with
  | 0 => .inl rfl
  | 1 => .inr (.inl rfl)
  | _ + 2 => .inr (.inr rfl)

theorem bScalar_ne {r : Reg} (h : r ∉ [Reg.r5, .r6, .r7]) (j : Nat) : bScalar j ≠ r := by
  rintro rfl
  rcases bScalar_cases j with heq | heq | heq <;> exact h (by simp [heq])

theorem bScalar_general (j : Nat) : (bScalar j).General :=
  ⟨bScalar_ne (by decide) j, bScalar_ne (by decide) j⟩

theorem bScalar_isLow (j : Nat) : (bScalar j).isLow = true := by
  rcases bScalar_cases j with heq | heq | heq <;> rw [heq] <;> rfl

theorem bScalar_injective {i j : Nat} (hi : i ≤ 2) (hj : j ≤ 2) (h : bScalar i = bScalar j) :
    i = j := by
  obtain rfl | rfl | rfl : i = 0 ∨ i = 1 ∨ i = 2 := by omega
  all_goals
    obtain rfl | rfl | rfl : j = 0 ∨ j = 1 ∨ j = 2 := by omega
    all_goals first | rfl | exact absurd h (by decide)

theorem Tile.Fits.reserves_of_works {t : Tile} {shape : Shape} {layout : Layout}
    (h : t.Fits shape layout) {r : Reg} (hr : t.Works r) : layout.Reserves r := by
  rcases hr with rfl | rfl | rfl | ⟨j, hj, rfl⟩
  · exact .fixed (by decide)
  · exact .fixed (by decide)
  · exact .fixed (by decide)
  · exact .scalar (Nat.lt_of_lt_of_le hj h.nt_le)

theorem Tile.not_works {t : Tile} {r : Reg} (h : r ∉ [Reg.r3, .r4, .r5, .r6, .r7, .lr]) :
    ¬t.Works r := by
  rintro (rfl | rfl | rfl | ⟨j, -, rfl⟩)
  · exact h (by decide)
  · exact h (by decide)
  · exact h (by decide)
  · rcases bScalar_cases j with heq | heq | heq <;> exact h (by simp [heq])

namespace Plan

variable {p : Plan} {shape : Shape} {layout : Layout} {initial : RegSet}

theorem Fits.ne_of_reserves (h : p.Fits shape layout (Gemm.pool layout)) (hlayout : layout.Fits)
    {r s : Reg} (hr : r ∈ p.registers) (hs : layout.Reserves s) : r ≠ s := by
  rintro rfl
  have hpool := (contains_pool layout r).mp (h.pool r hr)
  cases hs with
  | fixed hfixed =>
    revert hfixed
    rcases hpool with rfl | rfl | rfl | ⟨-, rfl⟩ | ⟨-, rfl⟩ | ⟨-, rfl⟩ | ⟨-, rfl⟩ <;> decide
  | @scalar j hj =>
    have hthree := hlayout.maxTileN_le
    rcases hpool with heq | heq | heq | ⟨-, heq⟩ | ⟨-, heq⟩ | ⟨hwidth, heq⟩ | ⟨hwidth, heq⟩
    iterate 5 exact bScalar_ne (by decide) j heq
    · have := bScalar_injective (by omega) (by omega) heq
      omega
    · have := bScalar_injective (by omega) (by omega) heq
      omega
  | rowIndex hloop =>
    rcases hpool with heq | heq | heq | ⟨hnone, -⟩ | ⟨-, heq⟩ | ⟨-, heq⟩ | ⟨-, heq⟩
    · exact absurd heq (by decide)
    · exact absurd heq (by decide)
    · exact absurd heq (by decide)
    · rw [hloop] at hnone
      exact absurd hnone (by decide)
    iterate 3 exact absurd heq (by decide)
  | columnIndex hloop =>
    rcases hpool with heq | heq | heq | ⟨-, heq⟩ | ⟨hnone, -⟩ | ⟨-, heq⟩ | ⟨-, heq⟩
    iterate 4 exact absurd heq (by decide)
    · rw [hloop] at hnone
      exact absurd hnone (by decide)
    iterate 2 exact absurd heq (by decide)

theorem Fits.general (h : p.Fits shape layout (Gemm.pool layout)) (hlayout : layout.Fits) {r : Reg}
    (hr : r ∈ p.registers) : r.General :=
  ⟨h.ne_of_reserves hlayout hr (.fixed (by decide)), h.ne_of_reserves hlayout hr (.fixed (by decide))⟩

theorem mem_registers_of_cColumn {j : Nat} {r : Reg} (hr : r ∈ (p.cColumn j).regs) :
    r ∈ p.registers := by
  unfold cColumn at hr
  split at hr <;> simp [registers, hr]

theorem Fits.mem_registers_of_preload (h : p.Fits shape layout initial) {x : Reg × Nat}
    (hx : x ∈ p.preloads) : x.1 ∈ p.registers := by
  simp only [h.preloads, List.mem_append, List.mem_map] at hx
  rcases hx with ((⟨r, hr, rfl⟩ | ⟨r, hr, rfl⟩) | ⟨r, hr, rfl⟩) | ⟨r, hr, rfl⟩ <;>
    simp [registers, hr]

/-- What is loaded beforehand is not the base of a column. -/
theorem Fits.preload_not_mem_cColumn (h : p.Fits shape layout initial) {x : Reg × Nat}
    (hx : x ∈ p.preloads) (j : Nat) : x.1 ∉ (p.cColumn j).regs := by
  intro hmem
  have hnodup := h.nodup
  simp only [registers, List.nodup_append, List.mem_append] at hnodup
  simp only [h.preloads, List.mem_append, List.mem_map] at hx
  unfold cColumn at hmem
  grind

theorem Fits.cColumn_injective (h : p.Fits shape layout initial) {i j : Nat} (hi : 1 ≤ i) (hi' : i ≤ 2)
    (hj : 1 ≤ j) (hj' : j ≤ 2) {r : Reg} (hr : r ∈ (p.cColumn i).regs)
    (hr' : r ∈ (p.cColumn j).regs) : i = j := by
  have hnodup := h.nodup
  simp only [registers, List.nodup_append, List.mem_append] at hnodup
  unfold cColumn at hr hr'
  grind

end Plan

end HeliumKernels.Gemm
