/-
  HeliumKernels.Proofs.Gemm.Columns

  The columns of `C` inside a tile.  Each column has a base register and an
  offset that together point at its first element, and loading or storing all
  accumulators moves exactly the elements of the tile, full vectors outside
  and partial vectors inside a predication block.
-/
import HeliumKernels.Proofs.Gemm.Tile

namespace HeliumKernels.Gemm

open Role Machine

namespace Context

variable {ctx : Context} {layout : Layout} {t : Tile} {mulAdd : MulAdd} {m m' : Machine}

/-! ## Registers a tile leaves alone -/

theorem Fits.not_works (hctx : ctx.Fits layout) (ht : t.Fits ctx.shape layout) {r : Reg}
    (hr : r ∈ ctx.plan.registers) : ¬t.Works r :=
  fun hworks => hctx.plan.ne_of_reserves hctx.layout hr (ht.reserves_of_works hworks) rfl

theorem Fits.not_uses_of_preload (hctx : ctx.Fits layout) (ht : t.Fits ctx.shape layout)
    {x : Reg × Nat} (hx : x ∈ ctx.plan.preloads) : ¬ctx.Uses t x.1 := by
  rintro (hworks | ⟨j, -, -, hj⟩)
  · exact hctx.not_works ht (hctx.plan.mem_registers_of_preload hx) hworks
  · exact hctx.plan.preload_not_mem_cColumn hx j hj

/-- A register that has a role, but none in the work of a tile, is left alone. -/
theorem Fits.not_uses_of_reserves (hctx : ctx.Fits layout) {r : Reg} (hr : layout.Reserves r)
    (hworks : ¬t.Works r) : ¬ctx.Uses t r := by
  rintro (h | ⟨j, -, -, hj⟩)
  · exact hworks h
  · exact hctx.plan.ne_of_reserves hctx.layout (Plan.mem_registers_of_cColumn hj) hr rfl

theorem Fits.pointers_not_uses (hctx : ctx.Fits layout) :
    ∀ r ∈ [aTile, bTile, cTile], ¬ctx.Uses t r := by
  intro r hr
  refine hctx.not_uses_of_reserves (.fixed ?_) (Tile.not_works ?_)
  all_goals
    revert r
    decide

/-- A tile leaves alone what lasts to the next. -/
theorem Fits.not_uses_of_persists (hctx : ctx.Fits layout) (ht : t.Fits ctx.shape layout) {r : Reg}
    (hr : ctx.Persists layout r) : ¬ctx.Uses t r := by
  cases hr with
  | pointer hmem =>
    refine hctx.not_uses_of_reserves (.fixed ?_) (Tile.not_works ?_)
    all_goals
      revert r
      decide
  | rowIndex hloop => exact hctx.not_uses_of_reserves (.rowIndex hloop) (Tile.not_works (by decide))
  | columnIndex hloop =>
    exact hctx.not_uses_of_reserves (.columnIndex hloop) (Tile.not_works (by decide))
  | preload hx => exact hctx.not_uses_of_preload ht hx

/-- Registers loaded at the start of the kernel hold their values. -/
def Preloaded (ctx : Context) (m : Machine) : Prop :=
  ∀ x ∈ ctx.plan.preloads, m.reg x.1 = UInt32.ofNat x.2

theorem Preloaded.of_frame (h : ctx.Preloaded m) (hctx : ctx.Fits layout)
    (ht : t.Fits ctx.shape layout) {touch : Touch} (hframe : Frame touch m m')
    (htouch : ∀ r, touch.reg r → ctx.Uses t r) : ctx.Preloaded m' := fun x hx =>
  (hframe.reg x.1 fun hr => hctx.not_uses_of_preload ht hx (htouch _ hr)).trans (h x hx)

section Bounds

variable (h : ctx.Preloaded m) (hplan : ctx.plan.Fits ctx.shape layout (pool layout))
  (hlayout : layout.Fits) {r : Reg}

include h hplan hlayout

/-- A register that the bound of the rows was loaded to holds it. -/
theorem Preloaded.mBound (hr : r ∈ ctx.plan.mBound.regs) :
    r ≠ .pc ∧ m.reg r = UInt32.ofNat layout.mBound := by
  have hmem : (r, layout.mBound) ∈ ctx.plan.preloads := by simp [hplan.preloads, hr]
  exact ⟨(hplan.general hlayout (hplan.mem_registers_of_preload hmem)).2, h _ hmem⟩

/-- So does one that the bound of the columns was loaded to. -/
theorem Preloaded.nBound (hr : r ∈ ctx.plan.nBound.regs) :
    r ≠ .pc ∧ m.reg r = UInt32.ofNat layout.nBound := by
  have hmem : (r, layout.nBound) ∈ ctx.plan.preloads := by simp [hplan.preloads, hr]
  exact ⟨(hplan.general hlayout (hplan.mem_registers_of_preload hmem)).2, h _ hmem⟩

end Bounds

/-! ## Column bases -/

theorem columnBase_zero : ctx.columnBase 0 = (cTile, 0) := rfl

theorem columnBase_of_offset {j bytes : Nat} (hj : 1 ≤ j) (h : ctx.plan.cColumn j = .offset bytes) :
    ctx.columnBase j = (cTile, (bytes : Int)) := by
  rw [columnBase, if_neg (by omega), h]

theorem columnBase_of_register {j : Nat} {reg : Reg} (hj : 1 ≤ j)
    (h : ctx.plan.cColumn j = .register reg) : ctx.columnBase j = (reg, 0) := by
  rw [columnBase, if_neg (by omega), h]

theorem columnBase_of_scratch {j bytes : Nat} (hj : 1 ≤ j)
    (h : ctx.plan.cColumn j = .scratch bytes) : ctx.columnBase j = (bScalar j, 0) := by
  rw [columnBase, if_neg (by omega), h]

theorem Fits.cColumn (hctx : ctx.Fits layout) {j : Nat} (hj : 1 ≤ j) (hj' : j ≤ 2) :
    (ctx.plan.cColumn j).Fits layout (ctx.shape.ldc * 4) j := by
  obtain rfl | rfl : j = 1 ∨ j = 2 := by omega
  · exact hctx.plan.cColumn1
  · exact hctx.plan.cColumn2

/-- Vectors of the last tile row are in reach of the base of every column. -/
theorem Fits.columnBase_reach (hctx : ctx.Fits layout) (ht : t.Fits ctx.shape layout) {j : Nat}
    (hj : j < t.nt) : (ctx.columnBase j).1.General ∧
      ∃ bytes : Nat, (ctx.columnBase j).2 = bytes ∧ bytes % 4 = 0 ∧
        bytes + 16 * (t.vectors - 1) ≤ 508 := by
  have hvectors := ht.vectors_le hctx.layout
  have hnt := ht.nt_le_three hctx.layout
  by_cases hzero : j = 0
  · rw [hzero, columnBase_zero]
    exact ⟨by decide, 0, rfl, rfl, by omega⟩
  have hj₁ : 1 ≤ j := by omega
  have hfits := hctx.cColumn hj₁ (by omega)
  cases hcolumn : ctx.plan.cColumn j with
  | offset bytes =>
    rw [columnBase_of_offset hj₁ hcolumn]
    rw [hcolumn] at hfits
    obtain ⟨hbytes, hreach⟩ := hfits
    have hmono := vectorsOf_mono ht.mt_le
    have hreach := hreach (Nat.lt_of_lt_of_le hj ht.nt_le)
    refine ⟨show Reg.General cTile by decide, bytes, rfl, ?_, ?_⟩
    · rw [hbytes, ← Nat.mul_assoc, Nat.mul_mod_left]
    · unfold vectorOffsetMax at hreach
      unfold Tile.vectors
      omega
  | register reg =>
    rw [columnBase_of_register hj₁ hcolumn]
    have hreg : reg ∈ (ctx.plan.cColumn j).regs := by simp [hcolumn, CColumn.regs]
    exact ⟨hctx.plan.general hctx.layout (Plan.mem_registers_of_cColumn hreg), 0, rfl, rfl, by omega⟩
  | scratch bytes =>
    rw [columnBase_of_scratch hj₁ hcolumn]
    exact ⟨bScalar_general j, 0, rfl, rfl, by omega⟩

variable (ctx) in
/-- Where the base of a column may live. -/
theorem columnBase_cases {j : Nat} (hj : 1 ≤ j) :
    (ctx.columnBase j).1 = cTile ∨ (ctx.columnBase j).1 ∈ (ctx.plan.cColumn j).regs ∨
      (ctx.columnBase j).1 = bScalar j := by
  cases hcolumn : ctx.plan.cColumn j with
  | offset bytes => exact .inl (by rw [columnBase_of_offset hj hcolumn])
  | register reg =>
    rw [columnBase_of_register hj hcolumn]
    exact .inr (.inl (by simp [CColumn.regs]))
  | scratch bytes => exact .inr (.inr (by rw [columnBase_of_scratch hj hcolumn]))

/-- Bases of different columns are different registers, unless both are the tile pointer. -/
theorem Fits.columnBase_ne (hctx : ctx.Fits layout) (ht : t.Fits ctx.shape layout) {i j : Nat}
    (hi : 1 ≤ i) (hi' : i < t.nt) (hj : 1 ≤ j) (hj' : j < t.nt) (hne : i ≠ j)
    (htile : (ctx.columnBase i).1 ≠ cTile) : (ctx.columnBase i).1 ≠ (ctx.columnBase j).1 := by
  have hnt := ht.nt_le_three hctx.layout
  have hpool : ∀ a, (ctx.columnBase a).1 ∈ (ctx.plan.cColumn a).regs → ∀ b < t.nt,
      (ctx.columnBase a).1 ≠ bScalar b := fun a ha b hb =>
    hctx.plan.ne_of_reserves hctx.layout (Plan.mem_registers_of_cColumn ha)
      (.scalar (Nat.lt_of_lt_of_le hb ht.nt_le))
  -- one case for each pair of places; a pool register is never a scalar of `B`
  intro heq
  rcases columnBase_cases ctx hi with h | h | h
  · exact htile h
  · rcases columnBase_cases ctx hj with h' | h' | h'
    · exact htile (heq.trans h')
    · exact hne (hctx.plan.cColumn_injective hi (by omega) hj (by omega) h (heq ▸ h'))
    · exact hpool i h j hj' (heq.trans h')
  · rcases columnBase_cases ctx hj with h' | h' | h'
    · exact htile (heq.trans h')
    · exact hpool j h' i hi' (heq.symm.trans h)
    · exact hne (bScalar_injective (by omega) (by omega) (h.symm.trans (heq.trans h')))

/-- The base of a column points at its first element. -/
def BaseReady (ctx : Context) (pointer : UInt32) (j : Nat) (m : Machine) : Prop :=
  m.reg (ctx.columnBase j).1 + UInt32.ofInt (ctx.columnBase j).2 =
    wordAddress pointer (j * ctx.shape.ldc)

/-- The bases of all columns of the tile do. -/
def BasesReady (ctx : Context) (t : Tile) (pointer : UInt32) (m : Machine) : Prop :=
  ∀ j < t.nt, ctx.BaseReady pointer j m

theorem BaseReady.of_reg {pointer : UInt32} {j : Nat} (h : ctx.BaseReady pointer j m)
    (hreg : m'.reg (ctx.columnBase j).1 = m.reg (ctx.columnBase j).1) :
    ctx.BaseReady pointer j m' := by
  unfold BaseReady
  rw [hreg]
  exact h

/-- Column bases are kept apart from the registers of the tile's preparation. -/
theorem Fits.columnBase_not_mem (hctx : ctx.Fits layout) (ht : t.Fits ctx.shape layout) {j : Nat}
    (hj : j < t.nt) : (ctx.columnBase j).1 ∉ [aWalk, bWalk, bScalar 0] := by
  have hthree := ht.nt_le_three hctx.layout
  by_cases hzero : j = 0
  · rw [hzero, columnBase_zero]
    decide
  rcases columnBase_cases ctx (show 1 ≤ j by omega) with h | h | h
  · rw [h]
    decide
  · have hne : ∀ r, layout.Reserves r → (ctx.columnBase j).1 ≠ r := fun r hr =>
      hctx.plan.ne_of_reserves hctx.layout (Plan.mem_registers_of_cColumn h) hr
    simp only [List.mem_cons, List.not_mem_nil, or_false, not_or]
    exact ⟨hne _ (.fixed (by decide)), hne _ (.fixed (by decide)),
      hne _ (.scalar hctx.layout.maxTileN_pos)⟩
  · rw [h]
    simp only [List.mem_cons, List.not_mem_nil, or_false, not_or]
    exact ⟨bScalar_ne (by decide) j, bScalar_ne (by decide) j, fun heq =>
      hzero (bScalar_injective (by omega) (by omega) heq)⟩

theorem uses_columnBase {j : Nat} (hj : 1 ≤ j) (hj' : j < t.nt)
    (htile : (ctx.columnBase j).1 ≠ cTile) : ctx.Uses t (ctx.columnBase j).1 := by
  rcases columnBase_cases ctx hj with h | h | h
  · exact absurd h htile
  · exact .inr ⟨j, hj, hj', h⟩
  · exact .inl (.inr (.inr (.inr ⟨j, hj', h⟩)))

/-- Each column base is there already or is computed from the tile pointer. -/
theorem Fits.achieves_bases (hctx : ctx.Fits layout) (ht : t.Fits ctx.shape layout) (h : m.Plain)
    {f : Nat → Script}
    (hf : ∀ j, 1 ≤ j → j < t.nt → (f j = [] ∧ ctx.BaseReady (m.reg cTile) j m) ∨
      ((ctx.columnBase j).1 ≠ cTile ∧ (ctx.columnBase j).2 = 0 ∧
        f j = Sequence.addConstant (ctx.columnBase j).1 cTile (j * ctx.shape.ldc * 4 : Nat) aWalk)) :
    Achieves mulAdd (t.laterColumns.flatMap f) (Touch.regs (ctx.Uses t)) m
      (ctx.BasesReady t (m.reg cTile)) := by
  let touch : Nat → Touch := fun j => Touch.regs fun r =>
    r = aWalk ∨ (r = (ctx.columnBase j).1 ∧ r ≠ cTile)
  have hothers : ∀ j ∈ t.laterColumns,
      ¬(Touch.others t.laterColumns touch j).reg (ctx.columnBase j).1 := by
    rintro j hj ⟨i, ⟨hi, hne⟩, hwalk | ⟨heq, htile⟩⟩
    · exact hctx.columnBase_not_mem ht (Tile.mem_laterColumns.mp hj).2 (hwalk ▸ List.mem_cons_self)
    · obtain ⟨hj₁, hj₂⟩ := Tile.mem_laterColumns.mp hj
      obtain ⟨hi₁, hi₂⟩ := Tile.mem_laterColumns.mp hi
      exact hctx.columnBase_ne ht hj₁ hj₂ hi₁ hi₂ (Ne.symm hne) htile heq
  -- all bases are computed from the tile pointer, so none of the columns may move it
  have htile : ∀ j, ¬(touch j).reg cTile := by
    rintro j (hwalk | ⟨-, hne⟩)
    · exact absurd hwalk (by decide)
    · exact hne rfl
  have hkeep : ∀ j ∈ t.laterColumns, ∀ m₁ m₂, Frame (Touch.others t.laterColumns touch j) m₁ m₂ →
      ctx.BaseReady (m.reg cTile) j m₁ → ctx.BaseReady (m.reg cTile) j m₂ :=
    fun j hj m₁ m₂ hframe hready => hready.of_reg (hframe.reg _ (hothers j hj))
  have hall : Achieves mulAdd (t.laterColumns.flatMap f) (Touch.union (· ∈ t.laterColumns) touch) m
      fun m' => ∀ j ∈ t.laterColumns, ctx.BaseReady (m.reg cTile) j m' := by
    refine Achieves.each (Tile.nodup_laterColumns t) (fun j hj m₁ hframe => ?_) hkeep
    obtain ⟨hj₁, hj₂⟩ := Tile.mem_laterColumns.mp hj
    rcases hf j hj₁ hj₂ with ⟨hnil, hready⟩ | ⟨hbase, hoffset, hadd⟩
    · rw [hnil]
      exact .nil (hkeep j hj m m₁ hframe hready)
    · rw [hadd]
      have hplain := hframe.plain (fun ⟨_, _, hb⟩ => hb) h
      refine (Sequence.achieves_addConstant hplain.block (hctx.columnBase_reach ht hj₂).1
        (by decide) (by decide) (by decide) _).mono (Touch.regs_within ?_) fun m₂ _ hreg => ?_
      · rintro r (rfl | rfl)
        · exact .inr ⟨rfl, hbase⟩
        · exact .inl rfl
      · show m₂.reg _ + _ = _
        rw [hreg, hoffset, hframe.reg cTile fun ⟨i, _, hi⟩ => htile i hi, add_ofInt_words]
        exact UInt32.add_zero _
  refine hall.mono (Touch.union_within fun j hj => Touch.regs_within ?_)
    fun m' hframe hready j hj => ?_
  · obtain ⟨hj₁, hj₂⟩ := Tile.mem_laterColumns.mp hj
    rintro r (rfl | ⟨rfl, hne⟩)
    · exact .inl (.inr (.inl rfl))
    · exact uses_columnBase hj₁ hj₂ hne
  · by_cases hzero : j = 0
    · have hreg : m'.reg cTile = m.reg cTile := hframe.reg cTile fun ⟨i, _, hi⟩ => htile i hi
      show m'.reg _ + _ = _
      rw [hzero, columnBase_zero, hreg, Nat.zero_mul, wordAddress_zero]
      exact UInt32.add_zero _
    · exact hready j (Tile.mem_laterColumns.mpr ⟨by omega, hj⟩)

theorem Fits.achieves_columnBases (hctx : ctx.Fits layout) (ht : t.Fits ctx.shape layout)
    (h : m.Plain) :
    Achieves mulAdd (ctx.columnBases t) (Touch.regs (ctx.Uses t)) m
      (ctx.BasesReady t (m.reg cTile)) := by
  have hnt := ht.nt_le_three hctx.layout
  refine hctx.achieves_bases ht h fun j hj hj' => ?_
  have hfits := hctx.cColumn hj (by omega)
  cases hcolumn : ctx.plan.cColumn j with
  | offset bytes =>
    rw [hcolumn] at hfits
    refine .inl ⟨rfl, ?_⟩
    rw [BaseReady, columnBase_of_offset hj hcolumn, hfits.1, ← Nat.mul_assoc, add_ofInt_words]
  | register reg =>
    have hreg : reg ∈ (ctx.plan.cColumn j).regs := by simp [hcolumn, CColumn.regs]
    rw [columnBase_of_register hj hcolumn]
    exact .inr ⟨hctx.plan.ne_of_reserves hctx.layout (Plan.mem_registers_of_cColumn hreg)
      (.fixed (by decide)), rfl, rfl⟩
  | scratch bytes =>
    rw [hcolumn] at hfits
    rw [columnBase_of_scratch hj hcolumn]
    refine .inr ⟨bScalar_ne (by decide) j, rfl, ?_⟩
    rw [show bytes = j * (ctx.shape.ldc * 4) from hfits, ← Nat.mul_assoc]

/-- After the steps of a tile only bases in scalars of `B` are computed again. -/
theorem Fits.achieves_rebuildColumns (hctx : ctx.Fits layout) (ht : t.Fits ctx.shape layout)
    {m₀ : Machine} {touch : Touch} (hready : ctx.BasesReady t (m.reg cTile) m₀)
    (hframe : Frame touch m₀ m) (htouch : ∀ r, touch.reg r → t.Works r) (h : m.Plain) :
    Achieves mulAdd (ctx.rebuildColumns t) (Touch.regs (ctx.Uses t)) m
      (ctx.BasesReady t (m.reg cTile)) := by
  have hnt := ht.nt_le_three hctx.layout
  refine hctx.achieves_bases ht h fun j hj hj' => ?_
  have hfits := hctx.cColumn hj (by omega)
  -- the steps moved the walks and the scalars, so every other base is still there
  have hsame : ∀ r, ¬t.Works r → m.reg r = m₀.reg r := fun r hr =>
    hframe.reg r fun hr' => hr (htouch r hr')
  cases hcolumn : ctx.plan.cColumn j with
  | offset bytes =>
    refine .inl ⟨rfl, (hready j hj').of_reg (hsame _ ?_)⟩
    rw [columnBase_of_offset hj hcolumn]
    exact show ¬t.Works cTile from Tile.not_works (by decide)
  | register reg =>
    have hreg : reg ∈ (ctx.plan.cColumn j).regs := by simp [hcolumn, CColumn.regs]
    refine .inl ⟨rfl, (hready j hj').of_reg (hsame _ ?_)⟩
    rw [columnBase_of_register hj hcolumn]
    exact hctx.not_works ht (Plan.mem_registers_of_cColumn hreg)
  | scratch bytes =>
    rw [hcolumn] at hfits
    rw [columnBase_of_scratch hj hcolumn]
    refine .inr ⟨bScalar_ne (by decide) j, rfl, ?_⟩
    rw [show bytes = j * (ctx.shape.ldc * 4) from hfits, ← Nat.mul_assoc]

/-! ## Moving the accumulators -/

/-- Different elements of a tile are different words. -/
theorem Fits.elementAddress_tile (hctx : ctx.Fits layout) (ht : t.Fits ctx.shape layout)
    {pointer : UInt32} {i j i' j' : Nat} (hi : i < t.mt) (hj : j < t.nt) (hi' : i' < t.mt)
    (hj' : j' < t.nt)
    (h : elementAddress pointer ctx.shape.ldc i j = elementAddress pointer ctx.shape.ldc i' j') :
    i = i' ∧ j = j' := by
  have hrows := ht.mt_le_m
  have hm := hctx.shape.m_le_ldc
  have hmax : Shape.maxDimension = 2 ^ 24 := rfl
  have hldc := hctx.shape.ldc_le
  have hnt := ht.nt_le_three hctx.layout
  have hbound : ∀ c < t.nt, c * ctx.shape.ldc ≤ 2 * 2 ^ 24 := fun c hc =>
    Nat.mul_le_mul (by omega) (by omega)
  have := hbound j hj
  have := hbound j' hj'
  exact elementAddress_injective (by omega) (by omega) (by omega) (by omega) h

theorem accessC_eq (access : Access) (i : Nat) {j bytes : Nat} (h : (ctx.columnBase j).2 = bytes) :
    ctx.accessC t access i j =
      .emit (.vecMem access (t.acc i j) (ctx.columnBase j).1 ((bytes + 16 * i : Nat) : Int)
        .offset) := by
  rw [Int.natCast_add, ← h]
  rfl

theorem BaseReady.laneAddress_eq {pointer : UInt32} {j bytes : Nat} (h : ctx.BaseReady pointer j m)
    (hbytes : (ctx.columnBase j).2 = bytes) (i : Nat) (l : Lane) :
    laneAddress (m.reg (ctx.columnBase j).1 + UInt32.ofNat (bytes + 16 * i)) l =
      elementAddress pointer ctx.shape.ldc (4 * i + l.val) j := by
  have hword : ∀ x : UInt32, laneAddress (x + UInt32.ofNat (bytes + 16 * i)) l =
      wordAddress (x + UInt32.ofInt bytes) (4 * i + l.val) := by
    intro x
    apply UInt32.toNat.inj
    simp only [laneAddress, wordAddress, UInt32.ofInt, UInt32.toNat_add, UInt32.toNat_ofNat']
    omega
  rw [hword, ← hbytes, h, elementAddress_eq]

section Access

variable (hctx : ctx.Fits layout) (ht : t.Fits ctx.shape layout) {x : Nat × Nat}
  (hx : x ∈ t.cells) {left : Nat} (hmask : m.Leaves (t.mask x.1) left) {pointer : UInt32}
  (hready : ctx.BaseReady pointer x.2 m)

include hctx ht hx hmask hready

theorem Fits.achieves_accessC_load {z : Nat → Nat → UInt32}
    (hread : ∀ i < t.mt,
      m.memory.read (elementAddress pointer ctx.shape.ldc i x.2) = .ok (z i x.2)) :
    Achieves mulAdd [ctx.accessC t .load x.1 x.2] (Touch.vecs (· = t.acc x.1 x.2)).blocked m
      fun m' => (∀ l : Lane, 4 * x.1 + l.val < t.mt →
        m'.lane (t.acc x.1 x.2) l = z (4 * x.1 + l.val) x.2) ∧ m'.vptRemaining = left := by
  obtain ⟨hi, hj⟩ := Tile.mem_cells.mp hx
  obtain ⟨hgeneral, bytes, hbytes, haligned, hreach⟩ := hctx.columnBase_reach ht hj
  rw [accessC_eq .load x.1 hbytes]
  refine (achieves_vecLoad hmask _ hgeneral (by omega) (by omega) fun l hl => ?_).imp
    fun m' _ hm' => ⟨fun l hl => hm'.1 l ((Tile.mask_iff hi l).mpr hl), hm'.2⟩
  rw [hready.laneAddress_eq hbytes]
  exact hread _ ((Tile.mask_iff hi l).mp hl)

theorem Fits.achieves_accessC_store
    (hwritable : ∀ i < t.mt,
      m.memory.Writable (elementAddress pointer ctx.shape.ldc i x.2)) :
    Achieves mulAdd [ctx.accessC t .store x.1 x.2]
      (Touch.blocked { memory := fun a => ∃ l : Lane, 4 * x.1 + l.val < t.mt ∧
        a = elementAddress pointer ctx.shape.ldc (4 * x.1 + l.val) x.2 }) m
      fun m' => (∀ l : Lane, 4 * x.1 + l.val < t.mt →
        m'.memory.read (elementAddress pointer ctx.shape.ldc (4 * x.1 + l.val) x.2) =
          .ok (m.lane (t.acc x.1 x.2) l)) ∧ m'.vptRemaining = left := by
  obtain ⟨hi, hj⟩ := Tile.mem_cells.mp hx
  obtain ⟨hgeneral, bytes, hbytes, haligned, hreach⟩ := hctx.columnBase_reach ht hj
  have haddress := hready.laneAddress_eq hbytes x.1
  rw [accessC_eq .store x.1 hbytes]
  refine (achieves_vecStore hmask _ hgeneral (by omega) (by omega) fun l hl => ?_).mono
    ⟨fun _ => id, fun _ => id, id, id, ?_⟩ fun m' _ hm' => ⟨fun l hl => ?_, hm'.2⟩
  · rw [haddress]
    exact hwritable _ ((Tile.mask_iff hi l).mp hl)
  · rintro a ⟨l, hl, rfl⟩
    exact ⟨l, (Tile.mask_iff hi l).mp hl, haddress l⟩
  · rw [← haddress]
    exact hm'.1 l ((Tile.mask_iff hi l).mpr hl)

end Access

theorem transferC_eq (access : Access) :
    ctx.transferC t access =
      t.fulls.flatMap (fun x => [ctx.accessC t access x.1 x.2]) ++
      if t.tail = 0 then []
      else .emit (.vpst t.nt) :: t.partials.flatMap fun x => [ctx.accessC t access x.1 x.2] := by
  have hfulls : (List.range t.nt).flatMap (fun j =>
      ((List.range t.vectors).filter fun i => !t.isPartial i).map fun i => ctx.accessC t access i j) =
      t.fulls.flatMap fun x => [ctx.accessC t access x.1 x.2] := by
    simp only [Tile.fulls, Tile.cells, List.filter_flatMap, List.filter_map, List.flatMap_assoc,
      List.flatMap_map, Function.comp_def]
    simp only [List.map_eq_flatMap]
  rw [transferC, hfulls]
  by_cases htail : t.tail = 0
  · simp only [htail, ↓reduceIte]
  · simp only [Tile.partials, htail, ↓reduceIte, List.flatMap_map]
    rw [List.map_eq_flatMap]

section Transfer

variable {access : Access} {touch : Nat × Nat → Touch} {P : Nat × Nat → Machine → Prop}
  (hstep : ∀ x ∈ t.cells, ∀ m' left, Frame (Touch.others t.cells touch x).blocked m m' →
    m'.Leaves (t.mask x.1) left →
    Achieves mulAdd [ctx.accessC t access x.1 x.2] (touch x).blocked m'
      fun m'' => P x m'' ∧ m''.vptRemaining = left)
  (hkeep : ∀ x ∈ t.cells, ∀ m₁ m₂, Frame (Touch.others t.cells touch x).blocked m₁ m₂ →
    P x m₁ → P x m₂)

include hstep hkeep

/-- Full vectors stand outside a predication block. -/
theorem achieves_transferFulls (h : m.Plain) :
    Achieves mulAdd (t.fulls.flatMap fun x => [ctx.accessC t access x.1 x.2])
      (Touch.union (· ∈ t.fulls) fun x => (touch x).blocked) m
      fun m' => (∀ x ∈ t.fulls, P x m') ∧ m'.vptRemaining = 0 := by
  have hmem : ∀ x ∈ t.fulls, x ∈ t.cells := fun x hx => (Tile.mem_fulls.mp hx).1
  refine Achieves.each_with (J := fun _ m' => m'.vptRemaining = 0) ((Tile.nodup_cells t).filter _)
    (fun x rest hrest m' hframe hblock => ?_) (fun x hx m₁ m₂ hframe => ?_) h.block
  · obtain ⟨hx, hwhole⟩ := Tile.mem_fulls.mp (hrest.mem List.mem_cons_self)
    refine hstep x hx m' 0
      (hframe.mono (Touch.union_blocked_within fun y hy => ⟨hmem y hy.1, hy.2⟩)) ?_
    rw [Tile.mask_of_full hwhole]
    exact leaves_of_plain ⟨hblock, hframe.tail.trans h.tail⟩
  · exact hkeep x (hmem x hx) m₁ m₂
      (hframe.mono (Touch.union_blocked_within fun y hy => ⟨hmem y hy.1, hy.2⟩))

/-- Partial vectors use up a predication block that was opened for them. -/
theorem achieves_transferPartials (ht : t.Fits ctx.shape layout)
    (hpredicate : ∀ x ∈ t.cells, ¬(touch x).predicate) {m₁ : Machine}
    (hframe₁ : ∀ x ∈ t.partials, Frame (Touch.others t.cells touch x).blocked m m₁)
    (hmask : t.Predicated m₁) (hblock : m₁.vptRemaining = t.partials.length)
    (htail : m₁.tailPredicated = false) :
    Achieves mulAdd (t.partials.flatMap fun x => [ctx.accessC t access x.1 x.2])
      (Touch.union (· ∈ t.partials) fun x => (touch x).blocked) m₁
      fun m' => (∀ x ∈ t.partials, P x m') ∧ m'.vptRemaining = 0 := by
  have hmem : ∀ x ∈ t.partials, x ∈ t.cells := fun x hx =>
    ((Tile.mem_partials ht.vectors_pos).mp hx).1
  refine Achieves.each_with (J := fun rest m' => m'.vptRemaining = rest.length)
    (Tile.nodup_partials t)
    (fun x rest hrest m' hframe hleft => ?_) (fun x hx m₁ m₂ hframe => ?_) hblock
  · have hx : x ∈ t.partials := hrest.mem List.mem_cons_self
    obtain ⟨hcell, hpartial⟩ := (Tile.mem_partials ht.vectors_pos).mp hx
    refine hstep x hcell m' rest.length
      ((hframe₁ x hx).trans
        (hframe.mono (Touch.union_blocked_within fun y hy => ⟨hmem y hy.1, hy.2⟩))) ?_
    have hsame : m'.predicate = m₁.predicate :=
      hframe.predicate fun ⟨y, hy, hp⟩ => hpredicate y (hmem y hy.1) hp
    rw [hmask.mask_eq hpartial, ← hsame]
    exact masks_of_block hleft (hframe.tail.trans htail)
  · exact hkeep x (hmem x hx) m₁ m₂
      (hframe.mono (Touch.union_blocked_within fun y hy => ⟨hmem y hy.1, hy.2⟩))

/-- Moving all accumulators, given what one access does.  No access may depend
    on the others. -/
theorem Fits.achieves_transferC (hctx : ctx.Fits layout) (ht : t.Fits ctx.shape layout)
    (h : m.Plain) (hmask : t.Predicated m) (hpredicate : ∀ x ∈ t.cells, ¬(touch x).predicate) :
    Achieves mulAdd (ctx.transferC t access) (Touch.union (· ∈ t.cells) touch) m
      fun m' => ∀ x ∈ t.cells, P x m' := by
  suffices hmain : Achieves mulAdd (ctx.transferC t access)
      (Touch.union (· ∈ t.cells) fun x => (touch x).blocked) m
      fun m' => (∀ x ∈ t.cells, P x m') ∧ m'.vptRemaining = 0 by
    exact ((hmain.mono (Touch.union_blocked_within fun _ => id) fun _ _ => id).unblock
      fun m' hm' => hm'.2.trans h.block.symm).imp fun _ _ hm' => hm'.1
  have hpositive := ht.vectors_pos
  rw [transferC_eq]
  refine (achieves_transferFulls hstep hkeep h).seq (fun m₁ hframe₁ hfulls => ?_)
    (Touch.union_mono fun x hx => (Tile.mem_fulls.mp hx).1)
  obtain ⟨hP, hblock₁⟩ := hfulls
  by_cases htail : t.tail = 0
  · rw [if_pos htail]
    exact .nil ⟨fun x hx => hP x (Tile.mem_fulls.mpr ⟨hx, by simp [Tile.isPartial, htail]⟩), hblock₁⟩
  rw [if_neg htail]
  -- each cell belongs to one of the two parts, so neither spoils what the other made true
  have hpartial : ∀ x, x ∈ t.partials ↔ x ∈ t.cells ∧ t.isPartial x.1 = true :=
    fun x => Tile.mem_partials hpositive
  have hblock : ∀ u : Touch, Touch.Within { block := True } u.blocked :=
    fun u => Touch.block_within trivial
  refine Achieves.seq (s := [.emit (.vpst t.nt)])
    (achieves_vpst ⟨hblock₁, hframe₁.tail.trans h.tail⟩ ht.nt_pos
      (by have := ht.nt_le_three hctx.layout; omega))
    (fun m₂ hframe₂ hblock₂ => ?_)
    (Touch.block_within ⟨(0, 0), Tile.mem_cells.mpr ⟨hpositive, ht.nt_pos⟩, trivial⟩)
  have hframes : ∀ x ∈ t.partials, Frame (Touch.others t.cells touch x).blocked m m₂ := by
    intro x hx
    refine (hframe₁.mono (Touch.union_blocked_within fun y hy =>
      ⟨(Tile.mem_fulls.mp hy).1, ?_⟩)).trans (hframe₂.mono (hblock _))
    rintro rfl
    exact absurd ((hpartial y).mp hx).2 (by rw [(Tile.mem_fulls.mp hy).2]; decide)
  have hmask₂ : t.Predicated m₂ := by
    intro hne
    have hfulls : ¬(Touch.union (· ∈ t.fulls) fun x => (touch x).blocked).predicate := by
      rintro ⟨y, hy, hp⟩
      exact hpredicate y (Tile.mem_fulls.mp hy).1 hp
    rw [hframe₂.predicate id, hframe₁.predicate hfulls]
    exact hmask hne
  refine (achieves_transferPartials hstep hkeep ht hpredicate hframes hmask₂
    (hblock₂.trans (Tile.length_partials htail).symm)
    (hframe₂.tail.trans (hframe₁.tail.trans h.tail))).mono
    (Touch.union_mono fun x hx => ((hpartial x).mp hx).1)
    fun m' hframe' hpartials => ⟨fun x hx => ?_, hpartials.2⟩
  have hP' := hpartials.1
  by_cases hx' : t.isPartial x.1 = true
  · exact hP' x ((hpartial x).mpr ⟨hx, hx'⟩)
  · refine hkeep x hx m₁ m' ((hframe₂.mono (hblock _)).trans (hframe'.mono
      (Touch.union_blocked_within fun y hy => ⟨((hpartial y).mp hy).1, ?_⟩)))
      (hP x (Tile.mem_fulls.mpr ⟨hx, by simpa using hx'⟩))
    rintro rfl
    exact hx' ((hpartial y).mp hy).2

end Transfer

variable (hctx : ctx.Fits layout) (ht : t.Fits ctx.shape layout) (h : m.Plain)
  (hmask : t.Predicated m) {pointer : UInt32} (hready : ctx.BasesReady t pointer m)
  {z : Nat → Nat → UInt32}

include hctx ht h hmask hready

/-- Loading all accumulators reads no other element. -/
theorem Fits.achieves_loadC
    (hread : ∀ i < t.mt, ∀ j < t.nt,
      m.memory.read (elementAddress pointer ctx.shape.ldc i j) = .ok (z i j)) :
    Achieves mulAdd (ctx.transferC t .load) (Touch.vecs fun _ => True) m (t.Holds z) := by
  have hothers : ∀ x ∈ t.cells, ∀ m₁ m₂,
      Frame (Touch.others t.cells (fun x => Touch.vecs (· = t.acc x.1 x.2)) x).blocked m₁ m₂ →
      (∀ r, m₂.reg r = m₁.reg r) ∧ (∀ a, m₂.memory.read a = m₁.memory.read a) ∧
        ∀ l, m₂.lane (t.acc x.1 x.2) l = m₁.lane (t.acc x.1 x.2) l := by
    intro x hx m₁ m₂ hframe
    refine ⟨fun r => hframe.reg r ?_, fun a => hframe.memory.read_eq ?_, fun l => hframe.lane _ l ?_⟩
    · rintro ⟨y, -, hy⟩
      exact hy
    · rintro ⟨y, -, hy⟩
      exact hy
    · rintro ⟨y, ⟨hy, hne⟩, heq⟩
      exact hne (Tile.acc_injective ht hctx.layout hx hy heq).symm
  have hall : Achieves mulAdd (ctx.transferC t .load)
      (Touch.union (· ∈ t.cells) fun x => Touch.vecs (· = t.acc x.1 x.2)) m (t.Holds z) := by
    refine Fits.achieves_transferC (fun x hx m' left hframe hleaves => ?_)
      (fun x hx m₁ m₂ hframe hP l hl => ?_) hctx ht h hmask fun _ _ => id
    · obtain ⟨hregs, hmemory, -⟩ := hothers x hx m m' hframe
      have hj := (Tile.mem_cells.mp hx).2
      refine hctx.achieves_accessC_load ht hx hleaves ((hready x.2 hj).of_reg (hregs _)) fun i hi => ?_
      rw [hmemory]
      exact hread i hi x.2 hj
    · rw [(hothers x hx m₁ m₂ hframe).2.2 l]
      exact hP l hl
  exact hall.mono (Touch.union_within fun x _ => Touch.vecs_within fun _ _ => trivial) fun _ _ => id

/-- Storing all accumulators writes the elements of the tile and no others. -/
theorem Fits.achieves_storeC (hz : t.Holds z m)
    (hwritable : ∀ i < t.mt, ∀ j < t.nt,
      m.memory.Writable (elementAddress pointer ctx.shape.ldc i j)) :
    Achieves mulAdd (ctx.transferC t .store)
      { memory := fun a => ∃ i < t.mt, ∃ j < t.nt,
          a = elementAddress pointer ctx.shape.ldc i j } m
      fun m' => ∀ i < t.mt, ∀ j < t.nt,
        m'.memory.read (elementAddress pointer ctx.shape.ldc i j) = .ok (z i j) := by
  let address := elementAddress pointer ctx.shape.ldc
  let touch : Nat × Nat → Touch := fun x =>
    { memory := fun a => ∃ l : Lane, 4 * x.1 + l.val < t.mt ∧ a = address (4 * x.1 + l.val) x.2 }
  -- the words that two cells write are different, so the order of the stores does not matter
  have hothers : ∀ x ∈ t.cells, ∀ l : Lane, 4 * x.1 + l.val < t.mt →
      ¬(Touch.others t.cells touch x).memory (address (4 * x.1 + l.val) x.2) := by
    rintro x hx l hl ⟨y, ⟨hy, hne⟩, k, hk, heq⟩
    have := hctx.elementAddress_tile ht hl (Tile.mem_cells.mp hx).2 hk (Tile.mem_cells.mp hy).2 heq
    exact hne (Prod.ext (by omega) this.2.symm)
  have hall : Achieves mulAdd (ctx.transferC t .store) (Touch.union (· ∈ t.cells) touch) m
      fun m' => ∀ x ∈ t.cells, ∀ l : Lane, 4 * x.1 + l.val < t.mt →
        m'.memory.read (address (4 * x.1 + l.val) x.2) = .ok (z (4 * x.1 + l.val) x.2) := by
    refine Fits.achieves_transferC (fun x hx m' left hframe hleaves => ?_)
      (fun x hx m₁ m₂ hframe hP l hl => ?_) hctx ht h hmask fun _ _ => id
    · have hj := (Tile.mem_cells.mp hx).2
      have hreg := hframe.reg (ctx.columnBase x.2).1 fun ⟨_, _, hr⟩ => hr
      refine (hctx.achieves_accessC_store ht hx hleaves ((hready x.2 hj).of_reg hreg)
        fun i hi => hframe.memory.writable_iff.mpr (hwritable i hi x.2 hj)).imp
        fun m'' _ hm'' => ⟨fun l hl => ?_, hm''.2⟩
      rw [hm''.1 l hl, hframe.lane _ l fun ⟨_, _, hq⟩ => hq, hz x hx l hl]
    · rw [hframe.memory.read_eq (hothers x hx l hl)]
      exact hP l hl
  refine hall.mono (Touch.union_within fun x hx => ?_) fun m' _ hP i hi j hj => ?_
  · refine ⟨fun _ => id, fun _ => id, id, id, ?_⟩
    rintro a ⟨l, hl, rfl⟩
    exact ⟨_, hl, x.2, (Tile.mem_cells.mp hx).2, rfl⟩
  · have hcell : (i / 4, j) ∈ t.cells := Tile.mem_cells.mpr ⟨by
      simp only [Tile.vectors, vectorsOf]
      omega, hj⟩
    have := hP (i / 4, j) hcell ⟨i % 4, Nat.mod_lt _ (by decide)⟩
    simp only [show 4 * (i / 4) + i % 4 = i by omega] at this
    exact this hi

end Context

end HeliumKernels.Gemm
