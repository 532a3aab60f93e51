/-
  HeliumKernels.Proofs.Gemm.Loops

  The loops over tiles.  An index counts the rows or columns that are done
  and ends the loop at the bound; the tile pointers move along.  After the
  full blocks a smaller tile does the rest, so that every regime finishes
  every element of `C`.  A loop takes as many times the steps of its body as it
  has rounds.
-/
import HeliumKernels.Proofs.Gemm.Product

namespace HeliumKernels.Gemm

open Role Machine

variable {ctx : Context} {layout : Layout} {mulAdd : MulAdd} {m m' : Machine}

/-! ## Counted loops -/

/-- The comparison at the end of a loop sees whether the bound is reached. -/
theorem achieves_compare (h : m.Plain) {index : Reg} (hindex : index.General)
    (hne : index ≠ aWalk) {bound : Bound} {value : Nat} (hbound : bound.Fits true value)
    (hregs : ∀ r ∈ bound.regs, r ≠ .pc ∧ m.reg r = UInt32.ofNat value) :
    Achieves mulAdd (Context.compare index bound) (Touch.regs (· = aWalk)) m
      fun m' => m'.flags.z = decide (m.reg index = UInt32.ofNat value) := by
  cases bound with
  | absent => exact nomatch hbound
  | immediate v =>
    obtain ⟨rfl, hencodable⟩ := hbound
    exact achieves_cmpImm h hindex.2 hencodable
  | register rm =>
    obtain ⟨hrm, hvalue⟩ := hregs rm (by simp [Bound.regs])
    rw [← hvalue]
    exact achieves_cmpReg h hindex.2 hrm
  | scratch v =>
    obtain rfl : v = value := hbound
    -- the walk is free between two tiles, so it takes the bound
    refine (Sequence.achieves_loadConstant h.block (by decide) (UInt32.ofNat v)).seq
      (fun m₁ hframe hvalue => ?_) (.refl _)
    rw [← hframe.reg index hne, ← hvalue]
    exact achieves_cmpReg (hframe.plain id h) hindex.2 (by decide)

/-- The end of a round counts on and sees whether another round follows. -/
theorem achieves_roundEnd {index : Reg} {bound : Bound} {step n c : Nat} (h : m.Plain)
    (hindex : index.General) (hne : index ≠ aWalk) (hstep : 0 < step) (hc : c < n)
    (hsmall : n * step < 2 ^ 32) (hbound : bound.Fits true (n * step))
    (hregs : ∀ m', Frame (Touch.regs fun r => r = index ∨ r = aWalk) m m' →
      ∀ r ∈ bound.regs, r ≠ .pc ∧ m'.reg r = UInt32.ofNat (n * step))
    (hcount : m.reg index = UInt32.ofNat (c * step)) :
    Achieves mulAdd (Sequence.addConstant index index step aWalk ++ Context.compare index bound)
      (Touch.regs fun r => r = index ∨ r = aWalk) m
      fun m' => m'.reg index = UInt32.ofNat ((c + 1) * step) ∧
        m'.flags.holds .ne = decide (c + 1 < n) := by
  refine (Sequence.achieves_addConstant h.block hindex hindex (by decide) (Ne.symm hne) step).seq
    (fun m₁ hframe₁ hsum => ?_) (.refl _)
  have hindex₁ : m₁.reg index = UInt32.ofNat ((c + 1) * step) := by
    rw [hsum, hcount, Nat.succ_mul]
    apply UInt32.toNat.inj
    simp only [UInt32.ofInt, UInt32.toNat_add, UInt32.toNat_ofNat']
    omega
  -- counts stay below the bound until the last round, so equality means the end
  have hiff : m₁.reg index = UInt32.ofNat (n * step) ↔ ¬c + 1 < n := by
    have hle : (c + 1) * step ≤ n * step := Nat.mul_le_mul_right step hc
    rw [hindex₁, ← UInt32.toNat_inj, UInt32.toNat_ofNat', UInt32.toNat_ofNat',
      Nat.mod_eq_of_lt (by omega), Nat.mod_eq_of_lt hsmall]
    constructor
    · intro heq
      have := Nat.eq_of_mul_eq_mul_right hstep heq
      omega
    · intro hlast
      rw [show c + 1 = n by omega]
  refine (achieves_compare (hframe₁.plain id h) hindex hne hbound (hregs m₁ hframe₁)).mono
    (Touch.regs_within fun _ => .inr) fun m₂ hframe₂ hz =>
      ⟨(hframe₂.reg index hne).trans hindex₁, ?_⟩
  simp only [Flags.holds, hz, hiff, decide_not, Bool.not_not]

/-- A loop whose index counts in steps up to its bound. -/
def countedLoop (label : Label) (index : Reg) (bound : Bound) (step : Nat) (body : Script) : Script :=
  Sequence.loadConstant index 0 ++
    (.mark label :: ((body ++ (Sequence.addConstant index index step aWalk ++
      Context.compare index bound)) ++ [.branchTo label .ne]))

theorem achieves_countedLoop {label : Label} {body : Script} {index : Reg} {bound : Bound}
    {step n rounds : Nat} {touch : Touch} {I : Nat → Machine → Prop} (h : m.Plain)
    (hlabel : label ∉ body.labels) (hindex : index.General) (hne : index ≠ aWalk)
    (hstep : 0 < step) (hn : 0 < n) (hrounds : 0 < rounds) (hsmall : n * step < 2 ^ 32)
    (hbound : bound.Fits true (n * step)) (hblock : ¬touch.block)
    (htouch : (Touch.regs fun r => r = index ∨ r = aWalk).Within touch)
    (hround : ∀ c < n, ∀ m₁, Frame touch m m₁ → I c m₁ →
      AchievesWithin rounds mulAdd body touch m₁ fun m₂ =>
        I (c + 1) m₂ ∧ m₂.reg index = m₁.reg index)
    (hkeep : ∀ c m₁ m₂, Frame (Touch.regs fun r => r = index ∨ r = aWalk) m₁ m₂ → I c m₁ → I c m₂)
    (hregs : ∀ c m₁, I c m₁ → ∀ r ∈ bound.regs, r ≠ .pc ∧ m₁.reg r = UInt32.ofNat (n * step))
    (hI : I 0 m) :
    AchievesWithin (rounds * n) mulAdd (countedLoop label index bound step body) touch m (I n) := by
  refine ((Sequence.achieves_loadConstant h.block hindex 0).within (by simp)
    (Nat.mul_pos hrounds hn)).seq (fun m₀ hframe₀ hzero => ?_) (Touch.regs_within fun r hr => htouch.reg r (.inl hr))
  have hframe₀' : Frame (Touch.regs fun r => r = index ∨ r = aWalk) m m₀ :=
    hframe₀.mono (Touch.regs_within fun _ => .inl)
  -- the index is part of the invariant of the loop
  have hloop : AchievesWithin (rounds * n) mulAdd (.mark label :: ((body ++
      (Sequence.addConstant index index step aWalk ++ Context.compare index bound)) ++
        [.branchTo label .ne])) touch m₀
      fun m' => I n m' ∧ m'.reg index = UInt32.ofNat (n * step) := by
    refine .loop (I := fun c m' => I c m' ∧ m'.reg index = UInt32.ofNat (c * step)) rfl
      (by simpa using hlabel) hn hrounds (fun c hc m₁ hframe₁ hI₁ => ?_)
      ⟨hkeep 0 m m₀ hframe₀' hI, by rw [hzero, Nat.zero_mul]; rfl⟩
    have hframe₁' := (hframe₀'.mono htouch).trans hframe₁
    have hplain₁ := hframe₁'.plain hblock h
    refine (hround c hc m₁ hframe₁' hI₁.1).seq (fun m₂ hframe₂ hm₂ => ?_) (.refl _)
    have hplain₂ := hframe₂.plain hblock hplain₁
    refine ((achieves_roundEnd hplain₂ hindex hne hstep hc hsmall hbound
      (fun m₃ hframe₃ => hregs _ m₃ (hkeep (c + 1) m₂ m₃ hframe₃ hm₂.1))
      (hm₂.2.trans hI₁.2)).within (by simp) hrounds).mono htouch fun m₃ hframe₃ hm₃ => ?_
    refine ⟨m₃, hm₃.2 ▸ .branch label .ne (hframe₃.plain id hplain₂), .refl _ m₃,
      hkeep _ m₂ _ hframe₃.tick hm₂.1, hm₃.1⟩
  exact hloop.imp fun m' _ hm' => hm'.1

/-! ## Rows -/

theorem wordAddress_elementAddress (base : UInt32) (ld i j n : Nat) :
    wordAddress (elementAddress base ld i j) n = elementAddress base ld (i + n) j := by
  rw [elementAddress, wordAddress_wordAddress, elementAddress]
  congr 1
  omega

namespace Product

variable {p : Product} {memory : Memory} {done : Nat → Nat → Prop} {i j : Nat}

/-- The tile pointers of `A` and `C` move down. -/
theorem achieves_nextRows {shape : Shape} (h : m.Plain) (hat : p.At shape i j m) (rows : Nat) :
    Achieves mulAdd (Sequence.addConstant aTile aTile (rows * 4 : Nat) aWalk ++
        Sequence.addConstant cTile cTile (rows * 4 : Nat) aWalk)
      (Touch.regs fun r => r = aTile ∨ r = cTile ∨ r = aWalk) m (p.At shape (i + rows) j) := by
  refine (Sequence.achieves_addConstant h.block (by decide) (by decide) (by decide) (by decide) _).seq
    (fun m₁ hframe₁ ha => ?_) (Touch.regs_within ?_)
  · refine (Sequence.achieves_addConstant (hframe₁.plain id h).block (by decide) (by decide) (by decide)
      (by decide) _).mono (Touch.regs_within fun r => .inr) fun m₂ hframe₂ hc => ⟨?_, ?_, ?_⟩
    · rw [hframe₂.reg aTile (show ¬(aTile = cTile ∨ aTile = aWalk) by decide), ha, hat.a,
        add_ofInt_words, wordAddress_elementAddress]
    · rw [hframe₂.reg bTile (show ¬(bTile = cTile ∨ bTile = aWalk) by decide),
        hframe₁.reg bTile (show ¬(bTile = aTile ∨ bTile = aWalk) by decide), hat.b]
    · rw [hc, hframe₁.reg cTile (show ¬(cTile = aTile ∨ cTile = aWalk) by decide), hat.c,
        add_ofInt_words, wordAddress_elementAddress]
  · rintro r (rfl | rfl)
    · exact .inl rfl
    · exact .inr (.inr rfl)

/-- Registers a loop over rows may change. -/
def RowRegs (ctx : Context) (nt : Nat) (r : Reg) : Prop :=
  ctx.Uses ⟨ctx.shape.m, nt⟩ r ∨ r = aTile ∨ r = cTile ∨ r = mIndex

/-- Elements of the columns of a block. -/
def Columns (j₀ nt j : Nat) : Prop :=
  j₀ ≤ j ∧ j < j₀ + nt

/-- Elements that are done when the block's columns are finished down to a height. -/
def Rows (done : Nat → Nat → Prop) (j₀ nt height i j : Nat) : Prop :=
  done i j ∨ (i < height ∧ Columns j₀ nt j)

/-- A tile that starts where the finished rows end adds its own. -/
theorem rows_or_covers {j₀ nt height rows : Nat} :
    Rows done j₀ nt height i j ∨ Covers ⟨rows, nt⟩ height j₀ i j ↔
      Rows done j₀ nt (height + rows) i j := by
  simp only [Rows, Covers, Columns]
  constructor
  · rintro ((hd | hd) | hd)
    · exact .inl hd
    · exact .inr ⟨by omega, hd.2⟩
    · exact .inr ⟨hd.1.2, hd.2⟩
  · rintro (hd | ⟨hi, hj⟩)
    · exact .inl (.inl hd)
    · by_cases hlow : i < height
      · exact .inl (.inr ⟨hlow, hj⟩)
      · exact .inr ⟨⟨by omega, hi⟩, hj⟩

/-- None of them was finished before. -/
theorem not_rows_of_covers {j₀ nt height rows : Nat} (hfresh : ∀ i j, Columns j₀ nt j → ¬done i j)
    (h : Covers ⟨rows, nt⟩ height j₀ i j) : ¬Rows done j₀ nt height i j := by
  obtain ⟨⟨hi, -⟩, hj⟩ := h
  rintro (hd | ⟨hd, -⟩)
  · exact hfresh i j hj hd
  · omega

theorem rowLoop_eq (ctx : Context) (tileM nt : Nat) :
    ctx.rowLoop tileM nt =
      countedLoop Context.rows mIndex ctx.plan.mBound tileM (ctx.microkernel ⟨tileM, nt⟩ ++
        (Sequence.addConstant aTile aTile (tileM * 4 : Nat) aWalk ++
          Sequence.addConstant cTile cTile (tileM * 4 : Nat) aWalk)) ++
      (if ctx.shape.m % tileM = 0 then [] else ctx.microkernel ⟨ctx.shape.m % tileM, nt⟩) := by
  simp only [Context.rowLoop, countedLoop, List.append_assoc, List.cons_append, List.nil_append]

/-- A layout with a loop over rows. -/
structure RowTiling (shape : Shape) (layout : Layout) (tileM : Nat) : Prop where
  loop : layout.mLoop = true
  bound : layout.mBound = shape.m - shape.m % tileM
  pos : 0 < tileM
  le : tileM ≤ shape.m
  max : tileM ≤ layout.maxTileM

theorem RowTiling.bound_eq {shape : Shape} {tileM : Nat} (h : RowTiling shape layout tileM) :
    shape.m / tileM * tileM = layout.mBound := by
  rw [Nat.div_mul_self_eq_mod_sub_self, ← h.bound]

/-- A block of columns that tiles of the layout can cover. -/
structure Block (shape : Shape) (layout : Layout) (j₀ nt : Nat) : Prop where
  pos : 0 < nt
  le : nt ≤ layout.maxTileN
  columns : j₀ + nt ≤ shape.n

section Rows

variable {tileM nt j₀ : Nat} (hgiven : p.Given ctx.shape memory) (hctx : ctx.Fits layout)
  (hrow : RowTiling ctx.shape layout tileM) (hblock : Block ctx.shape layout j₀ nt)

include hrow hblock

theorem RowTiling.fits : Tile.Fits ⟨tileM, nt⟩ ctx.shape layout :=
  ⟨hrow.pos, hblock.pos, hrow.max, hblock.le, hrow.le⟩

theorem RowTiling.rest_fits (hrest : ctx.shape.m % tileM ≠ 0) :
    Tile.Fits ⟨ctx.shape.m % tileM, nt⟩ ctx.shape layout := by
  have hlt := Nat.mod_lt ctx.shape.m hrow.pos
  exact ⟨Nat.pos_of_ne_zero hrest, hblock.pos, Nat.le_trans (Nat.le_of_lt hlt) hrow.max, hblock.le,
    Nat.mod_le _ _⟩

include hctx

theorem RowTiling.not_rowRegs_of_preload {x : Reg × Nat} (hx : x ∈ ctx.plan.preloads) :
    ¬RowRegs ctx nt x.1 := by
  have hne : ∀ r, layout.Reserves r → x.1 ≠ r := fun r hr =>
    hctx.plan.ne_of_reserves hctx.layout (hctx.plan.mem_registers_of_preload hx) hr
  rintro (h | h | h | h)
  · exact hctx.not_uses_of_preload (hrow.fits hblock) hx h
  · exact hne _ (.fixed (by decide)) h
  · exact hne _ (.fixed (by decide)) h
  · exact hne _ (.rowIndex hrow.loop) h

include hgiven

/-- A round of the row loop finishes the next rows. -/
theorem Given.achieves_rowRound {height : Nat} (hheight : height + tileM ≤ ctx.shape.m)
    (hdone : p.Done ctx mulAdd memory (Rows done j₀ nt height) m)
    (hat : p.At ctx.shape height j₀ m) (hfresh : ∀ i j, Columns j₀ nt j → ¬done i j) :
    AchievesWithin ctx.shape.k mulAdd (ctx.microkernel ⟨tileM, nt⟩ ++
        (Sequence.addConstant aTile aTile (tileM * 4 : Nat) aWalk ++
          Sequence.addConstant cTile cTile (tileM * 4 : Nat) aWalk))
      (p.touch ctx.shape (RowRegs ctx nt)) m
      fun m' => (p.Done ctx mulAdd memory (Rows done j₀ nt (height + tileM)) m' ∧
        p.At ctx.shape (height + tileM) j₀ m') ∧ m'.reg mIndex = m.reg mIndex := by
  have ht := hrow.fits hblock
  refine (hgiven.achieves_tile hctx ht hdone hat hheight hblock.columns
    fun i j => not_rows_of_covers hfresh).seq
    (fun m₁ hframe₁ hdone₁ => ?_) ⟨fun _ => .inl, fun _ => id, id, id, fun _ => id⟩
  have hat₁ : p.At ctx.shape height j₀ m₁ := hat.of_frame hframe₁ hctx.pointers_not_uses
  have hwalk : RowRegs ctx nt aWalk := .inl (.inl (.inr (.inl rfl)))
  have hrows : ∀ r, (r = aTile ∨ r = cTile ∨ r = aWalk) → RowRegs ctx nt r := by
    rintro r (rfl | rfl | rfl)
    · exact .inr (.inl rfl)
    · exact .inr (.inr (.inl rfl))
    · exact hwalk
  refine ((achieves_nextRows hdone₁.plain hat₁ tileM).within (by simp) hctx.shape.k_pos).mono
    (Touch.regs_within hrows) fun m₂ hframe₂ hat₂ => ⟨⟨?_, hat₂⟩, ?_⟩
  · exact (hdone₁.of_frame hframe₂ fun x hx hr => hrow.not_rowRegs_of_preload hctx hblock
      hx (hrows _ hr)).congr fun i _ j _ => rows_or_covers
  · rw [hframe₂.reg mIndex (show ¬(mIndex = aTile ∨ mIndex = cTile ∨ mIndex = aWalk) by decide)]
    exact hframe₁.reg mIndex
      (hctx.not_uses_of_reserves (.rowIndex hrow.loop) (Tile.not_works (by decide)))

/-- The full blocks of rows. -/
theorem Given.achieves_rowBlocks (hdone : p.Done ctx mulAdd memory done m)
    (hat : p.At ctx.shape 0 j₀ m) (hfresh : ∀ i j, Columns j₀ nt j → ¬done i j) :
    AchievesWithin (ctx.shape.k * ctx.shape.m) mulAdd
      (countedLoop Context.rows mIndex ctx.plan.mBound tileM
        (ctx.microkernel ⟨tileM, nt⟩ ++
          (Sequence.addConstant aTile aTile (tileM * 4 : Nat) aWalk ++
            Sequence.addConstant cTile cTile (tileM * 4 : Nat) aWalk)))
      (p.touch ctx.shape (RowRegs ctx nt)) m
      fun m' => p.Done ctx mulAdd memory (Rows done j₀ nt (ctx.shape.m / tileM * tileM)) m' ∧
        p.At ctx.shape (ctx.shape.m / tileM * tileM) j₀ m' := by
  have hmax : Shape.maxDimension = 2 ^ 24 := rfl
  have hm_le : ctx.shape.m ≤ 2 ^ 24 :=
    Nat.le_trans hctx.shape.m_le_ldc (hmax ▸ hctx.shape.ldc_le)
  have hdiv := Nat.div_mul_le_self ctx.shape.m tileM
  have hindexes : ∀ r, (r = mIndex ∨ r = aWalk) → RowRegs ctx nt r := by
    rintro r (rfl | rfl)
    · exact .inr (.inr (.inr rfl))
    · exact .inl (.inl (.inr (.inl rfl)))
  refine AchievesWithin.more (achieves_countedLoop (I := fun c m' =>
      p.Done ctx mulAdd memory (Rows done j₀ nt (c * tileM)) m' ∧ p.At ctx.shape (c * tileM) j₀ m')
    hdone.plain ?_ (by decide) (by decide) hrow.pos (Nat.div_pos hrow.le hrow.pos)
    hctx.shape.k_pos (by omega) ?_ id (Touch.regs_within hindexes) (fun c hc m₁ _ hI => ?_)
    (fun c m₁ m₂ hframe hI => ?_) (fun c m₁ hI r hr => ?_) ⟨hdone.congr fun i _ j _ => ?_, ?_⟩)
    (Nat.mul_le_mul_left _ (Nat.div_le_self _ _))
  · simp only [Script.labels_append, Sequence.labels_addConstant, List.append_nil]
    exact fun hmem => absurd (Context.labels_microkernel hmem) (by decide)
  · rw [hrow.bound_eq, ← hrow.loop]
    exact hctx.plan.mBound
  · have hheight : (c + 1) * tileM ≤ ctx.shape.m := Nat.mul_le_of_le_div _ _ _ hc
    rw [Nat.succ_mul] at hheight ⊢
    exact hgiven.achieves_rowRound hctx hrow hblock hheight hI.1 hI.2 hfresh
  · refine ⟨hI.1.of_frame hframe fun x hx hr =>
      hrow.not_rowRegs_of_preload hctx hblock hx (hindexes _ hr), hI.2.of_frame hframe ?_⟩
    rintro r hr (rfl | rfl) <;> exact absurd hr (by decide)
  · rw [hrow.bound_eq]
    exact hI.1.preloaded.mBound hctx.plan hctx.layout hr
  · simp [Rows]
  · rw [Nat.zero_mul]
    exact hat

/-- The row loop finishes the columns of its block. -/
theorem Given.achieves_rowLoop (hdone : p.Done ctx mulAdd memory done m)
    (hat : p.At ctx.shape 0 j₀ m) (hfresh : ∀ i j, Columns j₀ nt j → ¬done i j) :
    AchievesWithin (ctx.shape.k * ctx.shape.m) mulAdd (ctx.rowLoop tileM nt)
      (p.touch ctx.shape (RowRegs ctx nt)) m
      fun m' => p.Done ctx mulAdd memory (fun i j => done i j ∨ Columns j₀ nt j) m' ∧
        p.At ctx.shape (ctx.shape.m - ctx.shape.m % tileM) j₀ m' := by
  have hmod := Nat.mod_le ctx.shape.m tileM
  rw [rowLoop_eq]
  refine (hgiven.achieves_rowBlocks hctx hrow hblock hdone hat hfresh).seq
    (fun m₁ _ ⟨hdone₁, hat₁⟩ => ?_) (.refl _)
  rw [Nat.div_mul_self_eq_mod_sub_self] at hdone₁ hat₁
  by_cases hrest : ctx.shape.m % tileM = 0
  · rw [if_pos hrest]
    refine .nil ⟨hdone₁.congr fun i hi j hj => ?_, hat₁⟩
    simp only [Rows, hrest, Nat.sub_zero, hi, true_and]
  rw [if_neg hrest]
  refine ((hgiven.achieves_tile hctx (hrow.rest_fits hblock hrest) hdone₁ hat₁
    (by simp only; omega) hblock.columns fun i j => not_rows_of_covers hfresh).more
    (Nat.le_mul_of_pos_right _ hctx.shape.m_pos)).mono
    ⟨fun _ => .inl, fun _ => id, id, id, fun _ => id⟩
    fun m₂ hframe₂ hdone₂ => ⟨hdone₂.congr fun i hi j hj => ?_,
      hat₁.of_frame hframe₂ hctx.pointers_not_uses⟩
  -- the rest of the rows ends at the last one
  refine rows_or_covers.trans ?_
  simp only [Rows, Nat.sub_add_cancel hmod, hi, true_and]

end Rows

/-! ## Columns -/

/-- All rows are in reach, of one tile or of a loop. -/
def Reaches (shape : Shape) (layout : Layout) : Option Nat → Prop
  | none => shape.m ≤ layout.maxTileM
  | some tileM => RowTiling shape layout tileM

/-- Registers a block of columns may change. -/
def BlockRegs (ctx : Context) (nt : Nat) : Option Nat → Reg → Prop
  | none => ctx.Uses ⟨ctx.shape.m, nt⟩
  | some _ => RowRegs ctx nt

/-- Rows by which a block of columns moves the tile pointers. -/
def moved (shape : Shape) : Option Nat → Nat
  | none => 0
  | some tileM => shape.m - shape.m % tileM

theorem rewind_eq (ctx : Context) (tileM : Option Nat) :
    ctx.rewind tileM = (moved ctx.shape tileM * 4 : Nat) := by
  cases tileM <;> rfl

variable {tileM : Option Nat} {nt j₀ : Nat}

theorem Given.achieves_columnBlock (hgiven : p.Given ctx.shape memory) (hctx : ctx.Fits layout)
    (hrows : Reaches ctx.shape layout tileM) (hblock : Block ctx.shape layout j₀ nt)
    (hdone : p.Done ctx mulAdd memory done m) (hat : p.At ctx.shape 0 j₀ m)
    (hfresh : ∀ i j, Columns j₀ nt j → ¬done i j) :
    AchievesWithin (ctx.shape.k * ctx.shape.m) mulAdd (ctx.columnBlock tileM nt)
      (p.touch ctx.shape (BlockRegs ctx nt tileM)) m
      fun m' => p.Done ctx mulAdd memory (fun i j => done i j ∨ Columns j₀ nt j) m' ∧
        p.At ctx.shape (moved ctx.shape tileM) j₀ m' := by
  cases tileM with
  | none =>
    have ht : Tile.Fits ⟨ctx.shape.m, nt⟩ ctx.shape layout :=
      ⟨hctx.shape.m_pos, hblock.pos, hrows, hblock.le, Nat.le_refl _⟩
    refine ((hgiven.achieves_tile hctx ht hdone hat (by simp only; omega) hblock.columns
      fun i j hcovers => hfresh i j hcovers.2).more
      (Nat.le_mul_of_pos_right _ hctx.shape.m_pos)).imp fun m' hframe hdone' =>
      ⟨hdone'.congr fun i hi j hj => ?_, hat.of_frame hframe hctx.pointers_not_uses⟩
    simp only [Covers, Columns, Nat.zero_le, Nat.zero_add, hi, true_and]
  | some tileM => exact hgiven.achieves_rowLoop hctx hrows hblock hdone hat hfresh

/-- Moving a pointer from one word to another. -/
theorem wordAddress_add_ofInt {value : Int} {n k : Nat} (base : UInt32)
    (hvalue : value = (k * 4 : Nat) - (n * 4 : Nat)) :
    wordAddress base n + UInt32.ofInt value = wordAddress base k := by
  apply UInt32.toNat.inj
  simp only [wordAddress, UInt32.ofInt, UInt32.toNat_add, UInt32.toNat_ofNat']
  omega

/-- The tile pointers move to the top of the next block. -/
theorem achieves_nextColumns {shape : Shape} (h : m.Plain) (hat : p.At shape i j m) (width : Nat) :
    Achieves mulAdd (Sequence.addConstant aTile aTile (-(i * 4 : Nat)) aWalk ++
        (Sequence.addConstant bTile bTile (width * shape.ldb * 4 : Nat) aWalk ++
          Sequence.addConstant cTile cTile ((width * shape.ldc * 4 : Nat) - (i * 4 : Nat)) aWalk))
      (Touch.regs fun r => r ∈ [aTile, bTile, cTile, aWalk]) m (p.At shape 0 (j + width)) := by
  have hadd : ∀ {m₁ : Machine}, m₁.Plain → ∀ {r : Reg}, r.General → aWalk ≠ r → ∀ value : Int,
      Achieves mulAdd (Sequence.addConstant r r value aWalk)
        (Touch.regs fun s => s = r ∨ s = aWalk) m₁
        fun m' => m'.reg r = m₁.reg r + UInt32.ofInt value := fun h₁ _ hr hne value =>
    Sequence.achieves_addConstant h₁.block hr hr (by decide) hne value
  have hwithin : ∀ {r : Reg}, r ∈ [aTile, bTile, cTile, aWalk] →
      (Touch.regs fun s => s = r ∨ s = aWalk).Within
        (Touch.regs fun r => r ∈ [aTile, bTile, cTile, aWalk]) := by
    refine fun {r} hr => Touch.regs_within ?_
    rintro s (rfl | rfl)
    · exact hr
    · exact show aWalk ∈ [aTile, bTile, cTile, aWalk] by decide
  refine (hadd h (by decide) (by decide) _).seq (fun m₁ hframe₁ ha => ?_) (hwithin (by decide))
  have hplain₁ := hframe₁.plain id h
  refine (hadd hplain₁ (by decide) (by decide) _).seq (fun m₂ hframe₂ hb => ?_) (hwithin (by decide))
  refine (hadd (hframe₂.plain id hplain₁) (by decide) (by decide) _).mono (hwithin (by decide))
    fun m₃ hframe₃ hc => ⟨?_, ?_, ?_⟩
  · rw [hframe₃.reg aTile (show ¬(aTile = cTile ∨ aTile = aWalk) by decide),
      hframe₂.reg aTile (show ¬(aTile = bTile ∨ aTile = aWalk) by decide), ha, hat.a]
    exact wordAddress_add_ofInt _ (by omega)
  · have hcolumns := Nat.add_mul j width shape.ldb
    rw [hframe₃.reg bTile (show ¬(bTile = cTile ∨ bTile = aWalk) by decide), hb,
      hframe₁.reg bTile (show ¬(bTile = aTile ∨ bTile = aWalk) by decide), hat.b]
    exact wordAddress_add_ofInt _ (by omega)
  · have hcolumns := Nat.add_mul j width shape.ldc
    rw [hc, hframe₂.reg cTile (show ¬(cTile = bTile ∨ cTile = aWalk) by decide),
      hframe₁.reg cTile (show ¬(cTile = aTile ∨ cTile = aWalk) by decide), hat.c]
    exact wordAddress_add_ofInt _ (by omega)

/-- A layout with a loop over columns. -/
structure ColumnTiling (shape : Shape) (layout : Layout) (tileN : Nat) : Prop where
  loop : layout.nLoop = true
  bound : layout.nBound = shape.n - shape.n % tileN
  pos : 0 < tileN
  le : tileN ≤ shape.n
  max : tileN ≤ layout.maxTileN

theorem ColumnTiling.bound_eq {shape : Shape} {tileN : Nat} (h : ColumnTiling shape layout tileN) :
    shape.n / tileN * tileN = layout.nBound := by
  rw [Nat.div_mul_self_eq_mod_sub_self, ← h.bound]

/-- Registers a loop over columns may change. -/
def ColumnRegs (ctx : Context) (nt : Nat) (tileM : Option Nat) (r : Reg) : Prop :=
  BlockRegs ctx nt tileM r ∨ r ∈ [aTile, bTile, cTile, nIndex]

theorem columnLoop_eq (ctx : Context) (tileM : Option Nat) (tileN : Nat) :
    ctx.columnLoop tileM tileN =
      countedLoop Context.columns nIndex ctx.plan.nBound tileN (ctx.columnBlock tileM tileN ++
        (Sequence.addConstant aTile aTile (-(moved ctx.shape tileM * 4 : Nat)) aWalk ++
          (Sequence.addConstant bTile bTile (tileN * ctx.shape.ldb * 4 : Nat) aWalk ++
            Sequence.addConstant cTile cTile
              ((tileN * ctx.shape.ldc * 4 : Nat) - (moved ctx.shape tileM * 4 : Nat)) aWalk))) ++
      (if ctx.shape.n % tileN = 0 then [] else ctx.columnBlock tileM (ctx.shape.n % tileN)) := by
  simp only [Context.columnLoop, countedLoop, rewind_eq, List.append_assoc, List.cons_append,
    List.nil_append]

theorem blockRegs_mono {nt' : Nat} (h : nt ≤ nt') {r : Reg} (hr : BlockRegs ctx nt tileM r) :
    BlockRegs ctx nt' tileM r := by
  have huses : ctx.Uses ⟨ctx.shape.m, nt⟩ r → ctx.Uses ⟨ctx.shape.m, nt'⟩ r := by
    rintro ((rfl | rfl | rfl | ⟨j, hj, rfl⟩) | ⟨j, hj, hj', hr⟩)
    · exact .inl (.inl rfl)
    · exact .inl (.inr (.inl rfl))
    · exact .inl (.inr (.inr (.inl rfl)))
    · exact .inl (.inr (.inr (.inr ⟨j, Nat.lt_of_lt_of_le hj h, rfl⟩)))
    · exact .inr ⟨j, hj, Nat.lt_of_lt_of_le hj' h, hr⟩
  cases tileM with
  | none => exact huses hr
  | some _ => exact hr.imp_left huses

theorem aWalk_blockRegs : BlockRegs ctx nt tileM aWalk := by
  cases tileM with
  | none => exact .inl (.inr (.inl rfl))
  | some _ => exact .inl (.inl (.inr (.inl rfl)))

section ColumnLoop

variable {tileN : Nat} (hgiven : p.Given ctx.shape memory) (hctx : ctx.Fits layout)
  (hrows : Reaches ctx.shape layout tileM) (hcolumn : ColumnTiling ctx.shape layout tileN)

include hctx hrows hcolumn

theorem ColumnTiling.not_columnRegs_of_preload {x : Reg × Nat} (hx : x ∈ ctx.plan.preloads) :
    ¬ColumnRegs ctx tileN tileM x.1 := by
  have hblock : Block ctx.shape layout 0 tileN :=
    ⟨hcolumn.pos, hcolumn.max, by rw [Nat.zero_add]; exact hcolumn.le⟩
  have hne : ∀ r, layout.Reserves r → x.1 ≠ r := fun r hr =>
    hctx.plan.ne_of_reserves hctx.layout (hctx.plan.mem_registers_of_preload hx) hr
  rintro (h | h)
  · cases tileM with
    | none =>
      have ht : Tile.Fits ⟨ctx.shape.m, tileN⟩ ctx.shape layout :=
        ⟨hctx.shape.m_pos, hblock.pos, hrows, hblock.le, Nat.le_refl _⟩
      exact hctx.not_uses_of_preload ht hx h
    | some tileM => exact RowTiling.not_rowRegs_of_preload hctx hrows hblock hx h
  · simp only [List.mem_cons, List.not_mem_nil, or_false] at h
    rcases h with h | h | h | h
    · exact hne _ (.fixed (by decide)) h
    · exact hne _ (.fixed (by decide)) h
    · exact hne _ (.fixed (by decide)) h
    · exact hne _ (.columnIndex hcolumn.loop) h

omit hrows in
theorem ColumnTiling.nIndex_not_blockRegs : ¬BlockRegs ctx tileN tileM nIndex := by
  have huses : ¬ctx.Uses ⟨ctx.shape.m, tileN⟩ nIndex :=
    hctx.not_uses_of_reserves (.columnIndex hcolumn.loop) (Tile.not_works (by decide))
  cases tileM with
  | none => exact huses
  | some _ =>
    rintro (h | h | h | h)
    · exact huses h
    · exact absurd h (by decide)
    · exact absurd h (by decide)
    · exact absurd h (by decide)

include hgiven

/-- A round of the column loop finishes the next columns. -/
theorem Given.achieves_columnRound {width : Nat} (hwidth : width + tileN ≤ ctx.shape.n)
    (hdone : p.Done ctx mulAdd memory (fun _ j => j < width) m)
    (hat : p.At ctx.shape 0 width m) :
    AchievesWithin (ctx.shape.k * ctx.shape.m) mulAdd (ctx.columnBlock tileM tileN ++
        (Sequence.addConstant aTile aTile (-(moved ctx.shape tileM * 4 : Nat)) aWalk ++
          (Sequence.addConstant bTile bTile (tileN * ctx.shape.ldb * 4 : Nat) aWalk ++
            Sequence.addConstant cTile cTile
              ((tileN * ctx.shape.ldc * 4 : Nat) - (moved ctx.shape tileM * 4 : Nat)) aWalk)))
      (p.touch ctx.shape (ColumnRegs ctx tileN tileM)) m
      fun m' => (p.Done ctx mulAdd memory (fun _ j => j < width + tileN) m' ∧
        p.At ctx.shape 0 (width + tileN) m') ∧ m'.reg nIndex = m.reg nIndex := by
  have hmoves : ∀ r ∈ [aTile, bTile, cTile, aWalk], ColumnRegs ctx tileN tileM r := by
    intro r hr
    simp only [List.mem_cons, List.not_mem_nil, or_false] at hr
    rcases hr with rfl | rfl | rfl | rfl
    · exact .inr (by decide)
    · exact .inr (by decide)
    · exact .inr (by decide)
    · exact .inl aWalk_blockRegs
  refine (hgiven.achieves_columnBlock hctx hrows ⟨hcolumn.pos, hcolumn.max, hwidth⟩ hdone hat
    fun i j hj hd => by have := hj.1; omega).seq (fun m₁ hframe₁ ⟨hdone₁, hat₁⟩ => ?_)
    ⟨fun _ => .inl, fun _ => id, id, id, fun _ => id⟩
  refine ((achieves_nextColumns hdone₁.plain hat₁ tileN).within (by simp)
    (Nat.mul_pos hctx.shape.k_pos hctx.shape.m_pos)).mono (Touch.regs_within hmoves)
    fun m₂ hframe₂ hat₂ => ⟨⟨?_, hat₂⟩, ?_⟩
  · refine (hdone₁.of_frame hframe₂ fun x hx hr => hcolumn.not_columnRegs_of_preload hctx hrows hx
      (hmoves _ hr)).congr fun i _ j _ => ?_
    simp only [Columns]
    omega
  · rw [hframe₂.reg nIndex (show ¬nIndex ∈ [aTile, bTile, cTile, aWalk] by decide)]
    exact hframe₁.reg nIndex (hcolumn.nIndex_not_blockRegs hctx)

/-- The full blocks of columns. -/
theorem Given.achieves_columnBlocks (hdone : p.Done ctx mulAdd memory (fun _ _ => False) m)
    (hat : p.At ctx.shape 0 0 m) :
    AchievesWithin (ctx.shape.k * ctx.shape.m * ctx.shape.n) mulAdd
      (countedLoop Context.columns nIndex ctx.plan.nBound tileN
        (ctx.columnBlock tileM tileN ++
          (Sequence.addConstant aTile aTile (-(moved ctx.shape tileM * 4 : Nat)) aWalk ++
            (Sequence.addConstant bTile bTile (tileN * ctx.shape.ldb * 4 : Nat) aWalk ++
              Sequence.addConstant cTile cTile
                ((tileN * ctx.shape.ldc * 4 : Nat) - (moved ctx.shape tileM * 4 : Nat)) aWalk))))
      (p.touch ctx.shape (ColumnRegs ctx tileN tileM)) m
      fun m' => p.Done ctx mulAdd memory (fun _ j => j < ctx.shape.n / tileN * tileN) m' ∧
        p.At ctx.shape 0 (ctx.shape.n / tileN * tileN) m' := by
  have hn_le : ctx.shape.n ≤ 2 ^ 24 := hctx.shape.n_le
  have hdiv := Nat.div_mul_le_self ctx.shape.n tileN
  have hindexes : ∀ r, (r = nIndex ∨ r = aWalk) → ColumnRegs ctx tileN tileM r := by
    rintro r (rfl | rfl)
    · exact .inr (by decide)
    · exact .inl aWalk_blockRegs
  refine AchievesWithin.more (achieves_countedLoop (I := fun c m' =>
      p.Done ctx mulAdd memory (fun _ j => j < c * tileN) m' ∧ p.At ctx.shape 0 (c * tileN) m')
    hdone.plain ?_ (by decide) (by decide) hcolumn.pos (Nat.div_pos hcolumn.le hcolumn.pos)
    (Nat.mul_pos hctx.shape.k_pos hctx.shape.m_pos) (by omega) ?_ id (Touch.regs_within hindexes)
    (fun c hc m₁ _ hI => ?_) (fun c m₁ m₂ hframe hI => ?_) (fun c m₁ hI r hr => ?_)
    ⟨hdone.congr fun i _ j _ => ?_, ?_⟩) (Nat.mul_le_mul_left _ (Nat.div_le_self _ _))
  · simp only [Script.labels_append, Sequence.labels_addConstant, List.append_nil]
    -- the labels inside a block are those of the rows and of the steps
    intro hmem
    rcases Context.labels_columnBlock hmem with heq | heq <;> exact absurd heq (by decide)
  · rw [hcolumn.bound_eq, ← hcolumn.loop]
    exact hctx.plan.nBound
  · have hwidth : (c + 1) * tileN ≤ ctx.shape.n := Nat.mul_le_of_le_div _ _ _ hc
    rw [Nat.succ_mul] at hwidth ⊢
    exact hgiven.achieves_columnRound hctx hrows hcolumn hwidth hI.1 hI.2
  · refine ⟨hI.1.of_frame hframe fun x hx hr =>
      hcolumn.not_columnRegs_of_preload hctx hrows hx (hindexes _ hr), hI.2.of_frame hframe ?_⟩
    rintro r hr (rfl | rfl) <;> exact absurd hr (by decide)
  · rw [hcolumn.bound_eq]
    exact hI.1.preloaded.nBound hctx.plan hctx.layout hr
  · simp
  · rw [Nat.zero_mul]
    exact hat

/-- The column loop finishes all elements. -/
theorem Given.achieves_columnLoop (hdone : p.Done ctx mulAdd memory (fun _ _ => False) m)
    (hat : p.At ctx.shape 0 0 m) :
    AchievesWithin (ctx.shape.k * ctx.shape.m * ctx.shape.n) mulAdd (ctx.columnLoop tileM tileN)
      (p.touch ctx.shape (ColumnRegs ctx tileN tileM)) m
      (p.Done ctx mulAdd memory fun _ _ => True) := by
  have hmod := Nat.mod_le ctx.shape.n tileN
  have hlt := Nat.mod_lt ctx.shape.n hcolumn.pos
  have hmax := hcolumn.max
  rw [columnLoop_eq]
  refine (hgiven.achieves_columnBlocks hctx hrows hcolumn hdone hat).seq
    (fun m₁ _ ⟨hdone₁, hat₁⟩ => ?_) (.refl _)
  rw [Nat.div_mul_self_eq_mod_sub_self] at hdone₁ hat₁
  by_cases hrest : ctx.shape.n % tileN = 0
  · rw [if_pos hrest]
    refine .nil (hdone₁.congr fun i hi j hj => ?_)
    simp only [hrest, Nat.sub_zero, hj]
  rw [if_neg hrest]
  refine ((hgiven.achieves_columnBlock hctx hrows ⟨by omega, by omega, by omega⟩ hdone₁ hat₁
    fun i j hj hd => by have := hj.1; omega).more
    (Nat.le_mul_of_pos_right _ hctx.shape.n_pos)).mono
    ⟨fun r hr => .inl (blockRegs_mono (Nat.le_of_lt hlt) hr), fun _ => id, id, id, fun _ => id⟩
    fun m₂ _ hm₂ => hm₂.1.congr fun i hi j hj => ?_
  simp only [Columns, iff_true]
  omega

end ColumnLoop

/-! ## Every regime -/

theorem blockRegs_ne_sp (hctx : ctx.Fits layout) {r : Reg} (hr : BlockRegs ctx nt tileM r) :
    r ≠ .sp := by
  have huses : ctx.Uses ⟨ctx.shape.m, nt⟩ r → r ≠ .sp := by
    rintro h rfl
    exact hctx.not_uses_of_reserves (.fixed (by decide)) (Tile.not_works (by decide)) h
  cases tileM with
  | none => exact huses hr
  | some _ =>
    rcases hr with hr | rfl | rfl | rfl
    · exact huses hr
    all_goals decide

/-- Whatever the regime, the tiles finish all elements. -/
theorem Given.achieves_tiles {regime : Regime} (hgiven : p.Given ctx.shape memory)
    (hctx : ctx.Fits layout) (harranges : regime.Arranges ctx.shape layout)
    (hdone : p.Done ctx mulAdd memory (fun _ _ => False) m) (hat : p.At ctx.shape 0 0 m) :
    AchievesWithin (ctx.shape.k * ctx.shape.m * ctx.shape.n) mulAdd (ctx.tiles regime)
      (p.touch ctx.shape (· ≠ .sp)) m
      (p.Done ctx mulAdd memory fun _ _ => True) := by
  have hwhole : ∀ tileM, Reaches ctx.shape layout tileM → ctx.shape.n ≤ layout.maxTileN →
      AchievesWithin (ctx.shape.k * ctx.shape.m * ctx.shape.n) mulAdd
        (ctx.columnBlock tileM ctx.shape.n) (p.touch ctx.shape (· ≠ .sp)) m
        (p.Done ctx mulAdd memory fun _ _ => True) := fun tileM hreaches hn =>
    ((hgiven.achieves_columnBlock hctx hreaches
      ⟨hctx.shape.n_pos, hn, Nat.le_of_eq (Nat.zero_add _)⟩ hdone hat fun _ _ _ => id).more
      (Nat.le_mul_of_pos_right _ hctx.shape.n_pos)).mono
      ⟨fun r => blockRegs_ne_sp hctx, fun _ => id, id, id, fun _ => id⟩
      fun m' _ hm' => hm'.1.congr fun i _ j hj => by simp [Columns, hj]
  have hloop : ∀ tileM tileN, Reaches ctx.shape layout tileM →
      ColumnTiling ctx.shape layout tileN →
      AchievesWithin (ctx.shape.k * ctx.shape.m * ctx.shape.n) mulAdd (ctx.columnLoop tileM tileN)
        (p.touch ctx.shape (· ≠ .sp)) m
        (p.Done ctx mulAdd memory fun _ _ => True) := by
    refine fun tileM tileN hreaches hcolumn =>
      (hgiven.achieves_columnLoop hctx hreaches hcolumn hdone hat).mono
      ⟨?_, fun _ => id, id, id, fun _ => id⟩ fun _ _ => id
    rintro r (hr | hr)
    · exact blockRegs_ne_sp hctx hr
    · rintro rfl
      exact absurd hr (by decide)
  cases harranges with
  | single => exact hwhole none (Nat.le_refl _) (Nat.le_refl _)
  | mLoop hpos hle =>
    exact hwhole (some _) ⟨rfl, rfl, hpos, hle, Nat.le_refl _⟩ (Nat.le_refl _)
  | nLoop hpos hle =>
    exact hloop none _ (Nat.le_refl _) ⟨rfl, rfl, hpos, hle, Nat.le_refl _⟩
  | nested hm hm' hn hn' =>
    exact hloop (some _) _ ⟨rfl, rfl, hm, hm', Nat.le_refl _⟩ ⟨rfl, rfl, hn, hn', Nat.le_refl _⟩

end Product

end HeliumKernels.Gemm
