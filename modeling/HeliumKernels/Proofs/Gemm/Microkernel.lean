/-
  HeliumKernels.Proofs.Gemm.Microkernel

  One tile.  Whatever the registers and the predicate held before, the code
  of a tile replaces each element of its part of `C` by that element plus the
  products of the inner dimension, added in order.  It writes no other word,
  and changes only the registers of its own roles.
-/
import HeliumKernels.Proofs.Gemm.Depth
import HeliumKernels.Proofs.Gemm.Extent
import HeliumKernels.Proofs.Machine.Duration

namespace HeliumKernels.Gemm

open Role Machine

/-- What the loop over the steps may change. -/
def Tile.loopTouch (t : Tile) : Touch :=
  { reg := t.Works, vec := fun _ => True }

theorem Tile.stepTouch_within (t : Tile) : t.stepTouch.Within t.loopTouch :=
  ⟨fun _ => .inr, fun _ => id, id, id, fun _ => id⟩

namespace Context

variable {ctx : Context} {layout : Layout} {t : Tile} {mulAdd : MulAdd} {m m' : Machine}
  {a b : UInt32} {x y z : Nat → Nat → UInt32} {kk : Nat}

/-! ## The loop over the steps -/

theorem Ready.of_loop (h : ctx.Ready t a b x y m) (hctx : ctx.Fits layout)
    (ht : t.Fits ctx.shape layout) (hframe : Frame t.loopTouch m m') : ctx.Ready t a b x y m' :=
  h.of_frame hctx ht hframe (fun _ => .inl) id id fun _ => id

/-- The loop counter is none of the step's business. -/
theorem AtStep.of_counter (h : ctx.AtStep t mulAdd a b x y z kk m)
    (hframe : Frame (Touch.regs (· = .lr)) m m') : ctx.AtStep t mulAdd a b x y z kk m' where
  walks := ⟨(hframe.reg aWalk (show ¬aWalk = .lr by decide)).trans h.walks.a,
    (hframe.reg bWalk (show ¬bWalk = .lr by decide)).trans h.walks.b⟩
  sum x hx l hl := (hframe.lane _ l id).trans (h.sum x hx l hl)

theorem lr_not_moves : ¬t.Moves .lr := by
  rintro (h | h | ⟨j, -, h⟩)
  · exact absurd h (by decide)
  · exact absurd h (by decide)
  · exact bScalar_ne (by decide) j h.symm

/-- The end of a round counts down and goes back while rounds are left. -/
theorem closing_depth {n c : Nat} (hn : n ≤ 2 ^ 24) (hc : c < n) (h : m.Plain)
    (hcount : m.reg .lr = UInt32.ofNat (n - c)) :
    ∃ m', Closing (.loopEnd depth false) m m' (decide (c + 1 < n)) ∧
      Frame (Touch.regs (· = .lr)) m m' ∧
      (c + 1 < n → m'.reg .lr = UInt32.ofNat (n - (c + 1))) := by
  have hnat : (m.reg .lr).toNat = n - c := by
    rw [hcount, UInt32.toNat_ofNat']
    omega
  -- the counter is not taken below one, so the last round leaves it alone
  by_cases hagain : c + 1 < n
  · refine ⟨m.setReg .lr (m.reg .lr - 1), ?_, frame_setReg m .lr _ m.flags, fun _ => ?_⟩
    · rw [decide_eq_true hagain]
      refine .again depth h (UInt32.lt_iff_toNat_lt.mpr ?_)
      rw [hnat]
      show 1 < n - c
      omega
    · rw [reg_setReg_self, hcount]
      apply UInt32.toNat.inj
      simp only [UInt32.toNat_sub, UInt32.toNat_ofNat', UInt32.reduceToNat]
      omega
  · refine ⟨m, ?_, .refl _ m, fun hlt => absurd hlt hagain⟩
    rw [decide_eq_false hagain]
    refine .done depth h fun hlt => ?_
    have := UInt32.lt_iff_toNat_lt.mp hlt
    rw [hnat] at this
    have : 1 < n - c := this
    omega

theorem Fits.achieves_kLoop (hctx : ctx.Fits layout) (ht : t.Fits ctx.shape layout)
    (h : ctx.Ready t a b x y m) (hk : 2 ≤ ctx.shape.k)
    (hat : ctx.AtStep t mulAdd a b x y z 1 m) :
    AchievesWithin ctx.shape.k mulAdd (ctx.kLoop t) t.loopTouch m
      (ctx.AtStep t mulAdd a b x y z (ctx.shape.k - 1)) := by
  have hmax : Shape.maxDimension = 2 ^ 24 := rfl
  have hkmax : ctx.shape.k ≤ 2 ^ 24 := by
    have := hctx.shape.k_le_ldb
    have := hctx.shape.ldb_le
    omega
  have hcounter : (Touch.regs (· = .lr)).Within t.loopTouch := Touch.regs_within fun _ => .inl
  unfold kLoop
  -- two steps are all peeled off
  by_cases hthree : ctx.shape.k < 3
  · rw [if_pos hthree, show ctx.shape.k - 1 = 1 by omega]
    exact .nil hat
  rw [if_neg hthree]
  have hsplit : Sequence.loadConstant .lr (UInt32.ofNat (ctx.shape.k - 2)) ++
      [.emit (.loopStart .lr none none), .mark depth] ++ ctx.kStep t true ++
      [.loopEnd depth false] =
      Sequence.loadConstant .lr (UInt32.ofNat (ctx.shape.k - 2)) ++
      ([.emit (.loopStart .lr none none)] ++
        (.mark depth :: (ctx.kStep t true ++ [.loopEnd depth false]))) := by
    simp
  rw [hsplit]
  refine ((Sequence.achieves_loadConstant h.plain.block (by decide) _).within (by simp)
    (by omega)).seq (fun m₁ hframe₁ hcount => ?_) hcounter
  refine ((achieves_loopStart (t := Touch.regs (· = .lr)) (hframe₁.plain id h.plain)).within
    (by simp) (by omega)).seq (fun m₂ hframe₂ hsame => ?_) hcounter
  have hframe := hframe₁.trans hframe₂
  have hready₂ := h.of_loop hctx ht (hframe.mono hcounter)
  -- after `c` rounds the walks are at step `c + 1`, and the counter holds what is left
  have hloop : AchievesWithin (1 * (ctx.shape.k - 2)) mulAdd
      (.mark depth :: (ctx.kStep t true ++ [.loopEnd depth false])) t.loopTouch m₂ fun m' => ctx.AtStep t mulAdd a b x y z (ctx.shape.k - 2 + 1) m' ∧
        (ctx.shape.k - 2 < ctx.shape.k - 2 →
          m'.reg .lr = UInt32.ofNat (ctx.shape.k - 2 - (ctx.shape.k - 2))) := by
    refine .loop (I := fun c m' => ctx.AtStep t mulAdd a b x y z (c + 1) m' ∧
        (c < ctx.shape.k - 2 → m'.reg .lr = UInt32.ofNat (ctx.shape.k - 2 - c)))
      rfl (by simp) (by omega) Nat.one_pos (fun c hc m₃ hframe₃ hI => ?_)
      ⟨hat.of_counter hframe, fun _ => hsame.trans hcount⟩
    have hready₃ := hready₂.of_loop hctx ht hframe₃
    refine ((hctx.achieves_kStep ht hready₃ (by omega) hI.1 true).within (by simp)
      Nat.one_pos).mono t.stepTouch_within fun m₄ hframe₄ hm₄ => ?_
    have hlr : m₄.reg .lr = UInt32.ofNat (ctx.shape.k - 2 - c) :=
      (hframe₄.reg .lr lr_not_moves).trans (hI.2 hc)
    obtain ⟨m₅, hclosing, hframe₅, hleft⟩ :=
      closing_depth (by omega) hc (hframe₄.plain id hready₃.plain) hlr
    exact ⟨m₅, hclosing, hframe₅.mono hcounter,
      AtStep.of_counter ⟨hm₄.2 rfl, hm₄.1⟩ hframe₅.tick, hleft⟩
  refine (hloop.more (by omega)).imp fun m' _ hm' => ?_
  rw [show ctx.shape.k - 1 = ctx.shape.k - 2 + 1 by omega]
  exact hm'.1

/-- All steps of the inner dimension, the first and the last of them peeled off. -/
theorem Fits.achieves_steps (hctx : ctx.Fits layout) (ht : t.Fits ctx.shape layout)
    (h : ctx.Ready t a b x y m) (hat : ctx.AtStep t mulAdd a b x y z 0 m) :
    AchievesWithin ctx.shape.k mulAdd (ctx.kStep t (1 < ctx.shape.k) ++ (ctx.kLoop t ++
        if ctx.shape.k < 2 then [] else ctx.kStep t false)) t.loopTouch m
      (t.Holds (sumTo mulAdd x y z ctx.shape.k)) := by
  have hpos := hctx.shape.k_pos
  refine ((hctx.achieves_kStep ht h hpos hat _).within (by simp) hpos).seq
    (fun m₁ hframe₁ hm₁ => ?_) t.stepTouch_within
  have hready₁ := h.of_loop hctx ht (hframe₁.mono t.stepTouch_within)
  by_cases htwo : ctx.shape.k < 2
  · have hone : ctx.shape.k = 1 := by omega
    rw [if_pos htwo, List.append_nil, kLoop, if_pos (by omega), hone]
    exact .nil hm₁.1
  rw [if_neg htwo]
  have hat₁ := AtStep.mk (hm₁.2 (decide_eq_true (by omega))) hm₁.1
  refine (hctx.achieves_kLoop ht hready₁ (by omega) hat₁).seq (fun m₂ hframe₂ hat₂ => ?_) (.refl _)
  refine ((hctx.achieves_kStep ht (hready₁.of_loop hctx ht hframe₂) (by omega) hat₂ false).within
    (by simp) hpos).mono t.stepTouch_within fun m₃ _ hm₃ => ?_
  rw [show ctx.shape.k = ctx.shape.k - 1 + 1 by omega]
  exact hm₃.1

/-! ## Before the first step -/

theorem achieves_tailPredicate (h : m.Plain) :
    Achieves mulAdd (tailPredicate t) { reg := (· = bScalar 0), predicate := True } m
      t.Predicated := by
  unfold tailPredicate
  by_cases htail : t.tail = 0
  · rw [if_pos htail]
    exact .nil fun hne => absurd htail hne
  rw [if_neg htail]
  have hsmall : UInt32.ofNat t.tail ≤ 0xFF :=
    ofNat_le (Nat.le_of_lt (Nat.lt_trans (Nat.mod_lt _ (by decide)) (by decide))) (by decide)
  refine Achieves.seq (s := [_]) (achieves_movImm h.block
    (Instruction.assembles_movImm_narrow (bScalar_isLow 0) hsmall) nofun)
    (fun m₁ hframe hvalue => ?_) (Touch.regs_within fun _ => id)
  refine (achieves_vctp (hframe.plain id h) (bScalar_general 0)).mono
    ⟨fun _ => False.elim, fun _ => id, fun _ => trivial, id, fun _ => id⟩ fun m₂ _ hpredicate _ => ?_
  rw [hpredicate, hvalue]

variable (ctx) in
theorem achieves_startWalks (h : m.Plain) :
    Achieves mulAdd [.emit (.movReg aWalk aTile), .emit (.movReg bWalk bTile)]
      (Touch.regs fun r => r = aWalk ∨ r = bWalk) m
      (ctx.Walks (m.reg aTile) (m.reg bTile) 0) := by
  refine Achieves.seq (s := [_]) (achieves_movReg h.block (by decide) (by decide))
    (fun m₁ hframe₁ ha => ?_) (Touch.regs_within fun _ => .inl)
  refine (achieves_movReg (hframe₁.plain id h).block (by decide) (by decide)).mono
    (Touch.regs_within fun _ => .inr) fun m₂ hframe₂ hb => ⟨?_, ?_⟩
  · rw [hframe₂.reg aWalk (show ¬aWalk = bWalk by decide), ha, Nat.zero_mul, wordAddress_zero]
  · rw [hb, hframe₁.reg bTile (show ¬bTile = aWalk by decide), wordAddress_zero]

/-- Column bases, walks and lane predicate are set up. -/
theorem Fits.achieves_prepare (hctx : ctx.Fits layout) (ht : t.Fits ctx.shape layout)
    (h : m.Plain) :
    Achieves mulAdd (ctx.columnBases t ++
        ([.emit (.movReg aWalk aTile), .emit (.movReg bWalk bTile)] ++ tailPredicate t))
      { reg := ctx.Uses t, predicate := True } m
      fun m' => ctx.BasesReady t (m.reg cTile) m' ∧ ctx.Walks (m.reg aTile) (m.reg bTile) 0 m' ∧
        t.Predicated m' := by
  have hmoves : ∀ r, t.Moves r → ctx.Uses t r := fun r hr => .inl (.inr hr)
  have hpointers := hctx.pointers_not_uses (t := t)
  refine (hctx.achieves_columnBases ht h).seq (fun m₁ hframe₁ hbases => ?_)
    (Touch.regs_within fun _ => id)
  have hplain₁ := hframe₁.plain id h
  refine (achieves_startWalks ctx hplain₁).seq (fun m₂ hframe₂ hwalks => ?_) (Touch.regs_within ?_)
  · rw [hframe₁.reg aTile (hpointers _ (by decide)),
      hframe₁.reg bTile (hpointers _ (by decide))] at hwalks
    refine (achieves_tailPredicate (hframe₂.plain id hplain₁)).mono
      ⟨?_, fun _ => id, id, id, fun _ => id⟩
      fun m₃ hframe₃ hmask => ⟨fun j hj => (hbases j hj).of_reg ?_, ⟨?_, ?_⟩, hmask⟩
    · rintro r rfl
      exact hmoves _ (.inr (.inr ⟨0, ht.nt_pos, rfl⟩))
    · have hnot := hctx.columnBase_not_mem ht hj
      simp only [List.mem_cons, List.not_mem_nil, or_false, not_or] at hnot
      obtain ⟨ha, hb, hzero⟩ := hnot
      rw [hframe₃.reg _ hzero, hframe₂.reg]
      rintro (heq | heq)
      · exact ha heq
      · exact hb heq
    · rw [hframe₃.reg aWalk (show ¬aWalk = bScalar 0 by decide), hwalks.a]
    · rw [hframe₃.reg bWalk (show ¬bWalk = bScalar 0 by decide), hwalks.b]
  · rintro r (rfl | rfl)
    · exact hmoves _ (.inl rfl)
    · exact hmoves _ (.inr (.inl rfl))

/-! ## The whole tile -/

/-- What a tile at the given place in `C` may change. -/
def tileTouch (ctx : Context) (t : Tile) (c : UInt32) : Touch where
  reg := ctx.Uses t
  vec _ := True
  predicate := True
  memory address := ∃ i < t.mt, ∃ j < t.nt, address = elementAddress c ctx.shape.ldc i j

theorem microkernel_eq (ctx : Context) (t : Tile) :
    ctx.microkernel t =
      (ctx.columnBases t ++
        ([.emit (.movReg aWalk aTile), .emit (.movReg bWalk bTile)] ++ tailPredicate t)) ++
      (ctx.transferC t .load ++
      ((ctx.kStep t (1 < ctx.shape.k) ++ (ctx.kLoop t ++
        if ctx.shape.k < 2 then [] else ctx.kStep t false)) ++
      (ctx.rebuildColumns t ++ ctx.transferC t .store))) := by
  simp only [microkernel, List.append_assoc]

/-- A tile adds its part of the product to its part of `C`, in time that grows with the inner
    dimension alone. -/
theorem Fits.achieves_microkernel (hctx : ctx.Fits layout) (ht : t.Fits ctx.shape layout)
    (h : m.Plain) (hpre : ctx.Preloaded m)
    (hops : ctx.Operands t (m.reg aTile) (m.reg bTile) x y m.memory)
    (hread : ∀ i < t.mt, ∀ j < t.nt,
      m.memory.read (elementAddress (m.reg cTile) ctx.shape.ldc i j) = .ok (z i j))
    (hwritable : ∀ i < t.mt, ∀ j < t.nt,
      m.memory.Writable (elementAddress (m.reg cTile) ctx.shape.ldc i j)) :
    AchievesWithin ctx.shape.k mulAdd (ctx.microkernel t) (ctx.tileTouch t (m.reg cTile)) m
      fun m' => ∀ i < t.mt, ∀ j < t.nt,
        m'.memory.read (elementAddress (m.reg cTile) ctx.shape.ldc i j) =
          .ok (sumTo mulAdd x y z ctx.shape.k i j) := by
  have hpos := hctx.shape.k_pos
  rw [microkernel_eq]
  refine ((hctx.achieves_prepare ht h).within (by simp) hpos).seq
    (fun m₁ hframe₁ ⟨hbases, hwalks, hmask⟩ => ?_)
    ⟨fun _ => id, fun _ => False.elim, id, id, fun _ => False.elim⟩
  have hready₁ : ctx.Ready t (m.reg aTile) (m.reg bTile) x y m₁ :=
    { plain := hframe₁.plain id h
      mask := hmask
      preloaded := hpre.of_frame hctx ht hframe₁ fun _ => id
      operands :=
        ⟨fun i hi kk hkk => (hframe₁.memory.read_eq id).trans (hops.a i hi kk hkk),
          fun kk hkk j hj => (hframe₁.memory.read_eq id).trans (hops.b kk hkk j hj)⟩ }
  refine ((hctx.achieves_loadC ht hready₁.plain hmask hbases fun i hi j hj =>
    (hframe₁.memory.read_eq id).trans (hread i hi j hj)).within (by simp) hpos).seq
    (fun m₂ hframe₂ hz => ?_) (Touch.vecs_within fun _ _ => trivial)
  have hready₂ := hready₁.of_frame hctx ht hframe₂ (fun _ => False.elim) id id fun _ => id
  have hat₂ : ctx.AtStep t mulAdd (m.reg aTile) (m.reg bTile) x y z 0 m₂ :=
    ⟨⟨(hframe₂.reg _ id).trans hwalks.a, (hframe₂.reg _ id).trans hwalks.b⟩, hz⟩
  have hbases₂ : ctx.BasesReady t (m.reg cTile) m₂ := fun j hj =>
    (hbases j hj).of_reg (hframe₂.reg _ id)
  refine (hctx.achieves_steps ht hready₂ hat₂).seq (fun m₃ hframe₃ hsum => ?_)
    ⟨fun _ => .inl, fun _ => id, False.elim, id, fun _ => False.elim⟩
  have hready₃ := hready₂.of_loop hctx ht hframe₃
  -- the steps may have overwritten column bases, but never the tile pointer
  have hcTile : m₃.reg cTile = m.reg cTile :=
    (hframe₃.reg _ fun hr => hctx.pointers_not_uses cTile (by decide) (.inl hr)).trans
      ((hframe₂.reg _ id).trans (hframe₁.reg _ (hctx.pointers_not_uses _ (by decide))))
  rw [← hcTile] at hbases₂ hwritable ⊢
  refine ((hctx.achieves_rebuildColumns ht hbases₂ hframe₃ (fun _ => id) hready₃.plain).within
    (by simp) hpos).seq (fun m₄ hframe₄ hbases₄ => ?_) (Touch.regs_within fun _ => id)
  have hready₄ := hready₃.of_frame hctx ht hframe₄ (fun _ => id) id id fun _ => id
  refine ((hctx.achieves_storeC ht hready₄.plain hready₄.mask hbases₄
    (fun x hx l hl => (hframe₄.lane _ l id).trans (hsum x hx l hl)) fun i hi j hj => ?_).within
    (by simp) hpos).mono ⟨fun _ => False.elim, fun _ => False.elim, False.elim, id, fun _ => id⟩ fun _ _ => id
  rw [hframe₄.memory.writable_iff, hframe₃.memory.writable_iff, hframe₂.memory.writable_iff,
    hframe₁.memory.writable_iff]
  exact hwritable i hi j hj

end Context

end HeliumKernels.Gemm
