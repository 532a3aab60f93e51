/-
  HeliumKernels.Proofs.Gemm.WellFormed

  What can be told from the text of a kernel's script alone.  Its loops are
  properly nested and it is short, whatever registers the plan was given, so
  it is tame; and where the plan keeps clear of the fixed roles every
  instruction has an encoding.
-/
import HeliumKernels.Proofs.Assembly.Tame
import HeliumKernels.Proofs.Gemm.Kernel

namespace HeliumKernels.Gemm.Context

open Script Role

variable {ctx : Context} {layout : Layout} {t : Tile}

/-! ## Nesting -/

theorem closed_kLoop : (ctx.kLoop t).Closed [] := by
  unfold kLoop
  split
  · exact straight_nil.closed
  · have hloop : Closed (.mark depth :: (ctx.kStep t true ++ [.loopEnd depth false])) [] :=
      (straight_kStep true).closed.loop rfl (by simp)
    have hcount : Straight (Sequence.loadConstant .lr (UInt32.ofNat (ctx.shape.k - 2)) ++
        [.emit (.loopStart .lr none none)]) := by
      simp
    simpa using hcount.closed.append hloop

theorem closed_microkernel : (ctx.microkernel t).Closed [] := by
  have hfirst : Straight (ctx.columnBases t ++ [.emit (.movReg aWalk aTile),
      .emit (.movReg bWalk bTile)] ++ tailPredicate t ++ ctx.transferC t .load ++
      ctx.kStep t (1 < ctx.shape.k)) := by
    simp
  have hlast : Straight ((if ctx.shape.k < 2 then [] else ctx.kStep t false) ++
      ctx.rebuildColumns t ++ ctx.transferC t .store) := by
    split <;> simp
  simpa [microkernel] using hfirst.closed.append (closed_kLoop.append hlast.closed)

theorem closed_countedLoop {label : Label} {index : Reg} {bound : Bound} {step : Nat} {body : Script}
    (hbody : body.Closed []) (hfresh : label ∉ body.labels) :
    (countedLoop label index bound step body).Closed [] := by
  have hcount : Straight (Sequence.addConstant index index step aWalk ++ compare index bound) := by
    simp
  refine (Sequence.straight_loadConstant index 0).closed.append ?_
  exact (hbody.append hcount.closed).loop rfl (by simpa using hfresh)

theorem closed_rowLoop {tileM nt : Nat} : (ctx.rowLoop tileM nt).Closed [] := by
  have hmove : Straight (Sequence.addConstant aTile aTile (tileM * 4 : Nat) aWalk ++
      Sequence.addConstant cTile cTile (tileM * 4 : Nat) aWalk) := by
    simp
  rw [Product.rowLoop_eq]
  refine (closed_countedLoop (closed_microkernel.append hmove.closed) ?_).append ?_
  · simp only [labels_append, Sequence.labels_addConstant, List.append_nil]
    -- inside the row loop only the depth loop has a label
    exact fun hmem => absurd (labels_microkernel hmem) (by decide)
  · split
    · exact straight_nil.closed
    · exact closed_microkernel

theorem closed_columnBlock {tileM : Option Nat} {nt : Nat} :
    (ctx.columnBlock tileM nt).Closed [] := by
  cases tileM with
  | none => exact closed_microkernel
  | some tileM => exact closed_rowLoop

theorem closed_columnLoop {tileM : Option Nat} {tileN : Nat} :
    (ctx.columnLoop tileM tileN).Closed [] := by
  have hmove : ∀ x y z : Int, Straight (Sequence.addConstant aTile aTile x aWalk ++
      (Sequence.addConstant bTile bTile y aWalk ++ Sequence.addConstant cTile cTile z aWalk)) := by
    simp
  rw [Product.columnLoop_eq]
  refine (closed_countedLoop (closed_columnBlock.append (hmove _ _ _).closed) ?_).append ?_
  · simp only [labels_append, Sequence.labels_addConstant, List.append_nil]
    -- inside the column loop, the row loop and the depth loop
    intro hmem
    rcases labels_columnBlock hmem with heq | heq <;> exact absurd heq (by decide)
  · split
    · exact straight_nil.closed
    · exact closed_columnBlock

theorem closed_tiles (regime : Regime) : (ctx.tiles regime).Closed [] := by
  cases regime with
  | single => exact closed_microkernel
  | mLoop tileM => exact closed_rowLoop
  | nLoop tileN => exact closed_columnLoop
  | nested tileM tileN => exact closed_columnLoop

/-- What the kernel notes: the values that got no register. -/
def notes (ctx : Context) : List Fault :=
  ctx.plan.unavailable.map .registerUnavailable

theorem isFatal_of_mem_notes {fault : Fault} (h : fault ∈ ctx.notes) : fault.isFatal = false := by
  obtain ⟨value, -, rfl⟩ := List.mem_map.mp h
  rfl

theorem closed_script (regime : Regime) : (ctx.script regime).Closed ctx.notes := by
  have hnotes : Closed (ctx.plan.unavailable.map fun value => .note (.registerUnavailable value))
      ctx.notes := by
    simpa [notes, Function.comp_def] using closed_notes ctx.notes
  have hpreloads : Straight (ctx.plan.preloads.flatMap fun x =>
      Sequence.loadConstant x.1 (UInt32.ofNat x.2)) :=
    straight_flatMap fun x _ => Sequence.straight_loadConstant x.1 (UInt32.ofNat x.2)
  have hsave := Sequence.straight_save saved true
  have hrestore := Sequence.straight_restoreAndReturn saved true
  simpa [script] using (((hsave.closed.append hnotes).append hpreloads.closed).append
    (closed_tiles regime)).append hrestore.closed

/-- The script of an accepted shape is tame. -/
theorem Planned.tame_script {regime : Regime} {initial : RegSet} (hctx : ctx.Planned layout initial)
    (harranges : regime.Arranges ctx.shape layout) : (ctx.script regime).Tame := by
  have hlength := hctx.length_body harranges
  have hreach : Jump.reach = 2045 := rfl
  refine (closed_script regime).tame (fun fault => isFatal_of_mem_notes) ?_
  rw [script_eq, List.length_append, List.length_singleton]
  omega

/-! ## Encodings -/

/-- Registers of the plan are operands of any instruction. -/
theorem Fits.general (hctx : ctx.Fits layout) {r : Reg} (hr : r ∈ ctx.plan.registers) : r.General :=
  hctx.plan.general hctx.layout hr

section Tile

variable (hctx : ctx.Fits layout) (ht : t.Fits ctx.shape layout)

include hctx

theorem Fits.assembles_columnBases : (ctx.columnBases t).Assembles := by
  refine assembles_flatMap fun j _ => ?_
  cases hcolumn : ctx.plan.cColumn j with
  | offset bytes => exact assembles_nil
  | register reg =>
    have hreg : reg ∈ (ctx.plan.cColumn j).regs := by simp [hcolumn, CColumn.regs]
    exact Sequence.assembles_addConstant (hctx.general (Plan.mem_registers_of_cColumn hreg))
      (by decide) (by decide) _
  | scratch bytes =>
    exact Sequence.assembles_addConstant (bScalar_general j) (by decide) (by decide) _

theorem Fits.assembles_advanceA : ctx.advanceA.Assembles := by
  have hfits := hctx.plan.aStride
  unfold advanceA
  cases hstride : ctx.plan.aStride with
  | postIndex bytes =>
    rw [hstride] at hfits
    exact assembles_singleton.mpr (Instruction.assembles_addSubImm_plain .add
      (by decide) (by decide) (ofNat_le (Nat.le_trans hfits.2 (by decide)) (by decide)))
  | plain bytes =>
    rw [hstride] at hfits
    exact assembles_singleton.mpr (Instruction.assembles_addSubImm_plain .add
      (by decide) (by decide) (ofNat_le hfits.2 (by decide)))
  | modified bytes =>
    rw [hstride] at hfits
    exact assembles_singleton.mpr (Instruction.assembles_addSubImm_modified .add
      (by decide) (by decide) hfits.2)
  | register rm =>
    have hrm : rm.General := hctx.general (by simp [Plan.registers, hstride, AStride.regs])
    exact assembles_singleton.mpr (Instruction.assembles_addReg_acc (by decide) hrm.2)
  | scratch bytes =>
    refine assembles_append.mpr ⟨Sequence.assembles_loadConstant (bScalar_general 0) _, ?_⟩
    exact assembles_singleton.mpr (Instruction.assembles_addReg_acc (by decide) (by decide))

theorem Fits.assembles_loadB {j : Nat} (hj : 1 ≤ j) (hj' : j < layout.maxTileN) :
    (ctx.loadB j).Assembles := by
  have hthree := hctx.layout.maxTileN_le
  unfold loadB
  cases hstride : ctx.plan.bStride with
  | offset bytes =>
    exact assembles_singleton.mpr (hctx.assembles_loadOffset hj hj' hstride)
  | register rm =>
    have hrm : rm.General := hctx.general (by simp [Plan.registers, hstride, BStride.regs])
    exact assembles_singleton.mpr
      (Instruction.assembles_ldrReg (bScalar_general j) (by decide) hrm (by omega))
  | scratch bytes =>
    refine assembles_append.mpr ⟨Sequence.assembles_loadConstant (bScalar_general j) _, ?_⟩
    refine assembles_emit.mpr
      ⟨Instruction.assembles_addReg_acc (bScalar_general j).2 (by decide), ?_⟩
    exact assembles_singleton.mpr (Instruction.assembles_ldrImm_narrow (bScalar_isLow j)
      (bScalar_isLow j) (by decide) rfl)

omit hctx in
theorem assembles_rebuildColumns : (ctx.rebuildColumns t).Assembles := by
  refine assembles_flatMap fun j _ => ?_
  cases ctx.plan.cColumn j with
  | offset bytes => exact assembles_nil
  | register reg => exact assembles_nil
  | scratch bytes =>
    exact Sequence.assembles_addConstant (bScalar_general j) (by decide) (by decide) _

include ht

theorem Fits.assembles_accessC (access : Access) {i j : Nat} (hi : i < t.vectors) (hj : j < t.nt) :
    Assembles [ctx.accessC t access i j] := by
  obtain ⟨hgeneral, bytes, hbytes, haligned, hreach⟩ := hctx.columnBase_reach ht hj
  rw [accessC_eq access i hbytes]
  exact assembles_singleton.mpr
    (Instruction.assembles_vecMem hgeneral (by omega) (by omega))

theorem Fits.assembles_transferC (access : Access) : (ctx.transferC t access).Assembles := by
  have hthree := ht.nt_le_three hctx.layout
  have hpos := ht.vectors_pos
  refine assembles_append.mpr ⟨assembles_flatMap fun j hj => assembles_map fun i hi => ?_, ?_⟩
  · exact hctx.assembles_accessC ht access (List.mem_range.mp (List.mem_of_mem_filter hi))
      (List.mem_range.mp hj)
  split
  · exact assembles_nil
  refine assembles_emit.mpr ⟨Instruction.assembles_vpst ht.nt_pos (by omega), ?_⟩
  exact assembles_map fun j hj =>
    hctx.assembles_accessC ht access (by omega) (List.mem_range.mp hj)

theorem Fits.assembles_loadA (advance : Bool) : (loadA t (ctx.postIndex? advance)).Assembles := by
  have hfour := ht.vectors_le hctx.layout
  refine assembles_flatMap fun i hi => assembles_append.mpr ⟨?_, ?_⟩
  · split
    · exact assembles_singleton.mpr (Instruction.assembles_vpst (by decide) (by decide))
    · exact assembles_nil
  have hlt : i < t.vectors := List.mem_range.mp (List.mem_reverse.mp hi)
  split
  · rename_i bytes hpost
    obtain ⟨hbytes, hreach⟩ := hctx.postIndex?_eq_some hpost
    exact assembles_singleton.mpr
      (Instruction.assembles_vecMem (by decide) hreach (by omega))
  · exact assembles_singleton.mpr
      (Instruction.assembles_vecMem (by decide) (by omega) (by omega))

omit hctx ht in
theorem assembles_loadFirstB (advance : Bool) : Assembles [loadFirstB advance] := by
  cases advance with
  | true => exact assembles_singleton.mpr ⟨_, rfl⟩
  | false => exact assembles_singleton.mpr ⟨_, rfl⟩

omit hctx ht in
theorem assembles_multiplyAdds : (multiplyAdds t).Assembles := by
  refine assembles_flatMap fun j _ => assembles_map fun i _ => ?_
  exact assembles_singleton.mpr (Instruction.assembles_vfmaScalar (bScalar_general j))

theorem Fits.assembles_kStep (advance : Bool) : (ctx.kStep t advance).Assembles := by
  have hmove : Assembles (if (advance && (ctx.postIndex? advance).isNone) = true then ctx.advanceA
      else []) := by
    split
    · exact hctx.assembles_advanceA
    · exact assembles_nil
  have hrow : Assembles (t.laterColumns.flatMap ctx.loadB) := by
    refine assembles_flatMap fun j hj => ?_
    obtain ⟨hlow, hhigh⟩ := Tile.mem_laterColumns.mp hj
    exact hctx.assembles_loadB hlow (Nat.lt_of_lt_of_le hhigh ht.nt_le)
  simp only [kStep, assembles_append, hctx.assembles_loadA ht, hmove, hrow, assembles_loadFirstB,
    assembles_multiplyAdds, and_self]

theorem Fits.assembles_kLoop : (ctx.kLoop t).Assembles := by
  unfold kLoop
  split
  · exact assembles_nil
  · simp only [assembles_append, hctx.assembles_kStep ht, assembles_emit, assembles_nil,
      Sequence.assembles_loadConstant (show Reg.General .lr by decide), and_true, true_and,
      assembles_cons (s := []) (d := .mark depth) rfl,
      assembles_cons (s := []) (d := .loopEnd depth false) rfl]
    exact ⟨_, rfl⟩

omit hctx ht in
theorem assembles_tailPredicate : (tailPredicate t).Assembles := by
  unfold tailPredicate
  split
  · exact assembles_nil
  · have htail : t.tail ≤ 0xFF := Nat.le_of_lt (Nat.lt_trans (Nat.mod_lt _ (by decide)) (by decide))
    refine assembles_emit.mpr ⟨Instruction.assembles_movImm_narrow (by decide)
      (ofNat_le htail (by decide)), ?_⟩
    exact assembles_singleton.mpr ⟨_, rfl⟩

theorem Fits.assembles_microkernel : (ctx.microkernel t).Assembles := by
  have hlast : Assembles (if ctx.shape.k < 2 then [] else ctx.kStep t false) := by
    split
    · exact assembles_nil
    · exact hctx.assembles_kStep ht false
  have hwalks : Assembles [.emit (.movReg aWalk aTile), .emit (.movReg bWalk bTile)] := by
    simp [Instruction.assembles_movReg (show aWalk ≠ .pc by decide),
      Instruction.assembles_movReg (show bWalk ≠ .pc by decide)]
  simp only [microkernel, assembles_append, hctx.assembles_columnBases, hwalks,
    assembles_tailPredicate, hctx.assembles_transferC ht, hctx.assembles_kStep ht,
    hctx.assembles_kLoop ht, hlast, assembles_rebuildColumns, and_self]

end Tile

/-! ### Loops -/

theorem assembles_compare {index : Reg} (hindex : index.General) {bound : Bound} {active : Bool}
    {value : Nat} (hbound : bound.Fits active value) (hregs : ∀ r ∈ bound.regs, r.General) :
    (compare index bound).Assembles := by
  cases bound with
  | absent => exact assembles_nil
  | immediate v =>
    exact assembles_singleton.mpr (Instruction.assembles_cmpImm hindex.2 hbound.2)
  | register rm =>
    have hrm := hregs rm (by simp [Bound.regs])
    exact assembles_singleton.mpr (Instruction.assembles_cmpReg hindex.2 hrm.2)
  | scratch v =>
    refine assembles_append.mpr ⟨Sequence.assembles_loadConstant (by decide) _, ?_⟩
    exact assembles_singleton.mpr (Instruction.assembles_cmpReg hindex.2 (by decide))

theorem assembles_countedLoop {label : Label} {index : Reg} {bound : Bound} {step : Nat}
    {body : Script} (hindex : index.General) (hbody : body.Assembles)
    (hcompare : (compare index bound).Assembles) :
    (countedLoop label index bound step body).Assembles := by
  simp only [countedLoop, assembles_append, assembles_cons (d := .mark label) rfl, hbody, hcompare,
    assembles_cons (s := []) (d := .branchTo label .ne) rfl, assembles_nil,
    Sequence.assembles_loadConstant hindex,
    Sequence.assembles_addConstant hindex hindex (show aWalk.General by decide), and_self]

/-- Moving the tile pointers. -/
theorem assembles_addConstant_tile {r : Reg} (hr : r ∈ [aTile, bTile, cTile]) (value : Int) :
    (Sequence.addConstant r r value aWalk).Assembles := by
  have hgeneral : r.General := by
    revert r
    decide
  exact Sequence.assembles_addConstant hgeneral hgeneral (by decide) value

section Loops

variable (hctx : ctx.Fits layout)

include hctx

theorem Fits.assembles_rowLoop {tileM nt j : Nat} (hrow : Product.RowTiling ctx.shape layout tileM)
    (hblock : Product.Block ctx.shape layout j nt) : (ctx.rowLoop tileM nt).Assembles := by
  have hcompare : (compare mIndex ctx.plan.mBound).Assembles :=
    assembles_compare (by decide) hctx.plan.mBound fun r hr =>
      hctx.general (by simp [Plan.registers, hr])
  rw [Product.rowLoop_eq, assembles_append]
  refine ⟨assembles_countedLoop (by decide) ?_ hcompare, ?_⟩
  · simp only [assembles_append, hctx.assembles_microkernel (hrow.fits hblock),
      assembles_addConstant_tile (show aTile ∈ _ by decide),
      assembles_addConstant_tile (show cTile ∈ _ by decide), and_self]
  · split
    · exact assembles_nil
    · rename_i hrest
      exact hctx.assembles_microkernel (hrow.rest_fits hblock hrest)

theorem Fits.assembles_columnBlock {tileM : Option Nat} {nt j : Nat}
    (hreaches : Product.Reaches ctx.shape layout tileM)
    (hblock : Product.Block ctx.shape layout j nt) : (ctx.columnBlock tileM nt).Assembles := by
  cases tileM with
  | none =>
    exact hctx.assembles_microkernel
      ⟨hctx.shape.m_pos, hblock.pos, hreaches, hblock.le, Nat.le_refl _⟩
  | some tileM => exact hctx.assembles_rowLoop hreaches hblock

theorem Fits.assembles_columnLoop {tileM : Option Nat} {tileN : Nat}
    (hreaches : Product.Reaches ctx.shape layout tileM)
    (hcolumn : Product.ColumnTiling ctx.shape layout tileN) :
    (ctx.columnLoop tileM tileN).Assembles := by
  have hcompare : (compare nIndex ctx.plan.nBound).Assembles :=
    assembles_compare (by decide) hctx.plan.nBound fun r hr =>
      hctx.general (by simp [Plan.registers, hr])
  have hfull : Product.Block ctx.shape layout 0 tileN :=
    ⟨hcolumn.pos, hcolumn.max, by rw [Nat.zero_add]; exact hcolumn.le⟩
  rw [Product.columnLoop_eq, assembles_append]
  refine ⟨assembles_countedLoop (by decide) ?_ hcompare, ?_⟩
  · simp only [assembles_append, hctx.assembles_columnBlock hreaches hfull,
      assembles_addConstant_tile (show aTile ∈ _ by decide),
      assembles_addConstant_tile (show bTile ∈ _ by decide),
      assembles_addConstant_tile (show cTile ∈ _ by decide), and_self]
  · split
    · exact assembles_nil
    · rename_i hrest
      have hlt := Nat.mod_lt ctx.shape.n hcolumn.pos
      refine hctx.assembles_columnBlock (j := 0) hreaches ⟨Nat.pos_of_ne_zero hrest, ?_, ?_⟩
      · exact Nat.le_trans (Nat.le_of_lt hlt) hcolumn.max
      · rw [Nat.zero_add]
        exact Nat.mod_le _ _

/-- Whatever the regime, every instruction of the tiles has an encoding. -/
theorem Fits.assembles_tiles {regime : Regime} (harranges : regime.Arranges ctx.shape layout) :
    (ctx.tiles regime).Assembles := by
  have hwhole : ∀ tileM, Product.Reaches ctx.shape layout tileM →
      ctx.shape.n ≤ layout.maxTileN → (ctx.columnBlock tileM ctx.shape.n).Assembles :=
    fun tileM hreaches hn => hctx.assembles_columnBlock (j := 0) hreaches
      ⟨hctx.shape.n_pos, hn, Nat.le_of_eq (Nat.zero_add _)⟩
  cases harranges with
  | single => exact hwhole none (Nat.le_refl _) (Nat.le_refl _)
  | mLoop hpos hle =>
    exact hwhole (some _) ⟨rfl, rfl, hpos, hle, Nat.le_refl _⟩ (Nat.le_refl _)
  | nLoop hpos hle =>
    exact hctx.assembles_columnLoop (Nat.le_refl _)
      ⟨rfl, rfl, hpos, hle, Nat.le_refl _⟩
  | nested hm hm' hn hn' =>
    exact hctx.assembles_columnLoop ⟨rfl, rfl, hm, hm', Nat.le_refl _⟩
      ⟨rfl, rfl, hn, hn', Nat.le_refl _⟩

/-- Every instruction of the kernel has an encoding. -/
theorem Fits.assembles_script {regime : Regime} (harranges : regime.Arranges ctx.shape layout) :
    (ctx.script regime).Assembles := by
  have hnotes : Assembles
      (ctx.plan.unavailable.map fun value => .note (.registerUnavailable value)) :=
    assembles_map fun value _ => (assembles_cons rfl).mpr assembles_nil
  have hpreloads : Assembles (ctx.plan.preloads.flatMap fun x =>
      Sequence.loadConstant x.1 (UInt32.ofNat x.2)) := assembles_flatMap fun x hx =>
    Sequence.assembles_loadConstant (hctx.general (hctx.plan.mem_registers_of_preload hx)) _
  have hsave : (Sequence.save saved true).Assembles :=
    assembles_emit.mpr ⟨⟨_, rfl⟩, assembles_emit.mpr ⟨⟨_, rfl⟩, assembles_nil⟩⟩
  have hrestore : (Sequence.restoreAndReturn saved true).Assembles :=
    assembles_emit.mpr ⟨⟨_, rfl⟩, assembles_emit.mpr ⟨⟨_, rfl⟩, assembles_nil⟩⟩
  simp only [script, assembles_append, hsave, hnotes, hpreloads, hctx.assembles_tiles harranges,
    hrestore, and_self]

end Loops

end HeliumKernels.Gemm.Context
