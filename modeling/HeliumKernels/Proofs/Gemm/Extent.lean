/-
  HeliumKernels.Proofs.Gemm.Extent

  Labels and lengths of the pieces of a kernel.  A tile has no label but that
  of its own loop, and the number of its directives is bounded by a constant,
  whatever the shape.
-/
import HeliumKernels.Gemm.Kernel
import HeliumKernels.Proofs.Gemm.Tile

namespace HeliumKernels.Gemm.Context

open Script Role

variable {ctx : Context} {layout : Layout} {t : Tile}

/-! ## Labels -/

@[simp] theorem straight_columnBases : (ctx.columnBases t).Straight := by
  refine straight_flatMap fun j _ => ?_
  cases ctx.plan.cColumn j <;> simp

@[simp] theorem straight_rebuildColumns : (ctx.rebuildColumns t).Straight := by
  refine straight_flatMap fun j _ => ?_
  cases ctx.plan.cColumn j <;> simp

@[simp] theorem straight_transferC (access : Access) : (ctx.transferC t access).Straight := by
  refine straight_append.mpr ⟨straight_flatMap fun j _ => straight_map fun i _ => rfl, ?_⟩
  split
  · exact straight_nil
  · exact straight_emit.mpr (straight_map fun j _ => rfl)

@[simp] theorem straight_advanceA : ctx.advanceA.Straight := by
  unfold advanceA
  split <;> simp

@[simp] theorem straight_loadA (post : Option Nat) : (loadA t post).Straight := by
  refine straight_flatMap fun i _ => straight_append.mpr ⟨?_, ?_⟩
  · split <;> simp
  · split <;> simp

@[simp] theorem straight_loadB (j : Nat) : (ctx.loadB j).Straight := by
  unfold loadB
  cases ctx.plan.bStride <;> simp

@[simp] theorem straight_loadFirstB (advance : Bool) : Straight [loadFirstB advance] := by
  cases advance <;> simp [loadFirstB]

@[simp] theorem straight_multiplyAdds : (multiplyAdds t).Straight :=
  straight_flatMap fun _ _ => straight_map fun _ _ => rfl

@[simp] theorem straight_kStep (advance : Bool) : (ctx.kStep t advance).Straight := by
  have hrow : Straight (t.laterColumns.flatMap ctx.loadB) :=
    straight_flatMap fun j _ => straight_loadB j
  have hmove : Straight (if (advance && (ctx.postIndex? advance).isNone) = true then ctx.advanceA
      else []) := by
    split <;> simp
  simp only [kStep, straight_append, straight_loadA, hmove, hrow, straight_loadFirstB,
    straight_multiplyAdds, and_self]

@[simp] theorem straight_tailPredicate : (tailPredicate t).Straight := by
  unfold tailPredicate
  split <;> simp

@[simp] theorem straight_compare (index : Reg) (bound : Bound) : (compare index bound).Straight := by
  cases bound <;> simp [compare]

@[simp] theorem labels_kStep (advance : Bool) : (ctx.kStep t advance).labels = [] :=
  (straight_kStep advance).labels_eq_nil

@[simp] theorem labels_compare (index : Reg) (bound : Bound) :
    (compare index bound).labels = [] :=
  (straight_compare index bound).labels_eq_nil

theorem labels_kLoop {label : Label} (h : label ∈ (ctx.kLoop t).labels) : label = depth := by
  unfold kLoop at h
  split at h
  · exact absurd h List.not_mem_nil
  · simpa using h

theorem labels_microkernel {label : Label} (h : label ∈ (ctx.microkernel t).labels) :
    label = depth := by
  have hlast : Straight (if ctx.shape.k < 2 then [] else ctx.kStep t false) := by
    split <;> simp
  simp only [microkernel, labels_append, straight_columnBases.labels_eq_nil, labels_emit, labels_nil,
    straight_tailPredicate.labels_eq_nil, (straight_transferC _).labels_eq_nil,
    labels_kStep, hlast.labels_eq_nil, straight_rebuildColumns.labels_eq_nil, List.append_nil,
    List.nil_append] at h
  exact labels_kLoop h

theorem labels_rowLoop {tileM nt : Nat} {label : Label} (h : label ∈ (ctx.rowLoop tileM nt).labels) :
    label = depth ∨ label = rows := by
  simp only [rowLoop, labels_append, Sequence.labels_loadConstant, Sequence.labels_addConstant,
    labels_mark, labels_nil, labels_compare, labels_branchTo, List.append_nil, List.nil_append,
    List.mem_append, List.mem_singleton] at h
  rcases h with ((rfl | h) | rfl) | h
  · exact .inr rfl
  · exact .inl (labels_microkernel h)
  · exact .inr rfl
  · split at h
    · exact absurd h List.not_mem_nil
    · exact .inl (labels_microkernel h)

theorem labels_columnBlock {tileM : Option Nat} {nt : Nat} {label : Label}
    (h : label ∈ (ctx.columnBlock tileM nt).labels) : label = depth ∨ label = rows := by
  cases tileM with
  | none => exact .inl (labels_microkernel h)
  | some tileM => exact labels_rowLoop h

/-! ## Lengths -/

theorem length_flatMap_le {α : Type} {xs : List α} {f : α → Script} {n : Nat}
    (h : ∀ x ∈ xs, (f x).length ≤ n) : (xs.flatMap f).length ≤ xs.length * n := by
  induction xs with
  | nil => simp
  | cons x xs ih =>
    have hx := h x List.mem_cons_self
    have hxs := ih fun y hy => h y (List.mem_cons_of_mem x hy)
    rw [List.flatMap_cons, List.length_append, List.length_cons, Nat.succ_mul]
    omega

variable (ctx)

section Tile

variable (hvectors : t.vectors ≤ 4) (hcolumns : t.nt ≤ 3)

include hcolumns

theorem length_laterColumns : t.laterColumns.length ≤ 2 := by
  simp only [Tile.laterColumns, List.length_range']
  omega

theorem length_columnBases : (ctx.columnBases t).length ≤ 6 := by
  have hlater := length_laterColumns hcolumns
  refine Nat.le_trans (length_flatMap_le (n := 3) fun j _ => ?_) (by omega)
  split
  · exact Nat.zero_le _
  · exact Sequence.length_addConstant _ _ _ _
  · exact Sequence.length_addConstant _ _ _ _

theorem length_rebuildColumns : (ctx.rebuildColumns t).length ≤ 6 := by
  have hlater := length_laterColumns hcolumns
  refine Nat.le_trans (length_flatMap_le (n := 3) fun j _ => ?_) (by omega)
  split
  · exact Nat.zero_le _
  · exact Nat.zero_le _
  · exact Sequence.length_addConstant _ _ _ _

theorem length_loadRow : (t.laterColumns.flatMap ctx.loadB).length ≤ 8 := by
  have hlater := length_laterColumns hcolumns
  refine Nat.le_trans (length_flatMap_le (n := 4) fun j _ => ?_) (by omega)
  unfold loadB
  cases ctx.plan.bStride with
  | offset bytes => simp
  | register rm => simp
  | scratch bytes =>
    have := Sequence.length_loadConstant (bScalar j) (UInt32.ofNat (ctx.bOffset j))
    simp only [List.length_append, List.length_cons, List.length_nil]
    omega

include hvectors

theorem length_transferC (access : Access) : (ctx.transferC t access).length ≤ 16 := by
  have hfull : ∀ j ∈ List.range t.nt,
      (((List.range t.vectors).filter fun i => !t.isPartial i).map fun i =>
        ctx.accessC t access i j).length ≤ 4 := by
    intro j _
    rw [List.length_map]
    exact Nat.le_trans (List.length_filter_le _ _) (by simpa using hvectors)
  have := length_flatMap_le hfull
  simp only [transferC, List.length_append, List.length_range] at this ⊢
  split
  · simp only [List.length_nil]
    omega
  · simp only [List.length_cons, List.length_map, List.length_range]
    omega

theorem length_multiplyAdds : (multiplyAdds t).length ≤ 12 := by
  have hrow : ∀ j ∈ List.range t.nt, ((List.range t.vectors).map fun i =>
      Directive.emit (.vfmaScalar (t.acc i j) (Tile.a i) (bScalar j))).length ≤ 4 := by
    intro j _
    simpa using hvectors
  have := length_flatMap_le hrow
  simp only [multiplyAdds, List.length_range] at this ⊢
  omega

omit hcolumns in
theorem length_loadA (post : Option Nat) : (loadA t post).length ≤ 8 := by
  refine Nat.le_trans (length_flatMap_le (n := 2) fun i _ => ?_) ?_
  · rw [List.length_append]
    split <;> split <;> simp
  · simp only [List.length_reverse, List.length_range]
    omega

omit hcolumns hvectors in
theorem length_advanceA : ctx.advanceA.length ≤ 3 := by
  unfold advanceA
  cases ctx.plan.aStride with
  | scratch bytes =>
    have := Sequence.length_loadConstant (bScalar 0) (UInt32.ofNat bytes)
    simp only [List.length_append, List.length_cons, List.length_nil]
    omega
  | _ => simp

theorem length_kStep (advance : Bool) : (ctx.kStep t advance).length ≤ 32 := by
  have hloadA := length_loadA hvectors (ctx.postIndex? advance)
  have hrow := length_loadRow ctx hcolumns
  have hproducts := length_multiplyAdds hvectors hcolumns
  have hmove : (if (advance && (ctx.postIndex? advance).isNone) = true then ctx.advanceA
      else []).length ≤ 3 := by
    split
    · exact length_advanceA ctx
    · exact Nat.zero_le _
  simp only [kStep, List.length_append, List.length_cons, List.length_nil]
  omega

theorem length_microkernel : (ctx.microkernel t).length ≤ 149 := by
  have hbases := length_columnBases ctx hcolumns
  have hrebuild := length_rebuildColumns ctx hcolumns
  have htransfer := fun access => length_transferC ctx hvectors hcolumns access
  have hload := htransfer .load
  have hstore := htransfer .store
  have hstep := fun advance => length_kStep ctx hvectors hcolumns advance
  have hfirst := hstep (1 < ctx.shape.k)
  have hloop : (ctx.kLoop t).length ≤ 37 := by
    have hround := hstep true
    have hcount := Sequence.length_loadConstant .lr (UInt32.ofNat (ctx.shape.k - 2))
    unfold kLoop
    split
    · exact Nat.zero_le _
    · simp only [List.length_append, List.length_cons, List.length_nil]
      omega
  have hlast : (if ctx.shape.k < 2 then [] else ctx.kStep t false).length ≤ 32 := by
    split
    · exact Nat.zero_le _
    · exact hstep false
  have htail : (tailPredicate t).length ≤ 2 := by
    unfold tailPredicate
    split <;> simp
  simp only [microkernel, List.length_append, List.length_cons, List.length_nil]
  omega

end Tile

theorem length_compare (index : Reg) (bound : Bound) : (compare index bound).length ≤ 3 := by
  cases bound with
  | scratch value =>
    have := Sequence.length_loadConstant aWalk (UInt32.ofNat value)
    simp only [compare, List.length_append, List.length_cons, List.length_nil]
    omega
  | _ => simp [compare]

theorem length_rowLoop {tileM nt : Nat} (htile : 0 < tileM) (hvectors : vectorsOf tileM ≤ 4)
    (hcolumns : nt ≤ 3) : (ctx.rowLoop tileM nt).length ≤ 314 := by
  have hfull := length_microkernel ctx (t := ⟨tileM, nt⟩) hvectors hcolumns
  have hrest : (if ctx.shape.m % tileM = 0 then []
      else ctx.microkernel ⟨ctx.shape.m % tileM, nt⟩).length ≤ 149 := by
    split
    · exact Nat.zero_le _
    · exact length_microkernel ctx
        (Nat.le_trans (vectorsOf_mono (Nat.le_of_lt (Nat.mod_lt _ htile))) hvectors) hcolumns
  have hindex := Sequence.length_loadConstant mIndex 0
  have hadd := Sequence.length_addConstant
  have hcompare := length_compare mIndex ctx.plan.mBound
  have ha := hadd aTile aTile (tileM * 4 : Nat) aWalk
  have hc := hadd cTile cTile (tileM * 4 : Nat) aWalk
  have hm := hadd mIndex mIndex tileM aWalk
  simp only [rowLoop, List.length_append, List.length_cons, List.length_nil]
  omega

theorem length_columnLoop {tileM : Option Nat} {tileN : Nat} (hpos : 0 < tileN)
    (hcolumns : tileN ≤ 3) (hblock : ∀ nt ≤ 3, (ctx.columnBlock tileM nt).length ≤ 314) :
    (ctx.columnLoop tileM tileN).length ≤ 647 := by
  have hfull := hblock tileN hcolumns
  have hrest : (if ctx.shape.n % tileN = 0 then []
      else ctx.columnBlock tileM (ctx.shape.n % tileN)).length ≤ 314 := by
    split
    · exact Nat.zero_le _
    · have := Nat.mod_lt ctx.shape.n hpos
      exact hblock _ (by omega)
  have hindex := Sequence.length_loadConstant nIndex 0
  have hadd := Sequence.length_addConstant
  have hcompare := length_compare nIndex ctx.plan.nBound
  have ha := hadd aTile aTile (-ctx.rewind tileM) aWalk
  have hb := hadd bTile bTile (tileN * ctx.shape.ldb * 4 : Nat) aWalk
  have hc := hadd cTile cTile ((tileN * ctx.shape.ldc * 4 : Nat) - ctx.rewind tileM) aWalk
  have hn := hadd nIndex nIndex tileN aWalk
  simp only [columnLoop, List.length_append, List.length_cons, List.length_nil]
  omega

/-- Whatever the regime, the tiles take a bounded number of directives. -/
theorem length_tiles {regime : Regime} (harranges : regime.Arranges ctx.shape layout)
    (hlayout : layout.Fits) : (ctx.tiles regime).length ≤ 647 := by
  have hthree := hlayout.maxTileN_le
  -- two registers at least for each vector, one of `A` and one accumulator
  have hvectors : vectorsOf layout.maxTileM ≤ 4 := by
    have := Nat.mul_le_mul_left (vectorsOf layout.maxTileM)
      (show 2 ≤ layout.maxTileN + 1 by have := hlayout.maxTileN_pos; omega)
    have := hlayout.budget
    omega
  cases harranges with
  | single =>
    exact Nat.le_trans (length_microkernel ctx hvectors hthree) (by decide)
  | mLoop hpos =>
    exact Nat.le_trans (length_rowLoop ctx hpos hvectors hthree) (by decide)
  | nLoop hpos =>
    exact length_columnLoop ctx hpos hthree fun nt hnt =>
      Nat.le_trans (length_microkernel ctx hvectors hnt) (by decide)
  | nested hposM hleM hposN =>
    exact length_columnLoop ctx hposN hthree fun nt hnt => length_rowLoop ctx hposM hvectors hnt

end HeliumKernels.Gemm.Context
