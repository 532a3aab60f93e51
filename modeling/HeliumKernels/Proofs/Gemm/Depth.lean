/-
  HeliumKernels.Proofs.Gemm.Depth

  The steps of the inner dimension.  A step loads a slice of `A` and a row of
  `B` and adds their products to the accumulators; where a next step follows
  it moves both walks on.  The loop over all steps therefore leaves in each
  accumulator the sum in the order of the inner dimension.
-/
import HeliumKernels.Proofs.Gemm.Columns

namespace HeliumKernels.Gemm

open Role Machine

/-- The slice of `A` holds the elements of a column. -/
def Tile.Slices (t : Tile) (x : Nat → UInt32) (m : Machine) : Prop :=
  ∀ i < t.vectors, ∀ l : Lane, 4 * i + l.val < t.mt → m.lane (Tile.a i) l = x (4 * i + l.val)

namespace Context

variable {ctx : Context} {layout : Layout} {t : Tile} {mulAdd : MulAdd} {m m' : Machine}

/-! ## The slice of `A` -/

/-- One access, in a predication block of its own where the vector is partial. -/
theorem achieves_guarded (h : m.Plain) (hmask : t.Predicated m) {i : Nat} {d : Directive}
    {touch : Touch} {Q : Machine → Prop}
    (hstep : ∀ m₁, Frame { block := True } m m₁ → m₁.Leaves (t.mask i) 0 →
      Achieves mulAdd [d] touch.blocked m₁ fun m' => Q m' ∧ m'.vptRemaining = 0) :
    Achieves mulAdd ((if t.isPartial i then [.emit (.vpst 1)] else []) ++ [d]) touch m Q := by
  -- the access uses up its block, so none is pending behind it
  suffices hmain : Achieves mulAdd ((if t.isPartial i then [.emit (.vpst 1)] else []) ++ [d])
      touch.blocked m fun m' => Q m' ∧ m'.vptRemaining = 0 by
    exact (hmain.unblock fun m' hm' => hm'.2.trans h.block.symm).imp fun _ _ hm' => hm'.1
  by_cases hpartial : t.isPartial i = true
  · rw [if_pos hpartial]
    refine (achieves_vpst h (by decide) (by decide)).seq (fun m₁ hframe hblock => ?_)
      (Touch.block_within trivial)
    refine hstep m₁ hframe ?_
    rw [hmask.mask_eq hpartial, ← hframe.predicate id]
    exact masks_of_block hblock (hframe.tail.trans h.tail)
  · rw [if_neg hpartial, List.nil_append]
    refine hstep m (.refl _ m) ?_
    rw [Tile.mask_of_full (by simpa using hpartial)]
    exact leaves_of_plain h

theorem laneAddress_vector (walk : UInt32) (i : Nat) (l : Lane) :
    laneAddress (walk + UInt32.ofNat (16 * i)) l = wordAddress walk (4 * i + l.val) := by
  apply UInt32.toNat.inj
  simp only [laneAddress, wordAddress, UInt32.toNat_add, UInt32.toNat_ofNat']
  omega

theorem loadA_eq (hpos : 0 < t.vectors) (post : Option Nat) :
    loadA t post =
      (List.range' 1 (t.vectors - 1)).reverse.flatMap (fun i =>
        (if t.isPartial i then [.emit (.vpst 1)] else []) ++
          [.emit (.vecMem .load (Tile.a i) aWalk (16 * i : Nat) .offset)]) ++
      ((if t.isPartial 0 then [.emit (.vpst 1)] else []) ++
        [.emit (match post with
          | some bytes => .vecMem .load (Tile.a 0) aWalk bytes .postIndex
          | none => .vecMem .load (Tile.a 0) aWalk (16 * 0 : Nat) .offset)]) := by
  obtain ⟨n, hn⟩ := Nat.exists_eq_succ_of_ne_zero (Nat.pos_iff_ne_zero.mp hpos)
  unfold loadA
  rw [hn, List.range_eq_range', List.range'_succ, List.reverse_cons, List.flatMap_append,
    List.flatMap_singleton]
  -- only the first vector, which is loaded last, moves the walk
  congr 1
  · simp only [Nat.succ_eq_add_one, Nat.add_sub_cancel, List.flatMap_def]
    refine congrArg List.flatten (List.map_congr_left fun i hi => ?_)
    obtain ⟨hi, -⟩ := List.mem_range'_1.mp (List.mem_reverse.mp hi)
    obtain ⟨i, rfl⟩ := Nat.exists_eq_add_of_le' hi
    cases post <;> rfl
  · cases post <;> rfl

section LoadA

variable (hlayout : layout.Fits) (ht : t.Fits ctx.shape layout) (h : m.Plain)
  (hmask : t.Predicated m) {x : Nat → UInt32}
  (hread : ∀ i < t.mt, m.memory.read (wordAddress (m.reg aWalk) i) = .ok (x i))

include ht h hmask hread

theorem achieves_loadVector_post {bytes : Nat} (hbytes : bytes ≤ 508) (haligned : bytes % 4 = 0) :
    Achieves mulAdd ((if t.isPartial 0 then [.emit (.vpst 1)] else []) ++
      [.emit (.vecMem .load (Tile.a 0) aWalk bytes .postIndex)])
      { reg := (· = aWalk), vec := (· = Tile.a 0) } m
      fun m' => (∀ l : Lane, 4 * 0 + l.val < t.mt → m'.lane (Tile.a 0) l = x (4 * 0 + l.val)) ∧
        m'.reg aWalk = m.reg aWalk + UInt32.ofNat bytes := by
  refine achieves_guarded h hmask fun m₁ hframe hleaves => ?_
  refine (achieves_vecLoad_post hleaves _ (by decide) hbytes haligned fun l hl => ?_).imp
    fun m' _ hm' => ⟨⟨fun l hl => hm'.1 l ((Tile.mask_iff ht.vectors_pos l).mpr hl), ?_⟩, hm'.2.1⟩
  · have hlane := laneAddress_vector (m₁.reg aWalk) 0 l
    rw [Nat.mul_zero, show UInt32.ofNat 0 = 0 from rfl, UInt32.add_zero] at hlane
    rw [hlane, hframe.reg aWalk id, hframe.memory.read_eq id]
    exact hread _ ((Tile.mask_iff ht.vectors_pos l).mp hl)
  · rw [hm'.2.2, hframe.reg aWalk id]

include hlayout

theorem achieves_loadVector {i : Nat} (hi : i < t.vectors) :
    Achieves mulAdd ((if t.isPartial i then [.emit (.vpst 1)] else []) ++
      [.emit (.vecMem .load (Tile.a i) aWalk (16 * i : Nat) .offset)])
      (Touch.vecs (· = Tile.a i)) m
      fun m' => ∀ l : Lane, 4 * i + l.val < t.mt → m'.lane (Tile.a i) l = x (4 * i + l.val) := by
  have hvectors := ht.vectors_le hlayout
  refine achieves_guarded h hmask fun m₁ hframe hleaves => ?_
  refine (achieves_vecLoad hleaves _ (by decide) (by omega) (by omega) fun l hl => ?_).imp
    fun m' _ hm' => ⟨fun l hl => hm'.1 l ((Tile.mask_iff hi l).mpr hl), hm'.2⟩
  rw [laneAddress_vector, hframe.reg aWalk id, hframe.memory.read_eq id]
  exact hread _ ((Tile.mask_iff hi l).mp hl)

/-- Vectors after the first, last one first. -/
theorem achieves_loadLater :
    Achieves mulAdd ((List.range' 1 (t.vectors - 1)).reverse.flatMap fun i =>
        (if t.isPartial i then [.emit (.vpst 1)] else []) ++
          [.emit (.vecMem .load (Tile.a i) aWalk (16 * i : Nat) .offset)])
      (Touch.vecs fun q => ∃ i, 1 ≤ i ∧ i < t.vectors ∧ q = Tile.a i) m
      fun m' => ∀ i, 1 ≤ i → i < t.vectors → ∀ l : Lane, 4 * i + l.val < t.mt →
        m'.lane (Tile.a i) l = x (4 * i + l.val) := by
  let later := (List.range' 1 (t.vectors - 1)).reverse
  have hmem : ∀ i, i ∈ later ↔ 1 ≤ i ∧ i < t.vectors := by
    intro i
    simp only [later, List.mem_reverse, List.mem_range'_1]
    omega
  have hall : Achieves mulAdd (later.flatMap fun i =>
        (if t.isPartial i then [.emit (.vpst 1)] else []) ++
          [.emit (.vecMem .load (Tile.a i) aWalk (16 * i : Nat) .offset)])
      (Touch.union (· ∈ later) fun i => Touch.vecs (· = Tile.a i)) m
      fun m' => ∀ i ∈ later, ∀ l : Lane, 4 * i + l.val < t.mt →
        m'.lane (Tile.a i) l = x (4 * i + l.val) := by
    have hnodup : (List.range' 1 (t.vectors - 1)).Nodup := List.nodup_range'
    refine Achieves.each (List.pairwise_reverse.mpr (hnodup.imp Ne.symm))
      (fun i hi m₁ hframe => ?_) (fun i hi m₁ m₂ hframe hP l hl => ?_)
    · refine achieves_loadVector hlayout ht (hframe.plain (fun ⟨_, _, hb⟩ => hb) h) ?_ ?_
        ((hmem i).mp hi).2
      · intro htail
        rw [hframe.predicate fun ⟨_, _, hp⟩ => hp]
        exact hmask htail
      · intro i hi
        rw [hframe.reg aWalk fun ⟨_, _, hr⟩ => hr, hframe.memory.read_eq fun ⟨_, _, ha⟩ => ha]
        exact hread i hi
    · rw [hframe.lane _ l, hP l hl]
      rintro ⟨j, ⟨hj, hne⟩, heq⟩
      exact hne (Tile.a_injective ht hlayout ((hmem i).mp hi).2 ((hmem j).mp hj).2 heq).symm
  exact hall.mono (Touch.union_within fun i hi => Touch.vecs_within fun q hq =>
      ⟨i, ((hmem i).mp hi).1, ((hmem i).mp hi).2, hq⟩)
    fun m' _ hP i hi hi' => hP i ((hmem i).mpr ⟨hi, hi'⟩)

/-- The whole slice; the walk moves with the first vector. -/
theorem achieves_loadA {post : Option Nat} (hpost : ∀ b ∈ post, b ≤ 508 ∧ b % 4 = 0) :
    Achieves mulAdd (loadA t post)
      { reg := fun r => post.isSome = true ∧ r = aWalk
        vec := fun q => ∃ i < t.vectors, q = Tile.a i } m
      fun m' => t.Slices x m' ∧ ∀ b ∈ post, m'.reg aWalk = m.reg aWalk + UInt32.ofNat b := by
  have hpos := ht.vectors_pos
  rw [loadA_eq hpos]
  refine (achieves_loadLater hlayout ht h hmask hread).seq (fun m₁ hframe hlater => ?_)
    (Touch.vecs_within fun q ⟨i, _, hi, hq⟩ => ⟨i, hi, hq⟩)
  have hplain := hframe.plain id h
  have hmask₁ : t.Predicated m₁ := fun htail => (hframe.predicate id).trans (hmask htail)
  have hread₁ : ∀ i < t.mt, m₁.memory.read (wordAddress (m₁.reg aWalk) i) = .ok (x i) := by
    intro i hi
    rw [hframe.reg aWalk id, hframe.memory.read_eq id]
    exact hread i hi
  -- the first vector joins the others, which the last access leaves alone
  have hslices : ∀ {touch : Touch} {m₂ : Machine}, Frame touch m₁ m₂ →
      (∀ q, touch.vec q → q = Tile.a 0) →
      (∀ l : Lane, 4 * 0 + l.val < t.mt → m₂.lane (Tile.a 0) l = x (4 * 0 + l.val)) →
      t.Slices x m₂ := by
    intro touch m₂ hframe₂ hvec hfirst i hi l hl
    by_cases hzero : i = 0
    · subst hzero
      exact hfirst l hl
    · rw [hframe₂.lane _ l fun hq => hzero (Tile.a_injective ht hlayout hi hpos (hvec _ hq))]
      exact hlater i (by omega) hi l hl
  cases post with
  | none =>
    refine (achieves_loadVector hlayout ht hplain hmask₁ hread₁ hpos).mono
      (Touch.vecs_within fun q hq => ⟨0, hpos, hq⟩)
      fun m₂ hframe₂ hfirst => ⟨hslices hframe₂ (fun _ => id) hfirst, nofun⟩
  | some bytes =>
    obtain ⟨hbytes, haligned⟩ := hpost bytes rfl
    refine (achieves_loadVector_post ht hplain hmask₁ hread₁ hbytes haligned).mono
      ⟨fun r hr => ⟨rfl, hr⟩, fun q hq => ⟨0, hpos, hq⟩, id, id, fun _ => id⟩
      fun m₂ hframe₂ hm₂ => ⟨hslices hframe₂ (fun _ => id) hm₂.1, ?_⟩
    intro b hb
    obtain rfl := Option.some.inj hb
    rw [hm₂.2, hframe.reg aWalk id]

end LoadA

/-! ## Moving the walk through `A` -/

theorem add_ofNat_words (x : UInt32) (n : Nat) : x + UInt32.ofNat (n * 4) = wordAddress x n := by
  rw [wordAddress, Nat.mul_comm]

theorem ofNat_le {n bound : Nat} (h : n ≤ bound) (hbound : bound < 2 ^ 32) :
    UInt32.ofNat n ≤ UInt32.ofNat bound := by
  rw [UInt32.le_iff_toNat_le, UInt32.toNat_ofNat', UInt32.toNat_ofNat']
  omega

theorem Fits.achieves_advanceA (hctx : ctx.Fits layout) (h : m.Plain) (hpre : ctx.Preloaded m) :
    Achieves mulAdd ctx.advanceA (Touch.regs fun r => r = aWalk ∨ r = bScalar 0) m
      fun m' => m'.reg aWalk = wordAddress (m.reg aWalk) ctx.shape.lda := by
  have hfits := hctx.plan.aStride
  -- the three immediate forms differ in their encoding only
  have hwalk : ∀ {form : AddSubImmForm} {bytes : Nat}, bytes = ctx.shape.lda * 4 →
      (∃ word, (Instruction.addSubImm .add aWalk aWalk (UInt32.ofNat bytes) form).assemble =
        .ok word) →
      Achieves mulAdd [.emit (.addSubImm .add aWalk aWalk (UInt32.ofNat bytes) form)]
        (Touch.regs fun r => r = aWalk ∨ r = bScalar 0) m
        fun m' => m'.reg aWalk = wordAddress (m.reg aWalk) ctx.shape.lda := by
    intro form bytes hbytes hword
    refine (achieves_addSubImm h.block (by decide) hword).mono (Touch.regs_within fun _ => Or.inl)
      fun m' _ hreg => ?_
    rw [hreg, addSub_add, hbytes, add_ofNat_words]
  unfold advanceA
  cases hstride : ctx.plan.aStride with
  | postIndex bytes =>
    rw [hstride] at hfits
    exact hwalk hfits.1 (Instruction.assembles_addSubImm_plain .add (by decide) (by decide)
      (ofNat_le (Nat.le_trans hfits.2 (by decide)) (by decide)))
  | plain bytes =>
    rw [hstride] at hfits
    exact hwalk hfits.1 (Instruction.assembles_addSubImm_plain .add (by decide) (by decide)
      (ofNat_le hfits.2 (by decide)))
  | modified bytes =>
    rw [hstride] at hfits
    exact hwalk hfits.1 (Instruction.assembles_addSubImm_modified .add (by decide) (by decide)
      hfits.2)
  | register rm =>
    have hmem : (rm, ctx.shape.lda * 4) ∈ ctx.plan.preloads := by
      simp [hctx.plan.preloads, hstride, AStride.regs]
    have hgeneral := hctx.plan.general hctx.layout (hctx.plan.mem_registers_of_preload hmem)
    refine (achieves_addSubReg h.block (by decide) hgeneral.2
      (Instruction.assembles_addReg_acc (by decide) hgeneral.2)).mono
      (Touch.regs_within fun _ => Or.inl) fun m' _ hreg => ?_
    rw [hreg, addSub_add, hpre _ hmem, add_ofNat_words]
  | scratch bytes =>
    rw [hstride] at hfits
    refine (Sequence.achieves_loadConstant h.block (bScalar_general 0) (UInt32.ofNat bytes)).seq
      (fun m₁ hframe hvalue => ?_) (Touch.regs_within fun _ => Or.inr)
    refine (achieves_addSubReg (hframe.plain id h).block (by decide) (by decide)
      (Instruction.assembles_addReg_acc (by decide) (by decide))).mono
      (Touch.regs_within fun _ => Or.inl) fun m' _ hreg => ?_
    rw [hreg, addSub_add, hvalue, hframe.reg aWalk (show ¬aWalk = bScalar 0 by decide),
      show bytes = ctx.shape.lda * 4 from hfits, add_ofNat_words]

theorem Fits.postIndex?_eq_some (hctx : ctx.Fits layout) {advance : Bool} {bytes : Nat}
    (h : ctx.postIndex? advance = some bytes) :
    bytes = ctx.shape.lda * 4 ∧ bytes ≤ 508 := by
  have hfits := hctx.plan.aStride
  unfold postIndex? at h
  split at h
  · rename_i hstride
    rw [hstride] at hfits
    exact Option.some.inj h ▸ hfits
  · exact nomatch h

/-- Loading a slice and moving on, in whichever way the stride asks for. -/
theorem Fits.achieves_walkA (hctx : ctx.Fits layout) (ht : t.Fits ctx.shape layout) (h : m.Plain)
    (hmask : t.Predicated m) (hpre : ctx.Preloaded m) {x : Nat → UInt32}
    (hread : ∀ i < t.mt, m.memory.read (wordAddress (m.reg aWalk) i) = .ok (x i))
    (advance : Bool) :
    Achieves mulAdd (loadA t (ctx.postIndex? advance) ++
        if advance && (ctx.postIndex? advance).isNone then ctx.advanceA else [])
      { reg := fun r => r = aWalk ∨ r = bScalar 0, vec := fun q => ∃ i < t.vectors, q = Tile.a i } m
      fun m' => t.Slices x m' ∧
        (advance = true → m'.reg aWalk = wordAddress (m.reg aWalk) ctx.shape.lda) := by
  have hload : Achieves mulAdd (loadA t (ctx.postIndex? advance)) _ m _ :=
    achieves_loadA hctx.layout ht h hmask hread fun b hb => by
      obtain ⟨rfl, hle⟩ := hctx.postIndex?_eq_some hb
      exact ⟨hle, Nat.mul_mod_left _ _⟩
  cases hpost : ctx.postIndex? advance with
  | some bytes =>
    rw [hpost] at hload
    rw [Option.isNone_some, Bool.and_false, if_neg (by decide), List.append_nil]
    refine hload.mono ⟨fun r hr => .inl hr.2, fun _ => id, id, id, fun _ => id⟩
      fun m' _ hm' => ⟨hm'.1, fun _ => ?_⟩
    rw [hm'.2 bytes rfl, (hctx.postIndex?_eq_some hpost).1, add_ofNat_words]
  | none =>
    rw [hpost] at hload
    refine hload.seq (fun m₁ hframe hm₁ => ?_)
      ⟨fun r hr => .inl hr.2, fun _ => id, id, id, fun _ => id⟩
    cases advance with
    | false => exact .nil ⟨hm₁.1, nofun⟩
    | true =>
      have hsame : ∀ r, m₁.reg r = m.reg r := fun r => hframe.reg r fun hr => nomatch hr.1
      have hpre₁ : ctx.Preloaded m₁ := fun x hx => (hsame x.1).trans (hpre x hx)
      refine (hctx.achieves_advanceA (hframe.plain id h) hpre₁).mono (Touch.regs_within fun _ => id)
        fun m₂ hframe₂ hreg => ⟨fun i hi l hl => ?_, fun _ => ?_⟩
      · rw [hframe₂.lane _ l id]
        exact hm₁.1 i hi l hl
      · rw [hreg, hsame]

/-! ## The row of `B` -/

/-- The stride shifted for column one or two. -/
theorem shiftLeft_columns {ldb j : Nat} (hj : 1 ≤ j) (hj' : j ≤ 2) :
    UInt32.ofNat (ldb * 4) <<< UInt32.ofNat (j - 1) = UInt32.ofNat (j * ldb * 4) := by
  apply UInt32.toNat.inj
  obtain rfl | rfl : j = 1 ∨ j = 2 := by omega
  all_goals
    simp only [UInt32.toNat_shiftLeft, UInt32.toNat_ofNat', Nat.shiftLeft_eq, Nat.reduceSub,
      Nat.reducePow, Nat.reduceMod]
    omega

/-- Load offsets of the columns are in reach and aligned. -/
theorem Fits.bOffset_reach (hctx : ctx.Fits layout) {j bytes : Nat} (hj : 1 ≤ j)
    (hj' : j < layout.maxTileN) (hstride : ctx.plan.bStride = .offset bytes) :
    ctx.bOffset j ≤ 0xFFF ∧ ctx.bOffset j % 4 = 0 := by
  have hthree := hctx.layout.maxTileN_le
  have hfits := hctx.plan.bStride
  rw [hstride] at hfits
  rw [hctx.bOffset (by rw [hstride]; rfl) j hj (by omega)]
  refine ⟨Nat.le_trans (Nat.mul_le_mul_right _ (by omega)) hfits.2, ?_⟩
  rw [← Nat.mul_assoc, Nat.mul_mod_left]

/-- A load at the offset of a column has an encoding. -/
theorem Fits.assembles_loadOffset (hctx : ctx.Fits layout) {j bytes : Nat} (hj : 1 ≤ j)
    (hj' : j < layout.maxTileN) (hstride : ctx.plan.bStride = .offset bytes) :
    ∃ word, (Instruction.ldrImm (bScalar j) bWalk (ctx.bOffset j) .offset
      (if ctx.bOffset j ≤ 124 then .narrow else .wide12)).assemble = .ok word := by
  obtain ⟨hreach, haligned⟩ := hctx.bOffset_reach hj hj' hstride
  split
  · rename_i hnarrow
    exact Instruction.assembles_ldrImm_narrow (bScalar_isLow j) rfl hnarrow haligned
  · exact Instruction.assembles_ldrImm_wide (bScalar_general j) (by decide) hreach

section LoadB

variable (hctx : ctx.Fits layout) (h : m.Plain) (hpre : ctx.Preloaded m)

include hctx h hpre

/-- The value of a column after the first, however it is reached. -/
theorem Fits.achieves_loadB {j : Nat} (hj : 1 ≤ j) (hj' : j < layout.maxTileN) {value : UInt32}
    (hread : m.memory.read (wordAddress (m.reg bWalk) (j * ctx.shape.ldb)) = .ok value) :
    Achieves mulAdd (ctx.loadB j) (Touch.regs (· = bScalar j)) m
      fun m' => m'.reg (bScalar j) = value := by
  have hthree := hctx.layout.maxTileN_le
  have hbytes : j * (ctx.shape.ldb * 4) = j * ctx.shape.ldb * 4 := (Nat.mul_assoc _ _ _).symm
  unfold loadB
  cases hstride : ctx.plan.bStride with
  | offset bytes =>
    have hoffset := hctx.bOffset (by rw [hstride]; rfl) j hj (by omega)
    have hread' : m.memory.read (m.reg bWalk + UInt32.ofNat (ctx.bOffset j)) = .ok value := by
      rw [hoffset, hbytes, add_ofNat_words, hread]
    exact achieves_ldrImm h (by decide) (hctx.assembles_loadOffset hj hj' hstride) hread'
  | register rm =>
    have hmem : (rm, ctx.shape.ldb * 4) ∈ ctx.plan.preloads := by
      simp [hctx.plan.preloads, hstride, BStride.regs]
    have hgeneral := hctx.plan.general hctx.layout (hctx.plan.mem_registers_of_preload hmem)
    refine achieves_ldrReg h (bScalar_general j) (by decide) hgeneral (by omega) ?_
    rw [hpre _ hmem, shiftLeft_columns hj (by omega), add_ofNat_words, hread]
  | scratch bytes =>
    have hoffset := hctx.bOffset (by rw [hstride]; rfl) j hj (by omega)
    refine (Sequence.achieves_loadConstant h.block (bScalar_general j)
      (UInt32.ofNat (ctx.bOffset j))).seq (fun m₁ hframe₁ hvalue => ?_) (.refl _)
    have hplain₁ := hframe₁.plain id h
    refine Achieves.seq (s := [_]) (achieves_addSubReg hplain₁.block (bScalar_general j).2 (by decide)
      (Instruction.assembles_addReg_acc (bScalar_general j).2 (by decide)))
      (fun m₂ hframe₂ hsum => ?_) (.refl _)
    -- the scalar holds the offset first and the address then, before the value replaces it
    have hread₂ : m₂.memory.read (m₂.reg (bScalar j) + UInt32.ofNat 0) = .ok value := by
      have haddress : m₂.reg (bScalar j) + UInt32.ofNat 0 =
          wordAddress (m.reg bWalk) (j * ctx.shape.ldb) := by
        rw [hsum, addSub_add, hvalue, hframe₁.reg bWalk (bScalar_ne (by decide) j).symm, hoffset,
          hbytes, ← add_ofNat_words, UInt32.add_comm (m.reg bWalk)]
        exact UInt32.add_zero _
      rw [haddress, hframe₂.memory.read_eq id, hframe₁.memory.read_eq id, hread]
    exact achieves_ldrImm (hframe₂.plain id hplain₁) (bScalar_general j).2
      (Instruction.assembles_ldrImm_narrow (bScalar_isLow j) (bScalar_isLow j) (by decide) rfl) hread₂

/-- The values of all columns after the first. -/
theorem Fits.achieves_loadRow (ht : t.Fits ctx.shape layout) {y : Nat → UInt32}
    (hread : ∀ j < t.nt,
      m.memory.read (wordAddress (m.reg bWalk) (j * ctx.shape.ldb)) = .ok (y j)) :
    Achieves mulAdd (t.laterColumns.flatMap ctx.loadB)
      (Touch.regs fun r => ∃ j, 1 ≤ j ∧ j < t.nt ∧ r = bScalar j) m
      fun m' => ∀ j, 1 ≤ j → j < t.nt → m'.reg (bScalar j) = y j := by
  have hthree := ht.nt_le_three hctx.layout
  have hall : Achieves mulAdd (t.laterColumns.flatMap ctx.loadB)
      (Touch.union (· ∈ t.laterColumns) fun j => Touch.regs (· = bScalar j)) m
      fun m' => ∀ j ∈ t.laterColumns, m'.reg (bScalar j) = y j := by
    refine Achieves.each (Tile.nodup_laterColumns t) (fun j hj m₁ hframe => ?_)
      (fun j hj m₁ m₂ hframe hP => ?_)
    · obtain ⟨hj₁, hj₂⟩ := Tile.mem_laterColumns.mp hj
      have hpre₁ : ctx.Preloaded m₁ := hpre.of_frame hctx ht hframe fun r ⟨i, hi, hr⟩ =>
        .inl (.inr (.inr (.inr ⟨i, (Tile.mem_laterColumns.mp hi.1).2, hr⟩)))
      refine hctx.achieves_loadB (hframe.plain (fun ⟨_, _, hb⟩ => hb) h) hpre₁ hj₁
        (Nat.lt_of_lt_of_le hj₂ ht.nt_le) ?_
      rw [hframe.reg bWalk fun ⟨i, _, hr⟩ => bScalar_ne (by decide) i hr.symm,
        hframe.memory.read_eq fun ⟨_, _, ha⟩ => ha]
      exact hread j hj₂
    · rw [hframe.reg (bScalar j), hP]
      rintro ⟨i, ⟨hi, hne⟩, heq⟩
      have hj₂ := (Tile.mem_laterColumns.mp hj).2
      have hi₂ := (Tile.mem_laterColumns.mp hi).2
      exact hne (bScalar_injective (by omega) (by omega) heq).symm
  exact hall.mono (Touch.union_within fun j hj => Touch.regs_within fun r hr =>
      ⟨j, (Tile.mem_laterColumns.mp hj).1, (Tile.mem_laterColumns.mp hj).2, hr⟩)
    fun m' _ hP j hj hj' => hP j (Tile.mem_laterColumns.mpr ⟨hj, hj'⟩)

end LoadB

/-- The value of the first column; the walk moves with it. -/
theorem achieves_loadFirstB (h : m.Plain) {value : UInt32}
    (hread : m.memory.read (m.reg bWalk) = .ok value) (advance : Bool) :
    Achieves mulAdd [loadFirstB advance] (Touch.regs fun r => r = bScalar 0 ∨ r = bWalk) m
      fun m' => m'.reg (bScalar 0) = value ∧
        (advance = true → m'.reg bWalk = wordAddress (m.reg bWalk) 1) := by
  cases advance with
  | true =>
    exact (achieves_ldrImm_post h (bScalar_general 0) (by decide) (by decide) (by decide)
      hread).imp fun m' _ hm' => ⟨hm'.1, fun _ => hm'.2⟩
  | false =>
    have hread₀ : m.memory.read (m.reg bWalk + UInt32.ofNat 0) = .ok value := by
      rw [show UInt32.ofNat 0 = 0 from rfl, UInt32.add_zero, hread]
    exact (achieves_ldrImm h (by decide) (Instruction.assembles_ldrImm_narrow (bScalar_isLow 0) rfl
      (by decide) rfl) hread₀).mono (Touch.regs_within fun _ => Or.inl)
      fun m' _ hm' => ⟨hm', nofun⟩

/-- Loading a row and moving on. -/
theorem Fits.achieves_walkB (hctx : ctx.Fits layout) (ht : t.Fits ctx.shape layout) (h : m.Plain)
    (hpre : ctx.Preloaded m) {y : Nat → UInt32}
    (hread : ∀ j < t.nt,
      m.memory.read (wordAddress (m.reg bWalk) (j * ctx.shape.ldb)) = .ok (y j)) (advance : Bool) :
    Achieves mulAdd (t.laterColumns.flatMap ctx.loadB ++ [loadFirstB advance])
      (Touch.regs fun r => r = bWalk ∨ ∃ j < t.nt, r = bScalar j) m
      fun m' => (∀ j < t.nt, m'.reg (bScalar j) = y j) ∧
        (advance = true → m'.reg bWalk = wordAddress (m.reg bWalk) 1) := by
  have hthree := ht.nt_le_three hctx.layout
  refine (hctx.achieves_loadRow h hpre ht hread).seq (fun m₁ hframe₁ hlater => ?_)
    (Touch.regs_within fun r ⟨j, _, hj, hr⟩ => .inr ⟨j, hj, hr⟩)
  have hwalk : m₁.reg bWalk = m.reg bWalk :=
    hframe₁.reg bWalk fun ⟨j, _, _, hr⟩ => bScalar_ne (by decide) j hr.symm
  have hfirst := hread 0 ht.nt_pos
  rw [Nat.zero_mul, wordAddress_zero, ← hwalk, ← hframe₁.memory.read_eq id] at hfirst
  -- the walk moves with the first column, which is therefore loaded last
  refine (achieves_loadFirstB (hframe₁.plain id h) hfirst advance).mono
    (Touch.regs_within ?_) fun m₂ hframe₂ hm₂ => ⟨fun j hj => ?_, hwalk ▸ hm₂.2⟩
  · rintro r (rfl | rfl)
    · exact .inr ⟨0, ht.nt_pos, rfl⟩
    · exact .inl rfl
  · by_cases hzero : j = 0
    · rw [hzero]
      exact hm₂.1
    · rw [hframe₂.reg (bScalar j), hlater j (by omega) hj]
      rintro (heq | heq)
      · exact hzero (bScalar_injective (by omega) (by omega) heq)
      · exact bScalar_ne (by decide) j heq

/-! ## Multiply-adds -/

theorem multiplyAdds_eq (t : Tile) : multiplyAdds t = t.cells.flatMap fun x =>
    [.emit (.vfmaScalar (t.acc x.1 x.2) (Tile.a x.1) (bScalar x.2))] := by
  simp only [multiplyAdds, Tile.cells, List.flatMap_assoc, List.flatMap_map]
  simp only [List.map_eq_flatMap]

theorem achieves_multiplyAdds (hlayout : layout.Fits) (ht : t.Fits ctx.shape layout) (h : m.Plain) :
    Achieves mulAdd (multiplyAdds t) (Touch.vecs fun _ => True) m
      fun m' => ∀ x ∈ t.cells, ∀ l, m'.lane (t.acc x.1 x.2) l =
        mulAdd (m.lane (Tile.a x.1) l) (m.reg (bScalar x.2)) (m.lane (t.acc x.1 x.2) l) := by
  rw [multiplyAdds_eq]
  -- each product has an accumulator of its own
  have hothers : ∀ x ∈ t.cells, ¬(Touch.others t.cells
      (fun x => Touch.vecs (· = t.acc x.1 x.2)) x).vec (t.acc x.1 x.2) := by
    rintro x hx ⟨y, ⟨hy, hne⟩, heq⟩
    exact hne (Tile.acc_injective ht hlayout hx hy heq).symm
  have hall : Achieves mulAdd (t.cells.flatMap fun x =>
        [.emit (.vfmaScalar (t.acc x.1 x.2) (Tile.a x.1) (bScalar x.2))])
      (Touch.union (· ∈ t.cells) fun x => Touch.vecs (· = t.acc x.1 x.2)) m
      fun m' => ∀ x ∈ t.cells, ∀ l, m'.lane (t.acc x.1 x.2) l =
        mulAdd (m.lane (Tile.a x.1) l) (m.reg (bScalar x.2)) (m.lane (t.acc x.1 x.2) l) := by
    refine Achieves.each (Tile.nodup_cells t) (fun x hx m₁ hframe => ?_)
      (fun x hx m₁ m₂ hframe hP l => ?_)
    · refine (achieves_vfmaScalar (hframe.plain (fun ⟨_, _, hb⟩ => hb) h) _ _
        (bScalar_general x.2)).imp fun m₂ _ hlanes l => ?_
      rw [hlanes l, hframe.reg _ fun ⟨_, _, hr⟩ => hr, hframe.lane _ l (hothers x hx),
        hframe.lane (Tile.a x.1) l]
      rintro ⟨y, ⟨hy, -⟩, heq⟩
      exact Tile.acc_ne_a ht hlayout hy (Tile.mem_cells.mp hx).1 heq.symm
    · rw [hframe.lane _ l (hothers x hx), hP l]
  exact hall.mono (Touch.union_within fun x _ => Touch.vecs_within fun _ _ => trivial) fun _ _ => id

/-! ## One step -/

/-- The words of `A` and `B` that a tile reads. -/
structure Operands (ctx : Context) (t : Tile) (a b : UInt32) (x y : Nat → Nat → UInt32)
    (memory : Memory) : Prop where
  a : ∀ i < t.mt, ∀ kk < ctx.shape.k,
    memory.read (elementAddress a ctx.shape.lda i kk) = .ok (x i kk)
  b : ∀ kk < ctx.shape.k, ∀ j < t.nt,
    memory.read (elementAddress b ctx.shape.ldb kk j) = .ok (y kk j)

/-- Both walks are at step `kk`. -/
structure Walks (ctx : Context) (a b : UInt32) (kk : Nat) (m : Machine) : Prop where
  a : m.reg aWalk = wordAddress a (kk * ctx.shape.lda)
  b : m.reg bWalk = wordAddress b kk

end Context

/-- The products up to step `kk` added to the elements of a matrix. -/
def sumTo (mulAdd : MulAdd) (x y z : Nat → Nat → UInt32) (kk i j : Nat) : UInt32 :=
  accumulate mulAdd (x i) (fun kk => y kk j) (z i j) kk

/-- What a step may change. -/
def Tile.stepTouch (t : Tile) : Touch :=
  { reg := t.Moves, vec := fun _ => True }

namespace Context

variable {ctx : Context} {layout : Layout} {t : Tile} {mulAdd : MulAdd} {m m' : Machine}
  {a b : UInt32} {x y z : Nat → Nat → UInt32} {kk : Nat}

/-- What all steps rely on. -/
structure Ready (ctx : Context) (t : Tile) (a b : UInt32) (x y : Nat → Nat → UInt32)
    (m : Machine) : Prop where
  plain : m.Plain
  mask : t.Predicated m
  preloaded : ctx.Preloaded m
  operands : ctx.Operands t a b x y m.memory

theorem Ready.of_frame (h : ctx.Ready t a b x y m) (hctx : ctx.Fits layout)
    (ht : t.Fits ctx.shape layout) {touch : Touch} (hframe : Frame touch m m')
    (hreg : ∀ r, touch.reg r → ctx.Uses t r) (hpredicate : ¬touch.predicate)
    (hblock : ¬touch.block) (hmemory : ∀ a, ¬touch.memory a) : ctx.Ready t a b x y m' where
  plain := hframe.plain hblock h.plain
  mask htail := (hframe.predicate hpredicate).trans (h.mask htail)
  preloaded := h.preloaded.of_frame hctx ht hframe hreg
  operands :=
    ⟨fun i hi kk hkk => (hframe.memory.read_eq (hmemory _)).trans (h.operands.a i hi kk hkk),
      fun kk hkk j hj => (hframe.memory.read_eq (hmemory _)).trans (h.operands.b kk hkk j hj)⟩

/-- The state before step `kk`. -/
structure AtStep (ctx : Context) (t : Tile) (mulAdd : MulAdd) (a b : UInt32)
    (x y z : Nat → Nat → UInt32) (kk : Nat) (m : Machine) : Prop where
  walks : ctx.Walks a b kk m
  sum : t.Holds (sumTo mulAdd x y z kk) m

theorem kStep_eq (ctx : Context) (t : Tile) (advance : Bool) :
    ctx.kStep t advance =
      (loadA t (ctx.postIndex? advance) ++
        if advance && (ctx.postIndex? advance).isNone then ctx.advanceA else []) ++
      ((t.laterColumns.flatMap ctx.loadB ++ [loadFirstB advance]) ++ multiplyAdds t) := by
  simp only [kStep, List.append_assoc]

theorem Fits.achieves_kStep (hctx : ctx.Fits layout) (ht : t.Fits ctx.shape layout)
    (h : ctx.Ready t a b x y m) (hkk : kk < ctx.shape.k)
    (hat : ctx.AtStep t mulAdd a b x y z kk m) (advance : Bool) :
    Achieves mulAdd (ctx.kStep t advance) t.stepTouch m
      fun m' => t.Holds (sumTo mulAdd x y z (kk + 1)) m' ∧
        (advance = true → ctx.Walks a b (kk + 1) m') := by
  have hscalar : ∀ j < t.nt, t.Moves (bScalar j) := fun j hj => .inr (.inr ⟨j, hj, rfl⟩)
  have hmoves : ∀ r, (r = aWalk ∨ r = bScalar 0) → t.Moves r := by
    rintro r (rfl | rfl)
    · exact .inl rfl
    · exact hscalar 0 ht.nt_pos
  rw [kStep_eq]
  refine (hctx.achieves_walkA ht h.plain h.mask h.preloaded (x := fun i => x i kk) (fun i hi => ?_)
    advance).seq (fun m₁ hframe₁ hm₁ => ?_) ⟨hmoves, fun _ _ => trivial, id, id, fun _ => id⟩
  · rw [hat.walks.a, ← elementAddress_eq]
    exact h.operands.a i hi kk hkk
  have hready₁ := h.of_frame hctx ht hframe₁ (fun r hr => .inl (.inr (hmoves r hr))) id id fun _ => id
  have hwalk₁ : m₁.reg bWalk = wordAddress b kk :=
    (hframe₁.reg bWalk (show ¬(bWalk = aWalk ∨ bWalk = bScalar 0) by decide)).trans hat.walks.b
  refine (hctx.achieves_walkB ht hready₁.plain hready₁.preloaded (y := fun j => y kk j)
    (fun j hj => ?_) advance).seq (fun m₂ hframe₂ hm₂ => ?_) (Touch.regs_within ?_)
  · rw [hwalk₁, wordAddress_wordAddress]
    exact hready₁.operands.b kk hkk j hj
  · refine (achieves_multiplyAdds hctx.layout ht (hframe₂.plain id hready₁.plain)).mono
      (Touch.vecs_within fun _ _ => trivial)
      fun m₃ hframe₃ hm₃ => ⟨fun x hx l hl => ?_, fun hadvance => ⟨?_, ?_⟩⟩
    · obtain ⟨hi, hj⟩ := Tile.mem_cells.mp hx
      -- the slice and the accumulators are different vector registers
      have hacc : m₁.lane (t.acc x.1 x.2) l = m.lane (t.acc x.1 x.2) l :=
        hframe₁.lane _ l fun ⟨i, hi, heq⟩ => Tile.acc_ne_a ht hctx.layout hx hi heq
      rw [hm₃ x hx l, hframe₂.lane _ l id, hframe₂.lane _ l id, hm₂.1 x.2 hj, hm₁.1 x.1 hi l hl,
        hacc, hat.sum x hx l hl]
      rfl
    · rw [hframe₃.reg _ id, hframe₂.reg aWalk, hm₁.2 hadvance, hat.walks.a, wordAddress_wordAddress,
        Nat.succ_mul]
      rintro (heq | ⟨j, -, heq⟩)
      · exact absurd heq (by decide)
      · exact bScalar_ne (by decide) j heq.symm
    · rw [hframe₃.reg _ id, hm₂.2 hadvance, hwalk₁, wordAddress_wordAddress]
  · rintro r (rfl | ⟨j, hj, rfl⟩)
    · exact .inr (.inl rfl)
    · exact hscalar j hj

end Context

end HeliumKernels.Gemm
