/-
  HeliumKernels.Proofs.Gemm.Kernel

  The whole kernel.  Every accepted tiling and shape has a script, with any
  subset of the register pool.  Between saving and restoring the caller's
  registers it finishes every element of `C`, and it writes nothing but `C`
  and twenty-five words of stack.  The steps it takes fit a counter of eight
  bytes, since `C` fits the address space.
-/
import HeliumKernels.Kernel.Request
import HeliumKernels.Proofs.Gemm.Loops
import HeliumKernels.Proofs.Kernel.Looped

namespace HeliumKernels.Gemm

open Role Machine

/-! ## From shapes to scripts -/

theorem Context.exists_ofPlan {shape : Shape} {layout : Layout} {plan : Plan} {initial : RegSet}
    (hshape : shape.Valid) (hlayout : layout.Fits) (hplan : plan.Fits shape layout initial) :
    ∃ ctx, Context.ofPlan shape plan = .ok ctx ∧ ctx.shape = shape ∧ ctx.plan = plan ∧
      ctx.Planned layout initial := by
  have hmax : Shape.maxDimension = 2 ^ 24 := rfl
  have hldb := hshape.ldb_le
  have hfits := hplan.bStride
  have hmul : ∀ bytes j, bytes = shape.ldb * 4 → j ≤ 2 → Checked.mul j bytes = .ok (j * bytes) := by
    intro bytes j hbytes hj
    refine Checked.mul_eq_ok (Nat.lt_of_le_of_lt (Nat.mul_le_mul hj (Nat.le_of_eq hbytes)) ?_)
    omega
  -- offsets are computed from the stride, except where a register holds it
  have hoffsets : ∀ bytes, bytes = shape.ldb * 4 →
      (∀ j, plan.bOffset j = Checked.mul j bytes) →
      ∃ ctx, Context.ofPlan shape plan = .ok ctx ∧ ctx.shape = shape ∧ ctx.plan = plan ∧
        ctx.Planned layout initial := by
    intro bytes hbytes heq
    refine ⟨⟨shape, plan, 1 * bytes, 2 * bytes⟩, ?_, rfl, rfl, hshape, hplan,
      fun _ j hj hj' => ?_, hlayout⟩
    · rw [Context.ofPlan, heq, heq, hmul _ _ hbytes (by decide), hmul _ _ hbytes (by decide)]
      rfl
    · obtain rfl | rfl : j = 1 ∨ j = 2 := by omega
      · exact congrArg (1 * ·) hbytes
      · exact congrArg (2 * ·) hbytes
  cases hstride : plan.bStride with
  | offset bytes =>
    rw [hstride] at hfits
    exact hoffsets bytes hfits.1 fun j => by rw [Plan.bOffset, hstride]
  | scratch bytes =>
    rw [hstride] at hfits
    exact hoffsets bytes hfits fun j => by rw [Plan.bOffset, hstride]
  | register rm =>
    refine ⟨⟨shape, plan, 0, 0⟩, ?_, rfl, rfl, hshape, hplan, fun hregs => ?_, hlayout⟩
    · simp only [Context.ofPlan, Plan.bOffset, hstride]
      rfl
    · rw [hstride] at hregs
      exact nomatch hregs

/-- The parts of the largest tile can be numbered. -/
theorem Layout.Fits.checkTile_eq {layout : Layout} (h : layout.Fits) :
    layout.checkTile = .ok () := by
  have hthree := h.maxTileN_le
  have hcolumns : ¬bScalars < layout.maxTileN := Nat.not_lt.mpr hthree
  have hbudget := h.budget
  have hvectors : vectorsOf layout.maxTileM ≤ 8 :=
    Nat.le_trans (Nat.le_mul_of_pos_right _ (Nat.succ_pos _)) hbudget
  have hregisters : vectorRegisters layout.maxTileM layout.maxTileN =
      .ok (vectorsOf layout.maxTileM * (layout.maxTileN + 1)) :=
    bind_eq_ok.mpr ⟨_, Checked.add_eq_ok (by omega), Checked.mul_eq_ok (by omega)⟩
  have hoffset : Checked.int32 (vectorOffsetMax + 16 * vectorsOf layout.maxTileM : Nat) =
      .ok (vectorOffsetMax + 16 * vectorsOf layout.maxTileM : Nat) :=
    if_pos (by unfold vectorOffsetMax; omega)
  rw [checkTile, if_neg hcolumns, hregisters, hoffset]
  rfl

/-- An accepted request has a script, in the context of a plan from its pool. -/
theorem exists_planned {tiling : Tiling} {shape : Shape} (htiling : tiling.error? = .ok none)
    (hshape : shape.error? = none) (pool? : Option RegSet) :
    ∃ (layout : Layout) (ctx : Context), (Regime.select shape tiling).Arranges shape layout ∧
      ctx.shape = shape ∧ ctx.Planned layout (pool?.getD (pool layout)) ∧
      Plan.ofPool shape layout (pool?.getD (pool layout)) = .ok ctx.plan ∧
      script tiling pool? shape = .ok (ctx.script (Regime.select shape tiling)) := by
  have hvalid := Shape.valid_of_error? hshape
  obtain ⟨layout, harranges, hlayout⟩ :=
    Regime.exists_layout hvalid (Tiling.valid_of_error? htiling)
  obtain ⟨plan, hplan, hfits⟩ := Plan.exists_ofPool hvalid hlayout (pool?.getD (pool layout))
  obtain ⟨ctx, hctx, hctxShape, rfl, hplanned⟩ := Context.exists_ofPlan hvalid hlayout hfits
  refine ⟨layout, ctx, harranges, hctxShape, hplanned, hplan, ?_⟩
  have hrefusal : refusal? tiling shape = .ok none := by
    rw [refusal?, htiling]
    simp only [bind, Except.bind, hshape]
    rfl
  simp only [script, hrefusal, bind, Except.bind, harranges.layout_eq, hplan, hctx,
    hlayout.checkTile_eq]
  rfl

/-- The pool of a request offers only registers that the layout leaves free. -/
def PoolFits (tiling : Tiling) (shape : Shape) (pool? : Option RegSet) : Prop :=
  ∀ layout, (Regime.select shape tiling).layout shape = .ok layout →
    ∀ set ∈ pool?, ∀ r, set.contains r = true → (pool layout).contains r = true

/-- An accepted request has a script, in the context of a plan that fits. -/
theorem exists_script {tiling : Tiling} {shape : Shape} {pool? : Option RegSet}
    (htiling : tiling.error? = .ok none) (hshape : shape.error? = none)
    (hpool : PoolFits tiling shape pool?) :
    ∃ (layout : Layout) (ctx : Context),
      (Regime.select shape tiling).Arranges shape layout ∧ ctx.shape = shape ∧ ctx.Fits layout ∧
      script tiling pool? shape = .ok (ctx.script (Regime.select shape tiling)) := by
  obtain ⟨layout, ctx, harranges, hctxShape, hplanned, -, hscript⟩ :=
    exists_planned htiling hshape pool?
  have hinitial : ∀ r, (pool?.getD (pool layout)).contains r = true →
      (pool layout).contains r = true := by
    cases pool? with
    | none => exact fun r => id
    | some set => exact hpool layout harranges.layout_eq set rfl
  exact ⟨layout, ctx, harranges, hctxShape,
    { hplanned with plan := hplanned.plan.mono hinitial }, hscript⟩

/-! ## Preparation -/

variable {ctx : Context} {layout : Layout} {mulAdd : MulAdd} {m m' : Machine} {p : Product}

theorem achieves_notes {α : Type} {t : Touch} {Q : Machine → Prop} {rounds : Nat} (xs : List α)
    (f : α → Fault) (h : Q m) :
    AchievesWithin rounds mulAdd (xs.map fun x => .note (f x)) t m Q := by
  -- a note is no code, so the state stays the same through all of them
  induction xs with
  | nil => exact .nil h
  | cons x xs ih =>
    exact AchievesWithin.seq (s := [_]) (AchievesWithin.note (Q := (· = m)) (f x) rfl)
      (fun m' _ heq => heq ▸ ih) (.refl t)

theorem Context.Fits.preload_injective (hctx : ctx.Fits layout) {x y : Reg × Nat}
    (hx : x ∈ ctx.plan.preloads) (hy : y ∈ ctx.plan.preloads) (heq : x.1 = y.1) : x = y := by
  have hnodup := hctx.plan.nodup
  rw [hctx.plan.preloads] at hx hy
  simp only [Plan.registers, List.nodup_append, List.mem_append] at hnodup
  simp only [List.mem_append, List.mem_map] at hx hy
  grind

theorem Context.Fits.nodup_preloads (hctx : ctx.Fits layout) : ctx.plan.preloads.Nodup := by
  have hregs : ctx.plan.preloads.map Prod.fst = ctx.plan.bStride.regs ++ ctx.plan.aStride.regs ++
      ctx.plan.mBound.regs ++ ctx.plan.nBound.regs := by
    simp [hctx.plan.preloads, Function.comp_def]
  have hsublist : (ctx.plan.preloads.map Prod.fst).Sublist ctx.plan.registers := by
    rw [hregs]
    exact ((((List.sublist_append_left _ _).trans (List.sublist_append_left _ _)).append
      (List.Sublist.refl _)).append (List.Sublist.refl _))
  exact (List.pairwise_map.mp (hctx.plan.nodup.sublist hsublist)).imp
    fun hne heq => hne (congrArg Prod.fst heq)

theorem Context.straight_preloads : Script.Straight (ctx.plan.preloads.flatMap
    fun (reg, value) => Sequence.loadConstant reg (UInt32.ofNat value)) :=
  Script.straight_flatMap fun _ _ => Sequence.straight_loadConstant _ _

/-- Registers of the plan are loaded once for the whole kernel. -/
theorem Context.Fits.achieves_preloads (hctx : ctx.Fits layout) (h : m.Plain) :
    Achieves mulAdd (ctx.plan.preloads.flatMap fun (reg, value) =>
        Sequence.loadConstant reg (UInt32.ofNat value))
      (Touch.regs (· ∈ ctx.plan.registers)) m ctx.Preloaded := by
  have hall : Achieves mulAdd (ctx.plan.preloads.flatMap fun (reg, value) =>
        Sequence.loadConstant reg (UInt32.ofNat value))
      (Touch.union (· ∈ ctx.plan.preloads) fun x => Touch.regs (· = x.1)) m ctx.Preloaded := by
    refine Achieves.each hctx.nodup_preloads (fun x hx m₁ hframe => ?_)
      (fun x hx m₁ m₂ hframe hvalue => ?_)
    · obtain ⟨reg, value⟩ := x
      exact Sequence.achieves_loadConstant (hframe.plain (fun ⟨_, _, hb⟩ => hb) h).block
        (hctx.plan.general hctx.layout (hctx.plan.mem_registers_of_preload hx)) _
    · rw [hframe.reg x.1, hvalue]
      rintro ⟨y, ⟨hy, hne⟩, heq⟩
      exact hne (hctx.preload_injective hx hy heq).symm
  exact hall.mono (Touch.union_within fun x hx => Touch.regs_within fun r hr =>
    hr ▸ hctx.plan.mem_registers_of_preload hx) fun _ _ => id

/-! ## The frame -/

/-- Lowest word of the kernel's stack. -/
def stackBase : UInt32 := 0x2FFFFF9C

/-- Words of the kernel's stack. -/
def OnStack (address : UInt32) : Prop :=
  ∃ n < 25, address = wordAddress stackBase n

/-- Registers that the frame saves. -/
def savedRegs : List Reg := [.r4, .r5, .r6, .r7, .r8, .r9, .r10, .r11]

theorem toList_saved_lr : (Context.saved.insert .lr).toList = savedRegs ++ [.lr] := rfl

theorem toList_saved_pc : (Context.saved.insert .pc).toList = savedRegs ++ [.pc] := rfl

/-- What memory must look like for a call: the operands are there, and the
    stack is writable and apart from them. -/
structure Product.Callable (p : Product) (shape : Shape) (memory : Memory) : Prop where
  given : p.Given shape memory
  stack : ∀ n < 25, memory.Writable (wordAddress stackBase n)
  a_apart : ∀ i < shape.m, ∀ kk < shape.k, ¬OnStack (elementAddress p.a shape.lda i kk)
  b_apart : ∀ kk < shape.k, ∀ j < shape.n, ¬OnStack (elementAddress p.b shape.ldb kk j)
  c_apart : ∀ i < shape.m, ∀ j < shape.n, ¬OnStack (elementAddress p.c shape.ldc i j)

/-- Writing to the stack leaves the operands alone. -/
theorem Product.Callable.given_of_writes {shape : Shape} {memory memory' : Memory}
    (h : p.Callable shape memory) (hwrites : Memory.Writes OnStack memory memory') :
    p.Given shape memory' where
  a i hi kk hkk := (hwrites.read_eq (h.a_apart i hi kk hkk)).trans (h.given.a i hi kk hkk)
  b kk hkk j hj := (hwrites.read_eq (h.b_apart kk hkk j hj)).trans (h.given.b kk hkk j hj)
  c i hi j hj := (hwrites.read_eq (h.c_apart i hi j hj)).trans (h.given.c i hi j hj)
  writable i hi j hj := hwrites.writable_iff.mpr (h.given.writable i hi j hj)
  last := h.given.last
  a_apart := h.given.a_apart
  b_apart := h.given.b_apart

/-- The script up to the return. -/
def Context.body (ctx : Context) (regime : Regime) : Script :=
  Sequence.save saved true ++
    ((ctx.plan.unavailable.map fun value => .note (.registerUnavailable value)) ++
    ((ctx.plan.preloads.flatMap fun (reg, value) =>
      Sequence.loadConstant reg (UInt32.ofNat value)) ++
    (ctx.tiles regime ++ [.emit (.vpop Sequence.savedFirst Sequence.savedCount)])))

theorem Context.script_eq (ctx : Context) (regime : Regime) :
    ctx.script regime = ctx.body regime ++ [.emit (.pop (saved.insert .pc))] := by
  simp only [script, body, Sequence.restoreAndReturn, if_true, List.append_assoc]

/-- What the body leaves for the return. -/
structure Product.Finished (p : Product) (shape : Shape) (mulAdd : MulAdd) (m m' : Machine) :
    Prop where
  plain : m'.Plain
  sp : m'.reg .sp = wordAddress stackBase 16
  saved : m'.memory.HoldsWords (wordAddress stackBase 16) ((savedRegs ++ [Reg.lr]).map m.reg)
  lane : ∀ (q : QReg) l, 4 ≤ q.val → m'.lane q l = m.lane q l
  result : ∀ i < shape.m, ∀ j < shape.n,
    m'.memory.read (elementAddress p.c shape.ldc i j) = .ok (p.sum shape mulAdd i j)

/-- Memory of the kernel: `C` and the stack. -/
def Product.kernelTouch (p : Product) (shape : Shape) : Touch where
  reg _ := True
  vec _ := True
  predicate := True
  memory address := p.Result shape address ∨ OnStack address

theorem Product.Callable.achieves_body {regime : Regime} (hcall : p.Callable ctx.shape m.memory)
    (hctx : ctx.Fits layout) (harranges : regime.Arranges ctx.shape layout) (h : m.Plain)
    (hsp : m.reg .sp = stackTop) (hat : p.At ctx.shape 0 0 m) :
    AchievesWithin (ctx.shape.k * ctx.shape.m * ctx.shape.n) mulAdd (ctx.body regime)
      (p.kernelTouch ctx.shape) m (p.Finished ctx.shape mulAdd m) := by
  have hpos : 0 < ctx.shape.k * ctx.shape.m * ctx.shape.n :=
    Nat.mul_pos (Nat.mul_pos hctx.shape.k_pos hctx.shape.m_pos) hctx.shape.n_pos
  have hcount : Sequence.savedCount = 8 := rfl
  have hbase : m.reg .sp =
      wordAddress stackBase (2 * Sequence.savedCount + (Context.saved.insert .lr).size) := hsp
  have hstack : ∀ n < 25, ¬p.Result ctx.shape (wordAddress stackBase n) := by
    rintro n hn ⟨i, hi, j, hj, heq⟩
    exact hcall.c_apart i hi j hj ⟨n, hn, heq.symm⟩
  have hregisters : ∀ r, layout.Reserves r → r ∉ ctx.plan.registers := fun r hr hmem =>
    hctx.plan.ne_of_reserves hctx.layout hmem hr rfl
  refine ((Sequence.achieves_save h.block ⟨_, rfl⟩ (by decide) (by decide) hbase (by decide)
    hcall.stack).within (by simp) hpos).seq (fun m₁ hframe₁ ⟨hsp₁, hsingles, hregs⟩ => ?_)
    ⟨fun _ _ => trivial, fun _ => False.elim, False.elim, id, fun _ => .inr⟩
  have hgiven₁ := hcall.given_of_writes hframe₁.memory
  refine (achieves_notes (Q := (· = m₁)) _ _ rfl).seq (t := p.kernelTouch ctx.shape)
    (fun m₁' _ heq => ?_) (.refl _)
  subst heq
  have hplain₁ := hframe₁.plain id h
  refine ((hctx.achieves_preloads hplain₁).within Context.straight_preloads hpos).seq
    (fun m₂ hframe₂ hpre => ?_) (Touch.regs_within fun _ _ => trivial)
  -- before the tiles nothing is finished
  have hdone₂ : p.Done ctx mulAdd m₁'.memory (fun _ _ => False) m₂ :=
    { plain := hframe₂.plain id hplain₁
      preloaded := hpre
      writes := hframe₂.memory.mono fun _ => False.elim
      finished := fun _ _ _ _ => False.elim
      initial := fun i hi j hj _ => (hframe₂.memory.read_eq id).trans (hgiven₁.c i hi j hj) }
  have hat₂ : p.At ctx.shape 0 0 m₂ := by
    refine (hat.of_frame hframe₁ ?_).of_frame hframe₂ ?_
    · rintro r hr rfl
      exact absurd hr (by decide)
    · refine fun r hr => hregisters r (.fixed ?_)
      revert r
      decide
  refine (hgiven₁.achieves_tiles hctx harranges hdone₂ hat₂).seq (fun m₃ hframe₃ hdone₃ => ?_)
    ⟨fun _ _ => trivial, fun _ => id, id, id, fun _ => .inl⟩
  have hsp₃ : m₃.reg .sp = stackBase :=
    (hframe₃.reg .sp fun hne => hne rfl).trans
      ((hframe₂.reg .sp (hregisters _ (.fixed (by decide)))).trans hsp₁)
  -- the tiles write to `C` alone, so the frame is as it was saved
  have hsingles₃ : m₃.memory.HoldsWords (m₃.reg .sp)
      ((halves Sequence.savedCount Sequence.savedFirst).map m.single) := by
    rw [hsp₃]
    refine hsingles.of_writes hdone₃.writes fun n hn => hstack n ?_
    rw [List.length_map, length_halves] at hn
    omega
  have hregs₃ : m₃.memory.HoldsWords (wordAddress stackBase 16)
      ((savedRegs ++ [Reg.lr]).map m.reg) := by
    refine (toList_saved_lr ▸ hregs).of_writes hdone₃.writes fun n hn => ?_
    rw [wordAddress_wordAddress]
    exact hstack _ (by simp only [savedRegs, List.length_map, List.length_append,
      List.length_cons, List.length_nil] at hn; omega)
  have hrestore : Achieves mulAdd [.emit (.vpop Sequence.savedFirst Sequence.savedCount)] _ m₃ _ :=
    Sequence.achieves_vpop (by decide) hdone₃.plain.block ⟨_, rfl⟩ (by rw [hsp₃]; decide) hsingles₃
  refine (hrestore.within (by simp) hpos).mono
    ⟨fun _ _ => trivial, fun _ _ => trivial, False.elim, id, fun _ => False.elim⟩ fun m₄ hframe₄ ⟨hsp₄, hlanes⟩ => ⟨hframe₄.plain id hdone₃.plain, ?_, ?_, ?_, ?_⟩
  · rw [hsp₄, hsp₃]
    rfl
  · exact hregs₃.of_writes hframe₄.memory fun _ _ => id
  · intro q l hq
    refine hlanes q l ?_
    revert q l
    decide
  · intro i hi j hj
    rw [hframe₄.memory.read_eq id]
    exact hdone₃.finished i hi j hj trivial

/-! ## Calls -/

/-- What a call has done when it returns. -/
structure Product.Outcome (p : Product) (shape : Shape) (mulAdd : MulAdd) (m m' : Machine) :
    Prop where
  writes : Memory.Writes (fun a => p.Result shape a ∨ OnStack a) m.memory m'.memory
  result : ∀ i < shape.m, ∀ j < shape.n,
    m'.memory.read (elementAddress p.c shape.ldc i j) = .ok (p.sum shape mulAdd i j)
  saved : ∀ r ∈ savedRegs, m'.reg r = m.reg r
  lane : ∀ (q : QReg) l, 4 ≤ q.val → m'.lane q l = m.lane q l
  sp : m'.reg .sp = stackTop

theorem Product.Outcome.withLimit {shape : Shape} (h : p.Outcome shape mulAdd m m') (limit : Nat) :
    p.Outcome shape mulAdd m (m'.withLimit limit) :=
  ⟨h.writes, h.result, h.saved, h.lane, h.sp⟩

theorem Product.Outcome.tick {shape : Shape} (h : p.Outcome shape mulAdd m m') :
    p.Outcome shape mulAdd m m'.tick :=
  ⟨h.writes, h.result, h.saved, h.lane, h.sp⟩

theorem Product.Callable.exists_outcome {regime : Regime} (hcall : p.Callable ctx.shape m.memory)
    (mulAdd : MulAdd) (hctx : ctx.Fits layout) (harranges : regime.Arranges ctx.shape layout) :
    ∃ m₁ m', Does mulAdd (ctx.body regime) (enter [p.a, p.b, p.c] m) m₁ ∧
      Exits mulAdd (Instruction.pop (Context.saved.insert .pc)).meaning returnAddress m₁ m' ∧
      p.Outcome ctx.shape mulAdd m m' ∧
      m'.steps ≤ ctx.shape.k * ctx.shape.m * ctx.shape.n * (ctx.body regime).length := by
  have hreg := reg_enter [p.a, p.b, p.c] m
  have hat : p.At ctx.shape 0 0 (enter [p.a, p.b, p.c] m) := by
    refine ⟨(hreg aTile).trans (show p.a = _ from ?_), (hreg bTile).trans (show p.b = _ from ?_),
      (hreg cTile).trans (show p.c = _ from ?_)⟩
    all_goals simp [elementAddress]
  obtain ⟨m₁, hdoes, hframe, hfinished, hsteps⟩ : AchievesWithin _ mulAdd (ctx.body regime) _
      (enter [p.a, p.b, p.c] m) _ :=
    Callable.achieves_body hcall hctx harranges (plain_enter _ m) (hreg .sp) hat
  have hsaved : ∀ r ∈ savedRegs, (enter [p.a, p.b, p.c] m).reg r = m.reg r :=
    fun r hr => reg_enter_of_callee _ m hr
  have hstack := hfinished.saved
  rw [← hfinished.sp, List.map_append, List.map_congr_left hsaved] at hstack
  have hreturn : m₁.memory.read (wordAddress (m₁.reg .sp) savedRegs.length) =
      .ok (returnAddress + 1) := by
    have := hstack.right.head
    rwa [List.length_map, hreg .lr] at this
  have hexits : Exits mulAdd (Instruction.pop (Context.saved.insert .pc)).meaning returnAddress m₁
      ((m₁.setRegs m.reg savedRegs).setReg .sp (wordAddress (m₁.reg .sp) 9)) :=
    Sequence.exits_pop hfinished.plain.block toList_saved_pc (by decide)
      (by rw [hfinished.sp]; decide) hstack.left hreturn (by decide)
  have hentered : (enter [p.a, p.b, p.c] m).steps = 0 := rfl
  refine ⟨m₁, _, hdoes, hexits, ?_, by rw [hexits.steps_eq]; omega⟩
  refine ⟨?_, fun i hi j hj => ?_, fun r hr => ?_, fun q l hq => ?_, ?_⟩
  · rw [memory_setReg, memory_setRegs]
    exact hframe.memory
  · rw [memory_setReg, memory_setRegs]
    exact hfinished.result i hi j hj
  · have hne : r ≠ .sp := by
      rintro rfl
      exact absurd hr (by decide)
    rw [reg_setReg_of_ne _ _ (Ne.symm hne), reg_setRegs, if_pos hr]
  · rw [lane_setReg, lane_setRegs]
    exact hfinished.lane q l hq
  · rw [reg_setReg_self, hfinished.sp]
    rfl

/-! ## Requests -/

theorem Context.Planned.length_body {regime : Regime} {initial : RegSet}
    (hctx : ctx.Planned layout initial)
    (harranges : regime.Arranges ctx.shape layout) : (ctx.body regime).length ≤ 664 := by
  have htiles := Context.length_tiles ctx harranges hctx.layout
  have hunavailable := hctx.plan.unavailable
  have hsave : (Sequence.save Context.saved true).length = 2 := rfl
  have hcount : ctx.plan.preloads.length ≤ 4 := by
    have hb : ctx.plan.bStride.regs.length ≤ 1 := by cases ctx.plan.bStride <;> simp [BStride.regs]
    have ha : ctx.plan.aStride.regs.length ≤ 1 := by cases ctx.plan.aStride <;> simp [AStride.regs]
    have hm : ctx.plan.mBound.regs.length ≤ 1 := by cases ctx.plan.mBound <;> simp [Bound.regs]
    have hn : ctx.plan.nBound.regs.length ≤ 1 := by cases ctx.plan.nBound <;> simp [Bound.regs]
    simp only [hctx.plan.preloads, List.length_append, List.length_map]
    omega
  have hpreloads : (ctx.plan.preloads.flatMap fun x =>
      Sequence.loadConstant x.1 (UInt32.ofNat x.2)).length ≤ ctx.plan.preloads.length * 2 :=
    Context.length_flatMap_le fun x _ => Sequence.length_loadConstant x.1 (UInt32.ofNat x.2)
  simp only [Context.body, List.length_append, List.length_map, List.length_cons, List.length_nil]
  omega

/-- There is no room for more elements of `C` than the address space has words. -/
theorem Product.Given.elements_le {shape : Shape} {memory : Memory} (h : p.Given shape memory)
    (hshape : shape.Valid) : shape.m * shape.n ≤ 2 ^ 30 := by
  have hm := hshape.m_pos
  have hn := hshape.n_pos
  have hlast := h.last (shape.m - 1) (by omega) (shape.n - 1) (by omega)
  have hcolumns := Nat.mul_le_mul_left (shape.n - 1) hshape.m_le_ldc
  calc shape.m * shape.n = (shape.n - 1) * shape.m + shape.m := by
        rw [← Nat.succ_mul, Nat.succ_eq_add_one, Nat.sub_add_cancel hn, Nat.mul_comm]
    _ ≤ 2 ^ 30 := by omega

/-- A kernel takes fewer steps than a counter of eight bytes can count. -/
theorem Product.Given.steps_lt {shape : Shape} {memory : Memory} (h : p.Given shape memory)
    (hshape : shape.Valid) {length : Nat} (hlength : length ≤ 664) :
    shape.k * shape.m * shape.n * length + 1 < 2 ^ 64 := by
  have hmax : Shape.maxDimension = 2 ^ 24 := rfl
  have hk : shape.k ≤ 2 ^ 24 := Nat.le_trans hshape.k_le_ldb (hmax ▸ hshape.ldb_le)
  have hall : shape.k * (shape.m * shape.n) * length ≤ 2 ^ 24 * 2 ^ 30 * 664 :=
    Nat.mul_le_mul (Nat.mul_le_mul hk (h.elements_le hshape)) hlength
  rw [Nat.mul_assoc shape.k]
  omega

/-- Generating a kernel and calling it: unless a fatal fault is recorded, the
    call returns after a number of instructions that does not depend on the limit. -/
theorem Product.Callable.call_eq {tiling : Tiling} {shape : Shape} {pool? : Option RegSet}
    (htiling : tiling.error? = .ok none) (hshape : shape.error? = none)
    (hpool : PoolFits tiling shape pool?) (hcall : p.Callable shape m.memory) (mulAdd : MulAdd)
    (b : Buffer) :
    ∃ b', b.fulfil (.gemm tiling pool? shape) = .ok b' ∧ (b'.hasFatalFault = false →
      ∃ m', p.Outcome shape mulAdd m m' ∧ m'.steps < 2 ^ 64 ∧ ∀ limit,
        (m'.steps ≤ limit → ∃ r, call mulAdd b'.code [p.a, p.b, p.c] (m.withLimit limit) =
          .ok r (m'.withLimit limit)) ∧
        (limit < m'.steps → ∃ stopped, call mulAdd b'.code [p.a, p.b, p.c] (m.withLimit limit) =
          .error (.error (.stepLimit limit)) stopped)) := by
  obtain ⟨layout, ctx, harranges, rfl, hctx, hscript⟩ := exists_script htiling hshape hpool
  obtain ⟨m₁, m', hdoes, hreturns, houtcome, hsteps⟩ := hcall.exists_outcome mulAdd hctx harranges
  have hlength := hctx.length_body harranges
  have hpop : (Instruction.pop (Context.saved.insert .pc)).assemble = .ok _ := rfl
  obtain ⟨b', hgenerate, hplaced⟩ := hdoes.generate hpop (by omega) b
  refine ⟨b', ?_, fun hfatal => ?_⟩
  · rw [Buffer.fulfil, Request.script, hscript, Context.script_eq]
    exact hgenerate
  · obtain ⟨env, q, hq, hplaced⟩ := hplaced hfatal
    have hlimit := hdoes.call_eq hreturns hq hplaced
    exact ⟨m'.tick, houtcome.tick,
      Nat.lt_of_le_of_lt (Nat.succ_le_succ hsteps) (hcall.given.steps_lt hctx.shape hlength),
      fun limit => ⟨fun hle => ⟨_, (hlimit limit).1 hle⟩, (hlimit limit).2⟩⟩

end HeliumKernels.Gemm
