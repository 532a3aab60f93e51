/-
  HeliumKernels.Proofs.Kernel.Peak

  The peak kernel accumulates one product per multiply-add.  The chain hits
  its six accumulators in turn, so after some iterations each of them holds
  the product that was added as often as the chain has hit it.  Two of the
  accumulators and both factors are in registers that belong to the caller,
  which are saved on the stack and restored.
-/
import HeliumKernels.Binary32.Fused
import HeliumKernels.Kernel.Request
import HeliumKernels.Proofs.Kernel.Looped

namespace HeliumKernels.Peak

open Machine

/-! ## The pieces of the script -/

/-- Clear the accumulators and load the factors. -/
def constants : Script :=
  (List.range accumulators).map clear ++
    [.emit (.vmovImm (QReg.ofField 6) half), .emit (.vmovImm (QReg.ofField 7) two)]

/-- Save the frame and get ready. -/
def prologue : Script :=
  Sequence.save frame true ++ constants

/-- One iteration. -/
def round (count : Nat) : Script :=
  (List.range count).map multiplyAdd

/-- Restore the vector registers. -/
def restore : Script :=
  [.emit (.vpop Sequence.savedFirst Sequence.savedCount)]

/-- Restore the frame and return. -/
def epilogue : Script :=
  restore ++ [.emit (.pop (frame.insert .pc))]

variable {count : Nat}

theorem length_round (count : Nat) : (round count).length = count := by
  simp [round]

theorem straight_prologue : prologue.Straight := by
  have hclear : Script.Straight ((List.range accumulators).map clear) :=
    Script.straight_map fun _ _ => rfl
  simp [prologue, constants, Sequence.save, hclear]

theorem straight_restore : restore.Straight := by
  simp [restore]

theorem assembles_pieces (count : Nat) : (prologue ++ (round count ++ epilogue)).Assembles := by
  simp only [prologue, constants, epilogue, restore, Sequence.save, if_true,
    Script.assembles_append, Script.assembles_emit, Script.assembles_nil, and_true]
  refine ⟨⟨⟨⟨_, rfl⟩, _, rfl⟩, Script.assembles_map fun q _ => ?_, ⟨_, rfl⟩, _, rfl⟩,
    Script.assembles_map fun i _ => ?_, ⟨_, rfl⟩, _, rfl⟩
  · simp only [clear, Script.assembles_emit, Script.assembles_nil, and_true]
    exact ⟨_, rfl⟩
  · simp only [multiplyAdd, Script.assembles_emit, Script.assembles_nil, and_true]
    exact ⟨_, rfl⟩

/-- An iteration is as many multiply-adds as are asked for. -/
theorem unrolled : Script.Unrolled script iterations prologue multiplyAdd epilogue maxCount 26 := by
  constructor
  case accepted =>
    intro count h
    have hfactors : (6 : QReg) = QReg.ofField 6 ∧ (7 : QReg) = QReg.ofField 7 := ⟨rfl, rfl⟩
    refine ⟨entry, body, ?_⟩
    simp [script, h, Script.guarded, prologue, constants, epilogue, restore,
      Sequence.restoreAndReturn, loopLanes, hfactors]
  case refused => exact fun count h => ⟨_, if_neg h⟩
  case counter => decide
  case straight_before => exact straight_prologue
  case straight_after => simp [epilogue, restore]
  case isEmit_item => exact fun _ => rfl
  case span_item => exact fun _ => rfl
  case assembles => exact assembles_pieces
  case span_around => rfl
  case length_around => decide

/-! ## The chain -/

/-- How often a chain hits an accumulator. -/
def hits (count q : Nat) : Nat :=
  (List.range count).countP fun i => i % accumulators = q

theorem hits_succ (i q : Nat) :
    hits (i + 1) q = hits i q + if i % accumulators = q then 1 else 0 := by
  simp [hits, List.range_succ]

variable {mulAdd : MulAdd} {m m₀ m₁ : Machine} {n c : Nat} {k : Nat → Nat}

/-- Each accumulator was hit as often as `k` says; besides nothing is different but the count of
    the loop. -/
structure Progress (mulAdd : MulAdd) (m₀ : Machine) (k : Nat → Nat) (m : Machine) : Prop where
  lane : ∀ (q : QReg) l, q.val < accumulators → m.lane q l = (mulAdd half two)^[k q.val] 0
  half : ∀ l, m.lane 6 l = half
  two : ∀ l, m.lane 7 l = two
  reg : ∀ r, r ≠ .lr → m.reg r = m₀.reg r
  memory : m.memory = m₀.memory

theorem Progress.counted (h : Progress mulAdd m₀ k m) (count : UInt32) (tail : Bool) :
    Progress mulAdd m₀ k (m.counted count tail) :=
  ⟨h.lane, h.half, h.two, fun r hlr => (reg_counted hlr).trans (h.reg r hlr), h.memory⟩

/-- One multiply-add adds a product to the accumulator it hits. -/
theorem Progress.exists_multiplyAdd (h : Progress mulAdd m₀ k m) (hlooping : Looping false n c m)
    (i : Nat) :
    ∃ m', Does mulAdd [multiplyAdd i] m m' ∧ Looping false n c m' ∧
      Progress mulAdd m₀ (fun q => k q + if i % accumulators = q then 1 else 0) m' := by
  have hsix : accumulators = 6 := rfl
  have hlt : i % accumulators < accumulators := Nat.mod_lt i (by decide)
  have hval : (QReg.ofField (i % accumulators)).val = i % accumulators :=
    Nat.mod_eq_of_lt (by omega)
  obtain ⟨m', hdoes, hframe, hhit⟩ : Achieves mulAdd [multiplyAdd i] _ m _ :=
    achieves_vfmaVector hlooping.plain (QReg.ofField (i % accumulators)) 6 7
  have hother : ∀ (q : QReg) l, q.val ≠ i % accumulators → m'.lane q l = m.lane q l := by
    intro q l hq
    apply hframe.lane
    rintro rfl
    exact hq hval
  refine ⟨m', hdoes, hlooping.of_frame hframe id ((hframe.block id).trans hlooping.block), ?_⟩
  constructor
  case lane =>
    intro q l hq
    by_cases hit : i % accumulators = q.val
    · obtain rfl : q = QReg.ofField (i % accumulators) := Fin.ext (hval.trans hit).symm
      rw [if_pos hit, Function.iterate_succ_apply', hhit, h.half, h.two, h.lane _ _ hq]
    · rw [if_neg hit, Nat.add_zero, hother q l (Ne.symm hit), h.lane q l hq]
  -- the factors are behind the accumulators
  case half =>
    intro l
    have hne : (6 : QReg).val ≠ i % accumulators := by show 6 ≠ _; omega
    rw [hother 6 l hne, h.half]
  case two =>
    intro l
    have hne : (7 : QReg).val ≠ i % accumulators := by show 7 ≠ _; omega
    rw [hother 7 l hne, h.two]
  case reg =>
    intro r hlr
    rw [hframe.reg r id, h.reg r hlr]
  case memory => exact hframe.memory.eq_of_none.trans h.memory

/-- The first multiply-adds of an iteration. -/
theorem Progress.exists_chain (h : Progress mulAdd m₀ k m) (hlooping : Looping false n c m)
    (i : Nat) :
    ∃ m', Does mulAdd (round i) m m' ∧ Looping false n c m' ∧
      Progress mulAdd m₀ (fun q => k q + hits i q) m' := by
  -- on the length of the chain, one hit at a time
  induction i with
  | zero => exact ⟨m, .nil, hlooping, h⟩
  | succ i ih =>
    obtain ⟨m₁, hdoes₁, hlooping₁, hprogress₁⟩ := ih
    obtain ⟨m₂, hdoes₂, hlooping₂, hprogress₂⟩ := hprogress₁.exists_multiplyAdd hlooping₁ i
    refine ⟨m₂, ?_, hlooping₂, ?_⟩
    · rw [round, List.range_succ, List.map_append]
      exact .append hdoes₁ hdoes₂
    · simpa only [hits_succ, Nat.add_assoc] using hprogress₂

/-- Iterations go through, and each adds the hits of one chain. -/
theorem iterates (mulAdd : MulAdd) (m₀ : Machine) (n stop count : Nat) :
    (round count).Iterates mulAdd false n stop
      fun c m => Progress mulAdd m₀ (fun q => c * hits count q) m := by
  intro c m _ hlooping hprogress
  obtain ⟨m', hdoes, hlooping', hprogress'⟩ := hprogress.exists_chain hlooping count
  refine ⟨m', hdoes, hlooping', ?_⟩
  simpa only [Nat.succ_mul] using hprogress'

/-! ## Getting ready -/

/-- The first accumulators are cleared one by one. -/
theorem achieves_clear (h : m.Plain) {i : Nat} (hi : i ≤ accumulators) :
    Achieves mulAdd ((List.range i).map clear) (Touch.vecs fun _ => True) m
      fun m' => ∀ (q : QReg) l, q.val < i → m'.lane q l = 0 := by
  induction i with
  | zero => exact .nil fun _ _ hq => absurd hq (Nat.not_lt_zero _)
  | succ i ih =>
    have hsix : accumulators = 6 := rfl
    have hval : (QReg.ofField i).val = i := Nat.mod_eq_of_lt (by omega)
    rw [List.range_succ, List.map_append]
    refine (ih (by omega)).seq (fun m₁ hframe hclear => ?_) (.refl _)
    have hlast : Achieves mulAdd [clear i] _ m₁ _ :=
      achieves_vmovImm (hframe.plain id h) (QReg.ofField i) ⟨_, rfl⟩
    refine hlast.mono (Touch.vecs_within fun _ _ => trivial) fun m₂ hframe₂ hlane q l hq => ?_
    -- the last one cleared, or one of those before it
    by_cases hit : q = QReg.ofField i
    · rw [hit, hlane]
    · rw [hframe₂.lane q l hit]
      refine hclear q l ?_
      have hne : q.val ≠ i := fun heq => hit (Fin.ext (heq.trans hval.symm))
      omega

theorem achieves_constants (h : m.Plain) :
    Achieves mulAdd constants (Touch.vecs fun _ => True) m fun m' =>
      (∀ (q : QReg) l, q.val < accumulators → m'.lane q l = 0) ∧
        (∀ l, m'.lane 6 l = half) ∧ ∀ l, m'.lane 7 l = two := by
  refine (achieves_clear h (Nat.le_refl _)).seq (fun m₁ hframe₁ hclear => ?_) (.refl _)
  have hplain₁ := hframe₁.plain id h
  refine Achieves.seq (s := [.emit (.vmovImm 6 half)])
    (achieves_vmovImm hplain₁ 6 ⟨_, rfl⟩) (fun m₂ hframe₂ hhalf => ?_)
    (Touch.vecs_within fun _ _ => trivial)
  refine (achieves_vmovImm (hframe₂.plain id hplain₁) 7 ⟨_, rfl⟩).mono
    (Touch.vecs_within fun _ _ => trivial) fun m₃ hframe₃ htwo => ⟨?_, ?_, htwo⟩
  · intro q l hq
    rw [hframe₃.lane q l (by rintro rfl; exact absurd hq (by decide)),
      hframe₂.lane q l (by rintro rfl; exact absurd hq (by decide)), hclear q l hq]
  · intro l
    rw [hframe₃.lane 6 l (show (6 : QReg) ≠ 7 by decide), hhalf]

/-- Words of the frame: the callee-saved vector registers, one register and the return address. -/
def frameWords : Nat :=
  2 * Sequence.savedCount + (frame.insert .lr).size

/-- What the prologue leaves: the frame is on the stack, the accumulators are clear and the
    factors are in place. -/
structure Ready (mulAdd : MulAdd) (iterations : UInt32) (m m₁ : Machine) : Prop where
  plain : m₁.Plain
  count : m₁.reg .r0 = iterations
  sp : m₁.reg .sp = frameBase frameWords
  vectors : m₁.memory.HoldsWords (frameBase frameWords)
    ((halves Sequence.savedCount Sequence.savedFirst).map m.single)
  saved : m₁.memory.HoldsWords (frameBase 2) ([m.reg .r7] ++ [returnAddress + 1])
  scalars : ∀ r ∈ calleeRegs, m₁.reg r = m.reg r
  writes : Memory.Writes (OnFrame frameWords) m.memory m₁.memory
  progress : Progress mulAdd m₁ (fun _ => 0) m₁

theorem exists_ready (mulAdd : MulAdd) (iterations : UInt32) (h : fresh.memory.Grows m.memory) :
    ∃ m₁, Does mulAdd prologue (enter [iterations] m) m₁ ∧ Ready mulAdd iterations m m₁ := by
  have hreg := reg_enter [iterations] m
  have hplain := plain_enter [iterations] m
  have htop : wordAddress (frameBase frameWords) frameWords = stackTop :=
    wordAddress_frameBase (by decide)
  obtain ⟨m₁, hsave, hframe₁, hsp, hsingles, hregs⟩ : Achieves mulAdd (Sequence.save frame true) _
      (enter [iterations] m) _ :=
    Sequence.achieves_save hplain.block ⟨_, rfl⟩ (by decide) (by decide)
      ((hreg .sp).trans htop.symm) (by decide) fun n hn => frame_writable (by decide) h hn
  obtain ⟨m₂, hconstants, hframe₂, hclear, hhalf, htwo⟩ : Achieves mulAdd constants _ m₁ _ :=
    achieves_constants (hframe₁.plain id hplain)
  have hmemory : m₂.memory = m₁.memory := hframe₂.memory.eq_of_none
  have hsame : ∀ r, r ≠ .sp → m₂.reg r = (enter [iterations] m).reg r :=
    fun r hr => (hframe₂.reg r id).trans (hframe₁.reg r hr)
  refine ⟨m₂, .append hsave hconstants, ?_⟩
  constructor
  case plain => exact hframe₂.plain id (hframe₁.plain id hplain)
  case count => exact (hsame .r0 (by decide)).trans (hreg .r0)
  case sp => exact (hframe₂.reg .sp id).trans hsp
  case vectors => exact hmemory ▸ hsingles
  case saved =>
    have hstack : m₁.memory.HoldsWords (frameBase 2)
        ([(enter [iterations] m).reg .r7] ++ [(enter [iterations] m).reg .lr]) := hregs
    rwa [hreg .r7, hreg .lr, ← hmemory] at hstack
  case scalars =>
    intro r hr
    rw [hsame r (ne_of_callee hr).2.1, reg_enter_of_callee _ m hr]
  case writes => exact hmemory ▸ hframe₁.memory
  case progress => exact ⟨hclear, hhalf, htwo, fun _ _ => rfl, rfl⟩

/-! ## Calls -/

/-- After the iterations the vector registers of the caller are restored. -/
theorem Ready.exists_unwound {iterations : UInt32} (hready : Ready mulAdd iterations m m₁)
    {m₂ : Machine} (hplain : m₂.Plain) (h : Progress mulAdd m₁ k m₂) :
    ∃ m₃, Does mulAdd restore m₂ m₃ ∧ Unwound frameWords m m₃ ∧ m₃.reg .r0 = iterations ∧
      ∀ (q : QReg) l, q.val < 4 → m₃.lane q l = (mulAdd Peak.half Peak.two)^[k q.val] 0 := by
  have hsp : m₂.reg .sp = frameBase frameWords := (h.reg .sp (by decide)).trans hready.sp
  obtain ⟨m₃, hdoes, hframe, hsp', hlanes⟩ : Achieves mulAdd restore _ m₂ _ :=
    Sequence.achieves_vpop (by decide) hplain.block ⟨_, rfl⟩ (by rw [hsp]; decide)
      (by rw [hsp, h.memory]; exact hready.vectors)
  -- the frame holds exactly the vector registers from the fourth on
  have hmemory : m₃.memory = m₁.memory := hframe.memory.eq_of_none.trans h.memory
  have hsame : ∀ r, r ≠ .sp → r ≠ .lr → m₃.reg r = m₁.reg r :=
    fun r hr hlr => (hframe.reg r hr).trans (h.reg r hlr)
  have hunwound : Unwound frameWords m m₃ := by
    constructor
    case plain => exact hframe.plain id hplain
    case sp =>
      rw [hsp', hsp]
      rfl
    case saved => exact hmemory ▸ hready.saved
    case writes => exact hmemory ▸ hready.writes
    case scalars =>
      intro r hr
      obtain ⟨-, hne, hlr⟩ := ne_of_callee hr
      rw [hsame r hne hlr, hready.scalars r hr]
    case vectors =>
      have hmem : ∀ (q : QReg) (l : Lane), 4 ≤ q.val → laneIndex q l ∈
          halves Sequence.savedCount Sequence.savedFirst := by decide
      intro q l hq
      exact hlanes q l (hmem q l hq)
  refine ⟨m₃, hdoes, hunwound, (hsame .r0 (by decide) (by decide)).trans hready.count, ?_⟩
  -- what the caller gets is not among the registers that were restored
  have hnot : ∀ q : QReg, q.val < 4 → ¬∃ l : Lane, laneIndex q l ∈
      halves Sequence.savedCount Sequence.savedFirst := by decide
  intro q l hq
  rw [hframe.lane q l (hnot q hq), h.lane q l (Nat.lt_trans hq (by decide))]

/-- A call returns after all iterations. -/
theorem exists_call {code : Array UInt16} {p q p' limit : Nat}
    (hcode : Script.GuardedAt code iterations false prologue (round count) epilogue p q p')
    (hgrows : fresh.memory.Grows m.memory) (mulAdd : MulAdd) (n : UInt32)
    (hlimit : n.toNat * (count + 1) + 13 ≤ limit) :
    ∃ m', call mulAdd code [n] (m.withLimit limit) = .ok n m' ∧ m.Conforms m' ∧
      (∀ (q : QReg) l, q.val < 4 →
        m'.lane q l = (mulAdd half two)^[n.toNat * hits count q.val] 0) ∧
      m'.steps = n.toNat * (count + 1) + 13 := by
  obtain ⟨m₁, hdoes, hready⟩ := exists_ready mulAdd n hgrows
  have hstart : Progress mulAdd m₁ (fun q => 0 * hits count q) m₁ := by
    simpa only [Nat.zero_mul] using hready.progress
  have hcount : prologue.length + (1 + ((round count).length + 1) * rounds false true n.toNat) +
      (restore.length + 1) = n.toNat * (count + 1) + 13 := by
    rw [rounds_guarded, length_round, show prologue.length = 10 from rfl,
      show restore.length = 1 from rfl]
    ring
  obtain ⟨m', hcall, ⟨hresult, hconforms, hlanes⟩, hsteps⟩ :=
    hcode.exists_call straight_prologue (unrolled.straight_round count) (by decide) hdoes hready.plain
      (congrArg UInt32.toNat hready.count) hstart (fun _ _ count tail h => h.counted count tail)
      epilogue.eq_def straight_restore (iterates mulAdd m₁ _ _ count)
      (Q := fun m' => m'.reg .r0 = n ∧ m.Conforms m' ∧ ∀ (q : QReg) l, q.val < 4 →
        m'.lane q l = (mulAdd half two)^[n.toNat * hits count q.val] 0)
      (fun m₂ hplain hprogress => by
        obtain ⟨m₃, hrestore, hunwound, hr0, hlanes⟩ := hready.exists_unwound hplain hprogress
        obtain ⟨m', hreturns, hconforms, hother, hlane⟩ :=
          hunwound.exists_returns (by decide) mulAdd (frame.insert .pc) rfl
        refine ⟨m₃, m', hrestore, hreturns, (hother .r0 (by decide) (by decide)).trans hr0, hconforms,
          fun q l hq => ?_⟩
        rw [hlane, hlanes q l hq, rounds_guarded])
      hcount hlimit
  exact ⟨_, hresult ▸ hcall, hconforms.tick.withLimit limit, hlanes, hsteps⟩

/-- The kernel adds one product per multiply-add to the accumulators that the caller gets, and
    keeps everything the caller relies on. -/
theorem call_accumulates (count : Nat) (hlow : 1 ≤ count) (hhigh : count ≤ maxCount)
    (buffer : Buffer) (hcapacity : 2 * count + 26 ≤ buffer.capacity) :
    ∃ kernel, buffer.fulfil (.peak count) = .ok kernel ∧ kernel.faults = [] ∧
      kernel.code.size = 2 * count + 26 ∧
      ∀ (mulAdd : MulAdd) (m : Machine) (n : UInt32) (limit : Nat),
        fresh.memory.Grows m.memory → n.toNat * (count + 1) + 13 ≤ limit →
        ∃ m', call mulAdd kernel.code [n] (m.withLimit limit) = .ok n m' ∧ m.Conforms m' ∧
          (∀ (q : QReg) l, q.val < 4 →
            m'.lane q l = (mulAdd half two)^[n.toNat * hits count q.val] 0) ∧
          m'.steps = n.toNat * (count + 1) + 13 := by
  obtain ⟨kernel, hfulfil, hfaults, hsize, p, q, hcode⟩ :=
    unrolled.exists_generate hlow hhigh hcapacity
  exact ⟨kernel, hfulfil, hfaults, hsize, fun mulAdd m n limit hgrows hlimit =>
    exists_call hcode hgrows mulAdd n hlimit⟩

/-- Eight multiply-adds hit the first two accumulators twice: after three iterations these
    hold six and the next two hold three. -/
theorem call_accumulates_three :
    ∃ kernel m', Buffer.fulfil ⟨#[], 42, 0, [], false⟩ (.peak 8) = .ok kernel ∧
      call Binary32.mulAdd kernel.code [3] (fresh.withLimit 40) = .ok 3 m' ∧
      (∀ l, m'.lane 0 l = 0x40C00000 ∧ m'.lane 1 l = 0x40C00000 ∧ m'.lane 2 l = 0x40400000 ∧
        m'.lane 3 l = 0x40400000) ∧
      m'.reg .sp = stackTop ∧ m'.lane 6 0 = fresh.lane 6 0 := by
  obtain ⟨kernel, hfulfil, -, -, hcall⟩ :=
    call_accumulates 8 (by decide) (by decide) ⟨#[], 42, 0, [], false⟩ (by decide)
  obtain ⟨m', hcall, hconforms, hlanes, -⟩ := hcall Binary32.mulAdd fresh 3 40 .refl (by decide)
  refine ⟨kernel, m', hfulfil, hcall, fun l => ⟨(hlanes 0 l (by decide)).trans ?_,
    (hlanes 1 l (by decide)).trans ?_, (hlanes 2 l (by decide)).trans ?_,
    (hlanes 3 l (by decide)).trans ?_⟩, hconforms.sp, hconforms.vectors 6 0 (by decide)⟩
  · decide +kernel
  · decide +kernel
  · decide +kernel
  · decide +kernel

end HeliumKernels.Peak
