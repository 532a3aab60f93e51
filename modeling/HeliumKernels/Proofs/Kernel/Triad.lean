/-
  HeliumKernels.Proofs.Kernel.Triad

  The triad kernel.  A round handles one vector of each array, masked to the
  elements that are left, so that the last round of any length touches
  nothing behind the arrays.  After `c` rounds the first `4 * c` results are
  written and the pointers stand right behind them, whichever instructions
  put the scalar in place.  A call takes five instructions for each round
  and a few around them.
-/
import HeliumKernels.Binary32.Fused
import HeliumKernels.Kernel.Request
import HeliumKernels.Proofs.Kernel.Looped
import HeliumKernels.Proofs.Machine.Trial

namespace HeliumKernels.Triad

open Machine

/-! ## The pieces of the script -/

/-- Save the frame and put the scalar in place. -/
def prologue (bits : UInt32) : Script :=
  [.emit (.push (RegSet.ofList [.r7, .lr]))] ++ Sequence.loadConstant scalar bits

/-- One vector. -/
def round : Script :=
  [next .load (QReg.ofField 0) b, next .load (QReg.ofField 1) a,
    .emit (.vfmaScalar (QReg.ofField 0) (QReg.ofField 1) scalar),
    next .store (QReg.ofField 0) out]

/-- Restore the frame and return. -/
def epilogue : Script :=
  [.emit (.pop (RegSet.ofList [.r7, .pc]))]

theorem script_eq (bits : UInt32) :
    script bits = Script.guarded entry body len true (prologue bits) round epilogue := by
  simp [script, Script.guarded, prologue, round, epilogue, loopLanes]

theorem straight_prologue (bits : UInt32) : (prologue bits).Straight := by
  simp [prologue]

theorem straight_round : round.Straight := by
  simp [round, next]

theorem straight_epilogue : epilogue.Straight := by
  simp [epilogue]

theorem assembles_pieces (bits : UInt32) :
    (prologue bits ++ (round ++ epilogue)).Assembles := by
  have hnext : ∀ access q rn, rn.General →
      ∃ word, (Instruction.vecMem access q rn 16 .postIndex).assemble = .ok word :=
    fun _ _ _ hrn => Instruction.assembles_vecMem hrn (by decide) (by decide)
  simp only [prologue, round, epilogue, next, Script.assembles_append, Script.assembles_emit,
    Script.assembles_nil, and_true]
  exact ⟨⟨⟨_, rfl⟩, Sequence.assembles_loadConstant (by decide) bits⟩,
    ⟨hnext _ _ _ (by decide), hnext _ _ _ (by decide),
      Instruction.assembles_vfmaScalar (by decide), hnext _ _ _ (by decide)⟩, ⟨_, rfl⟩⟩

theorem length_prologue (bits : UInt32) : (prologue bits).length ≤ 3 := by
  have hload := Sequence.length_loadConstant scalar bits
  simp only [prologue, List.length_append, List.length_singleton]
  omega

/-! ## One round -/

variable {mulAdd : MulAdd} {bits : UInt32} {m m₀ m' : Machine}

/-- What a round with the given mask may change. -/
def roundTouch (mask : LaneMask) (m : Machine) : Touch where
  reg r := r = a ∨ r = b ∨ r = out
  vec q := q.val < 2
  block := True
  memory address := ∃ l : Lane, mask.get l = true ∧ address = laneAddress (m.reg out) l

section Round

variable {mask : LaneMask} {x y : Lane → UInt32}

/-- Nothing in the body changes the count or the predication, so all of it has one mask. -/
theorem leaves_of_frame {t : Touch} (htail : m.tailPredicated = true)
    (hmask : LaneMask.below LaneMask.all (m.reg .lr) = mask) (h : Frame t m m') (hlr : ¬t.reg .lr)
    (hblock : m'.vptRemaining = 0) : m'.Leaves mask 0 := by
  rw [← hmask, ← h.reg .lr hlr]
  exact leaves_of_tail hblock (h.tail.trans htail)

/-- The first half of a round loads the lanes that are left. -/
theorem achieves_fetch (hblock : m.vptRemaining = 0) (htail : m.tailPredicated = true)
    (hmask : LaneMask.below LaneMask.all (m.reg .lr) = mask)
    (ha : ∀ l : Lane, mask.get l = true → m.memory.read (laneAddress (m.reg a) l) = .ok (x l))
    (hb : ∀ l : Lane, mask.get l = true → m.memory.read (laneAddress (m.reg b) l) = .ok (y l)) :
    Achieves mulAdd [next .load (QReg.ofField 0) b, next .load (QReg.ofField 1) a]
      { reg := fun r => r = a ∨ r = b, vec := fun q => q.val < 2, block := True } m fun m' =>
        m'.vptRemaining = 0 ∧ m'.reg a = wordAddress (m.reg a) 4 ∧
        m'.reg b = wordAddress (m.reg b) 4 ∧ ∀ l : Lane, mask.get l = true →
          m'.lane (QReg.ofField 1) l = x l ∧ m'.lane (QReg.ofField 0) l = y l := by
  have hloadB : Achieves mulAdd [next .load (QReg.ofField 0) b] _ m _ :=
    achieves_vecLoad_post (hmask ▸ leaves_of_tail hblock htail) _ (by decide) (by decide)
      (by decide) hb
  refine hloadB.seq (fun m₁ hframe₁ hm₁ => ?_)
    ⟨fun _ => .inr, by rintro q rfl; decide, False.elim, fun _ => trivial, fun _ => False.elim⟩
  obtain ⟨hy, hblock₁, hb₁⟩ := hm₁
  have hloadA : Achieves mulAdd [next .load (QReg.ofField 1) a] _ m₁ _ :=
    achieves_vecLoad_post (leaves_of_frame htail hmask hframe₁ (by decide) hblock₁) _
      (by decide) (by decide) (by decide) fun l hl => by
        rw [hframe₁.reg a (by decide), hframe₁.memory.read_eq id]
        exact ha l hl
  -- the second load leaves the register of the first alone
  refine hloadA.mono
    ⟨fun _ => .inl, by rintro q rfl; decide, False.elim, fun _ => trivial, fun _ => False.elim⟩
    fun m₂ hframe₂ hm₂ => ?_
  obtain ⟨hx, hblock₂, ha₂⟩ := hm₂
  refine ⟨hblock₂, ?_, ?_, fun l hl => ⟨hx l hl, ?_⟩⟩
  · rw [ha₂, hframe₁.reg a (by decide)]
    rfl
  · rw [hframe₂.reg b (by decide), hb₁]
    rfl
  · rw [hframe₂.lane (QReg.ofField 0) l (by decide), hy l hl]

/-- The second half combines and stores them. -/
theorem achieves_combine (hblock : m.vptRemaining = 0) (htail : m.tailPredicated = true)
    (hmask : LaneMask.below LaneMask.all (m.reg .lr) = mask)
    (hout : ∀ l : Lane, mask.get l = true → m.memory.Writable (laneAddress (m.reg out) l)) :
    Achieves mulAdd [.emit (.vfmaScalar (QReg.ofField 0) (QReg.ofField 1) scalar),
        next .store (QReg.ofField 0) out] (roundTouch mask m) m fun m' =>
      m'.vptRemaining = 0 ∧ m'.reg a = m.reg a ∧ m'.reg b = m.reg b ∧
        m'.reg out = wordAddress (m.reg out) 4 ∧ ∀ l : Lane, mask.get l = true →
          m'.memory.read (laneAddress (m.reg out) l) = .ok (mulAdd (m.lane (QReg.ofField 1) l)
            (m.reg scalar) (m.lane (QReg.ofField 0) l)) := by
  have hfma : Achieves mulAdd [.emit (.vfmaScalar (QReg.ofField 0) (QReg.ofField 1) scalar)] _
      m _ :=
    achieves_vfmaScalar_masked (hmask ▸ leaves_of_tail hblock htail) _ _ (by decide)
  have hlow : ∀ q : QReg, q = QReg.ofField 0 → q.val < 2 := by decide
  refine hfma.seq (fun m₁ hframe₁ hm₁ => ?_)
    ⟨fun _ => False.elim, hlow, False.elim, fun _ => trivial, fun _ => False.elim⟩
  obtain ⟨hsum, hblock₁⟩ := hm₁
  have hout₁ : m₁.reg out = m.reg out := hframe₁.reg out id
  have hstore : Achieves mulAdd [next .store (QReg.ofField 0) out] _ m₁ _ :=
    achieves_vecStore_post (leaves_of_frame htail hmask hframe₁ id hblock₁) _ (by decide)
      (by decide) (by decide) fun l hl => by
        rw [hout₁]
        exact hframe₁.memory.writable_iff.mpr (hout l hl)
  refine hstore.mono ⟨fun _ hr => .inr (.inr hr), fun _ => False.elim, False.elim, fun _ => trivial,
    ?_⟩ fun m₂ hframe₂ hm₂ => ?_
  · rintro address ⟨l, hl, rfl⟩
    exact ⟨l, hl, by rw [hout₁]⟩
  · obtain ⟨hread, hblock₂, hout₂⟩ := hm₂
    refine ⟨hblock₂, ?_, ?_, ?_, fun l hl => ?_⟩
    · rw [hframe₂.reg a (show ¬a = out by decide), hframe₁.reg a id]
    · rw [hframe₂.reg b (show ¬b = out by decide), hframe₁.reg b id]
    · rw [hout₂, hout₁]
      rfl
    · rw [← hout₁, hread l hl, hsum l hl]

/-- A round handles the lanes that are left and moves on to the next vector. -/
theorem achieves_round (hblock : m.vptRemaining = 0) (htail : m.tailPredicated = true)
    (hmask : LaneMask.below LaneMask.all (m.reg .lr) = mask)
    (ha : ∀ l : Lane, mask.get l = true → m.memory.read (laneAddress (m.reg a) l) = .ok (x l))
    (hb : ∀ l : Lane, mask.get l = true → m.memory.read (laneAddress (m.reg b) l) = .ok (y l))
    (hout : ∀ l : Lane, mask.get l = true → m.memory.Writable (laneAddress (m.reg out) l)) :
    Achieves mulAdd round (roundTouch mask m) m fun m' => m'.vptRemaining = 0 ∧
      m'.reg a = wordAddress (m.reg a) 4 ∧ m'.reg b = wordAddress (m.reg b) 4 ∧
      m'.reg out = wordAddress (m.reg out) 4 ∧
      ∀ l : Lane, mask.get l = true →
        m'.memory.read (laneAddress (m.reg out) l) = .ok (mulAdd (x l) (m.reg scalar) (y l)) := by
  refine (achieves_fetch hblock htail hmask ha hb).seq (fun m₁ hframe₁ hm₁ => ?_)
    ⟨fun _ hr => hr.imp_right .inl, fun _ => id, False.elim, fun _ => trivial, fun _ => False.elim⟩
  obtain ⟨hblock₁, ha₁, hb₁, hlanes⟩ := hm₁
  have hout₁ : m₁.reg out = m.reg out := hframe₁.reg out (by decide)
  -- the output pointer moves in the second half only, so both halves name the same words
  have htouch : roundTouch mask m₁ = roundTouch mask m := by
    rw [roundTouch, hout₁]
    rfl
  have hmask₁ : LaneMask.below LaneMask.all (m₁.reg .lr) = mask := by
    rw [hframe₁.reg .lr (by decide)]
    exact hmask
  have hcombine : Achieves mulAdd _ (roundTouch mask m₁) m₁ _ :=
    achieves_combine hblock₁ (hframe₁.tail.trans htail) hmask₁ fun l hl => by
      rw [hout₁]
      exact hframe₁.memory.writable_iff.mpr (hout l hl)
  rw [htouch] at hcombine
  obtain ⟨m₂, hdoes, hframe₂, hblock₂, ha₂, hb₂, hout₂, hread⟩ := hcombine
  refine ⟨m₂, hdoes, hframe₂, hblock₂, ha₂.trans ha₁, hb₂.trans hb₁, ?_, fun l hl => ?_⟩
  · rw [hout₂, hout₁]
  · rw [← hout₁, hread l hl, (hlanes l hl).1, (hlanes l hl).2, hframe₁.reg scalar (by decide)]

end Round

/-! ## What a call relies on -/

/-- Lowest word of the kernel's stack. -/
def stackBase : UInt32 := 0x2FFFFFF8

/-- Words of the kernel's stack. -/
def OnStack (address : UInt32) : Prop :=
  ∃ n < 2, address = wordAddress stackBase n

instance (address : UInt32) : Decidable (OnStack address) :=
  inferInstanceAs (Decidable (∃ n < 2, address = wordAddress stackBase n))

/-- The arrays of a call. -/
structure Arrays where
  a : UInt32
  b : UInt32
  out : UInt32
  len : Nat

namespace Arrays

variable {s : Arrays} {memory : Memory}

/-- Arguments of the call. -/
def args (s : Arrays) : List UInt32 :=
  [s.a, s.b, s.out, UInt32.ofNat s.len]

/-- The words that a call may write: the output and its stack. -/
def Owned (s : Arrays) (address : UInt32) : Prop :=
  (∃ i < s.len, address = wordAddress s.out i) ∨ OnStack address

instance (s : Arrays) (address : UInt32) : Decidable (s.Owned address) :=
  inferInstanceAs (Decidable (_ ∨ _))

/-- The elements of the arrays and two words of stack are mapped, and what is written
    shares no word with what is only read. -/
structure Accessible (s : Arrays) (memory : Memory) : Prop where
  a_readable : ∀ i < s.len, memory.Readable (wordAddress s.a i)
  b_readable : ∀ i < s.len, memory.Readable (wordAddress s.b i)
  out_writable : ∀ i < s.len, memory.Writable (wordAddress s.out i)
  stack : ∀ n < 2, memory.Writable (wordAddress stackBase n)
  a_apart : ∀ i < s.len, ¬s.Owned (wordAddress s.a i)
  b_apart : ∀ i < s.len, ¬s.Owned (wordAddress s.b i)
  out_apart : ∀ i < s.len, ¬OnStack (wordAddress s.out i)

/-- Element `i` of the triad of the arrays that memory holds. -/
def result (s : Arrays) (mulAdd : MulAdd) (bits : UInt32) (memory : Memory) (i : Nat) : UInt32 :=
  mulAdd (memory.wordAt (wordAddress s.a i)) bits (memory.wordAt (wordAddress s.b i))

/-! ## Round after round -/

/-- After `c` rounds of a call from `m₀` the pointers have moved by `c` vectors and the
    results up to there are written. -/
structure Progress (s : Arrays) (mulAdd : MulAdd) (bits : UInt32) (m₀ : Machine) (c : Nat)
    (m : Machine) : Prop where
  a : m.reg Triad.a = wordAddress s.a (4 * c)
  b : m.reg Triad.b = wordAddress s.b (4 * c)
  out : m.reg Triad.out = wordAddress s.out (4 * c)
  scalar : m.reg Triad.scalar = bits
  sp : m.reg .sp = stackBase
  reg : ∀ r ∈ [Reg.r3, .r4, .r5, .r6, .r7, .r8, .r9, .r10, .r11], m.reg r = m₀.reg r
  lane : ∀ (q : QReg) (l : Lane), 2 ≤ q.val → m.lane q l = m₀.lane q l
  saved : m.memory.HoldsWords stackBase [m₀.reg .r7, m₀.reg .lr]
  writes : Memory.Writes s.Owned m₀.memory m.memory
  done : ∀ i < s.len, i < 4 * c →
    m.memory.read (wordAddress s.out i) = .ok (s.result mulAdd bits m₀.memory i)

/-- What the instructions of the loop change does not matter. -/
theorem Progress.counted {c : Nat} (h : s.Progress mulAdd bits m₀ c m) (count : UInt32)
    (tail : Bool) : s.Progress mulAdd bits m₀ c (m.counted count tail) where
  a := (reg_counted (by decide)).trans h.a
  b := (reg_counted (by decide)).trans h.b
  out := (reg_counted (by decide)).trans h.out
  scalar := (reg_counted (by decide)).trans h.scalar
  sp := (reg_counted (by decide)).trans h.sp
  reg r hr := by
    have hne : r ≠ .lr := by
      rintro rfl
      exact absurd hr (by decide)
    exact (reg_counted hne).trans (h.reg r hr)
  lane := h.lane
  saved := h.saved
  writes := h.writes
  done := h.done

/-- Words of vector `c` of an array. -/
theorem laneAddress_vector (base : UInt32) (c : Nat) (l : Lane) :
    laneAddress (wordAddress base (4 * c)) l = wordAddress base (4 * c + l.val) :=
  wordAddress_wordAddress base _ _

/-- A round that stores the next vector of results and spoils nothing makes progress. -/
theorem Progress.next {c : Nat} {mask : LaneMask} (h : s.Progress mulAdd bits m₀ c m)
    (haccess : s.Accessible m₀.memory) (hlen : s.len < 2 ^ 30)
    (hmask : ∀ l : Lane, mask.get l = true ↔ 4 * c + l.val < s.len)
    (hframe : Frame (roundTouch mask m) m m') (ha : m'.reg Triad.a = wordAddress (m.reg Triad.a) 4)
    (hb : m'.reg Triad.b = wordAddress (m.reg Triad.b) 4)
    (hout : m'.reg Triad.out = wordAddress (m.reg Triad.out) 4)
    (hread : ∀ l : Lane, mask.get l = true →
      m'.memory.read (laneAddress (m.reg Triad.out) l) =
        .ok (s.result mulAdd bits m₀.memory (4 * c + l.val))) :
    s.Progress mulAdd bits m₀ (c + 1) m' := by
  have hnext : ∀ base : UInt32,
      wordAddress (wordAddress base (4 * c)) 4 = wordAddress base (4 * (c + 1)) :=
    fun base => wordAddress_wordAddress base _ _
  have hkept : ∀ r, ¬(r = Triad.a ∨ r = Triad.b ∨ r = Triad.out) → m'.reg r = m.reg r := hframe.reg
  have hwritten : ∀ address, (roundTouch mask m).memory address →
      ∃ i < s.len, 4 * c ≤ i ∧ address = wordAddress s.out i := by
    rintro address ⟨l, hl, rfl⟩
    rw [h.out, laneAddress_vector]
    exact ⟨_, (hmask l).mp hl, Nat.le_add_right _ _, rfl⟩
  refine ⟨?_, ?_, ?_, ?_, ?_, fun r hr => ?_, fun q l hq => ?_, ?_, ?_, fun i hi hdone => ?_⟩
  · rw [ha, h.a, hnext]
  · rw [hb, h.b, hnext]
  · rw [hout, h.out, hnext]
  · rw [hkept Triad.scalar (by decide), h.scalar]
  · rw [hkept .sp (by decide), h.sp]
  · rw [hkept r, h.reg r hr]
    revert r
    decide
  · rw [hframe.lane q l (Nat.not_lt.mpr hq), h.lane q l hq]
  · refine h.saved.of_writes hframe.memory fun n hn hword => ?_
    obtain ⟨i, hi, -, heq⟩ := hwritten _ hword
    exact haccess.out_apart i hi ⟨n, hn, heq.symm⟩
  · refine h.writes.trans (hframe.memory.mono fun address hword => ?_)
    obtain ⟨i, hi, -, heq⟩ := hwritten _ hword
    exact .inl ⟨i, hi, heq⟩
  · by_cases hold : i < 4 * c
    · -- earlier results lie below the vector that this round writes
      rw [hframe.memory.read_eq, h.done i hi hold]
      intro hword
      obtain ⟨k, hk, hle, heq⟩ := hwritten _ hword
      have := wordAddress_injective (by omega) (by omega) heq
      omega
    · have hindex : 4 * c + (i - 4 * c) = i := by omega
      have hnew := hread ⟨i - 4 * c, by omega⟩ ((hmask _).mpr (by rw [hindex]; exact hi))
      rwa [h.out, laneAddress_vector, hindex] at hnew

/-- One round on the way: the lanes that are left are the elements of the next vector. -/
theorem Progress.exists_round {c : Nat} (h : s.Progress mulAdd bits m₀ c m)
    (haccess : s.Accessible m₀.memory) (hlen : s.len < 2 ^ 30) (hlooping : Looping true s.len c m) :
    ∃ m', Does mulAdd round m m' ∧ Looping true s.len c m' ∧
      s.Progress mulAdd bits m₀ (c + 1) m' := by
  have hmask := hlooping.get_mask_iff
  obtain ⟨m', hdoes, hframe, hblock', ha', hb', hout', hread⟩ : Achieves mulAdd round _ m _ :=
    achieves_round hlooping.block hlooping.predicated rfl
      (fun l hl => by
        rw [h.a, laneAddress_vector, h.writes.read_eq (haccess.a_apart _ ((hmask l).mp hl))]
        exact (haccess.a_readable _ ((hmask l).mp hl)).read_eq)
      (fun l hl => by
        rw [h.b, laneAddress_vector, h.writes.read_eq (haccess.b_apart _ ((hmask l).mp hl))]
        exact (haccess.b_readable _ ((hmask l).mp hl)).read_eq)
      fun l hl => by
        rw [h.out, laneAddress_vector]
        exact h.writes.writable_iff.mpr (haccess.out_writable _ ((hmask l).mp hl))
  have hlr : ¬(Reg.lr = Triad.a ∨ Reg.lr = Triad.b ∨ Reg.lr = Triad.out) := by decide
  rw [h.scalar] at hread
  exact ⟨m', hdoes, hlooping.of_frame hframe hlr hblock',
    h.next haccess hlen hmask hframe ha' hb' hout' hread⟩

/-! ## Calls -/

/-- The prologue gets everything ready for the first round. -/
theorem Accessible.achieves_prologue (haccess : s.Accessible m.memory) (mulAdd : MulAdd)
    (bits : UInt32) (h : m.Plain) (hsp : m.reg .sp = stackTop) (ha : m.reg Triad.a = s.a)
    (hb : m.reg Triad.b = s.b) (hout : m.reg Triad.out = s.out) :
    Achieves mulAdd (prologue bits)
      { reg := fun r => r = .sp ∨ r = Triad.scalar, memory := OnStack } m
      (s.Progress mulAdd bits m 0) := by
  have hpush : Achieves mulAdd [.emit (.push (RegSet.ofList [.r7, .lr]))]
      { reg := (· = .sp), memory := OnStack } m fun m' => m'.reg .sp = stackBase ∧
        m'.singles = m.singles ∧ m'.memory.HoldsWords stackBase [m.reg .r7, m.reg .lr] :=
    Sequence.achieves_push h.block ⟨_, rfl⟩ (by decide) (by decide) hsp (by decide) haccess.stack
  refine hpush.seq (fun m₁ hframe₁ hm₁ => ?_)
    ⟨fun _ => .inl, fun _ => id, id, id, fun _ => id⟩
  obtain ⟨hsp₁, -, hsaved⟩ := hm₁
  refine (Sequence.achieves_loadConstant ((hframe₁.block id).trans h.block) (by decide) bits).mono
    (Touch.regs_within fun _ => .inr) fun m₂ hframe₂ hscalar => ?_
  have hreg : ∀ r, r ≠ .sp → r ≠ Triad.scalar → m₂.reg r = m.reg r :=
    fun r hsp hscalar => (hframe₂.reg r hscalar).trans (hframe₁.reg r hsp)
  refine ⟨?_, ?_, ?_, hscalar, ?_, fun r hr => hreg r ?_ ?_, fun q l _ => ?_, ?_, ?_,
    fun i _ hi => absurd hi (by omega)⟩
  · rw [hreg Triad.a (by decide) (by decide), ha, Nat.mul_zero, wordAddress_zero]
  · rw [hreg Triad.b (by decide) (by decide), hb, Nat.mul_zero, wordAddress_zero]
  · rw [hreg Triad.out (by decide) (by decide), hout, Nat.mul_zero, wordAddress_zero]
  · rw [hframe₂.reg .sp (show ¬Reg.sp = Triad.scalar by decide), hsp₁]
  · rintro rfl
    exact absurd hr (by decide)
  · rintro rfl
    exact absurd hr (by decide)
  · rw [hframe₂.lane q l id, hframe₁.lane q l id]
  · exact hsaved.of_writes hframe₂.memory fun _ _ => id
  · exact (hframe₁.memory.mono fun _ => .inr).trans (hframe₂.memory.mono fun _ => False.elim)

/-- What a call has done when it returns: the results are written, no other word but
    those of its stack is, and the registers that the caller relies on are as they were. -/
structure Outcome (s : Arrays) (mulAdd : MulAdd) (bits : UInt32) (m m' : Machine) : Prop where
  writes : Memory.Writes s.Owned m.memory m'.memory
  result : ∀ i < s.len,
    m'.memory.read (wordAddress s.out i) = .ok (s.result mulAdd bits m.memory i)
  scalars : ∀ r ∈ [Reg.r4, .r5, .r6, .r7, .r8, .r9, .r10, .r11], m'.reg r = m.reg r
  vectors : ∀ (q : QReg) (l : Lane), 2 ≤ q.val → m'.lane q l = m.lane q l
  sp : m'.reg .sp = stackTop

theorem Outcome.withLimit (h : s.Outcome mulAdd bits m m') (limit : Nat) :
    s.Outcome mulAdd bits m (m'.withLimit limit) :=
  ⟨h.writes, h.result, h.scalars, h.vectors, h.sp⟩

theorem Outcome.tick (h : s.Outcome mulAdd bits m m') : s.Outcome mulAdd bits m m'.tick :=
  ⟨h.writes, h.result, h.scalars, h.vectors, h.sp⟩

/-- Instructions of a call. -/
def instructions (s : Arrays) (bits : UInt32) : Nat :=
  (prologue bits).length + (1 + 5 * rounds true true s.len) + 1

theorem instructions_le (h : s.len ≤ 2 ^ 24) : s.instructions bits ≤ defaultStepLimit := by
  have hprologue := length_prologue bits
  have hlimit : defaultStepLimit = 50000000 := rfl
  have hrounds : rounds true true s.len = max 0 ((s.len + 3) / 4) := rfl
  simp only [instructions, hrounds]
  omega

/-- The epilogue returns to the caller with everything restored. -/
theorem Progress.exists_return {c : Nat} (h : s.Progress mulAdd bits (enter s.args m) c m')
    (hplain : m'.Plain) (hc : s.len ≤ 4 * c) :
    ∃ m₁, Exits mulAdd (Instruction.pop (RegSet.ofList [.r7, .pc])).meaning returnAddress m' m₁ ∧
      s.Outcome mulAdd bits m m₁ := by
  have hreg := reg_enter s.args m
  have hsaved : m'.memory.HoldsWords (m'.reg .sp) ([m.reg .r7] ++ [returnAddress + 1]) := by
    have hsaved := h.saved
    rw [hreg .r7, hreg .lr] at hsaved
    rw [h.sp]
    exact hsaved
  obtain ⟨m₁, hreturns, hr7, hsp, hother, hlane, hmemory⟩ :=
    exists_returns_frame mulAdd hplain (show (RegSet.ofList [.r7, .pc]).toList = _ by rfl)
      (by rw [h.sp]; decide) hsaved
  refine ⟨m₁, hreturns, ?_, fun i hi => ?_, fun r hr => ?_, fun q l hq => ?_, ?_⟩
  · rw [hmemory]
    exact h.writes
  · rw [hmemory]
    exact h.done i hi (by omega)
  · by_cases hseven : r = .r7
    · rw [hseven, hr7]
    · rw [hother r hseven (ne_of_callee hr).2.1, h.reg r (List.mem_cons_of_mem _ hr)]
      exact reg_enter_of_callee _ m hr
  · rw [hlane]
    exact h.lane q l hq
  · rw [hsp, h.sp]
    rfl

/-- A call of code that holds the kernel returns within any limit that admits its
    instructions. -/
theorem Accessible.exists_call (haccess : s.Accessible m.memory) (hlen : s.len < 2 ^ 30)
    (mulAdd : MulAdd) {code : Array UInt16} {p q p' : Nat}
    (hcode : Script.GuardedAt code Triad.len true (prologue bits) round epilogue p q p')
    {limit : Nat} (hlimit : s.instructions bits ≤ limit) :
    ∃ r m', call mulAdd code s.args (m.withLimit limit) = .ok r m' ∧
      s.Outcome mulAdd bits m m' := by
  have hreg := reg_enter s.args m
  have hentered : s.Accessible (enter s.args m).memory := haccess
  obtain ⟨m₁, hdoes, hframe, hprogress⟩ := hentered.achieves_prologue mulAdd bits
    (plain_enter _ m) (hreg .sp) (hreg Triad.a) (hreg Triad.b) (hreg Triad.out)
  have hcount : (m₁.reg Triad.len).toNat = s.len := by
    rw [hprogress.reg Triad.len (by decide), hreg Triad.len]
    exact UInt32.toNat_ofNat_of_lt' (by show s.len < 2 ^ 32; omega)
  have hiterates : round.Iterates mulAdd true s.len (rounds true true s.len)
      (s.Progress mulAdd bits (enter s.args m)) :=
    fun c m' _ hlooping hprogress => hprogress.exists_round hentered hlen hlooping
  obtain ⟨m', hcall, houtcome, -⟩ :=
    hcode.exists_call (straight_prologue bits) straight_round (by decide) hdoes
      (hframe.plain id (plain_enter _ m)) hcount hprogress
      (fun _ _ count tail h => h.counted count tail)
      (show epilogue = [] ++ [.emit (.pop (RegSet.ofList [.r7, .pc]))] from rfl) Script.straight_nil
      hiterates
      (Q := s.Outcome mulAdd bits m)
      (fun m₂ hplain hprogress => by
        obtain ⟨m', hreturns, houtcome⟩ :=
          hprogress.exists_return hplain (le_stride_mul_rounds true true s.len)
        exact ⟨m₂, m', .nil, hreturns, houtcome⟩)
      rfl hlimit
  exact ⟨_, _, hcall, houtcome.tick.withLimit limit⟩

end Arrays

/-- The kernel is laid out in every buffer that has room for its directives. -/
theorem exists_fulfil (bits : UInt32) {buffer : Buffer} (hcapacity : 24 ≤ buffer.capacity) :
    ∃ kernel, buffer.fulfil (.triad bits) = .ok kernel ∧ kernel.faults = [] ∧
      ∃ p q, Script.GuardedAt kernel.code len true (prologue bits) round epilogue p q
        kernel.code.size := by
  have hprologue := length_prologue bits
  have hround : round.length = 4 := rfl
  have hepilogue : epilogue.length = 1 := rfl
  have hreach : Jump.reach = 2045 := rfl
  obtain ⟨kernel, hgenerate, hplaced, hfaults⟩ :=
    Script.exists_generate_guarded entry body true (by decide : len ≠ .sp ∧ len ≠ .pc)
      (straight_prologue bits) straight_round straight_epilogue (assembles_pieces bits) (by omega)
      buffer
  -- no directive takes more than two half-words, and there are at most twelve
  have hnone := hfaults (by omega)
  refine ⟨kernel, ?_, hnone, hplaced (by rw [Buffer.hasFatalFault, hnone]; rfl)⟩
  rw [Buffer.fulfil, Request.script, script_eq]
  exact hgenerate

/-! ## Trials -/

open Trial

variable {a b : Array UInt32} {count : Nat} {memory : Memory}

/-- The arrays of a trial. -/
def trialArrays (count : Nat) : Arrays :=
  ⟨aBase, bBase, cBase, count⟩

/-- The memory of a trial. -/
def TrialMemory (a b : Array UInt32) (count : Nat) (memory : Memory) : Prop :=
  Prepared (a.extract 0 count) (b.extract 0 count) (Array.replicate count 0) memory

theorem OnStack.le {address : UInt32} (h : OnStack address) : 0x2FFFFFF8 ≤ address.toNat := by
  obtain ⟨n, hn, rfl⟩ := h
  have hbase : stackBase.toNat = 0x2FFFFFF8 := rfl
  rw [toNat_wordAddress (by omega)]
  omega

/-- Words of a trial that lie outside the output and its stack. -/
theorem not_owned_of_lt (hcount : count ≤ 2 ^ 24) {address : UInt32}
    (h : address.toNat < 0x28000000) : ¬(trialArrays count).Owned address := by
  rintro (⟨i, hi, rfl⟩ | hstack)
  · change (wordAddress cBase i).toNat < _ at h
    change i < count at hi
    rw [toNat_wordAddress (by rw [toNat_cBase]; omega), toNat_cBase] at h
    omega
  · have := hstack.le
    omega

/-- In a trial a kernel finds its arrays and its stack. -/
theorem TrialMemory.accessible (h : TrialMemory a b count memory) (hcount : count ≤ 2 ^ 24)
    (ha : count ≤ a.size) (hb : count ≤ b.size) :
    (trialArrays count).Accessible memory := by
  have hstack : stackBase = wordAddress (stackTop - stackSize) 0x3FFE := rfl
  refine ⟨fun i hi => ⟨_, read_leading h.a_holds hi ha⟩,
    fun i hi => ⟨_, read_leading h.b_holds hi hb⟩,
    fun i hi => h.c_writable i (by rw [Array.size_replicate]; exact hi), fun n hn => ?_,
    fun i hi => not_owned_of_lt hcount ?_, fun i hi => not_owned_of_lt hcount ?_,
    fun i hi hstack => ?_⟩
  · rw [hstack, wordAddress_wordAddress]
    exact h.stack_writable _ (by omega)
  · change i < count at hi
    rw [show (trialArrays count).a = aBase from rfl,
      toNat_wordAddress (by rw [toNat_aBase]; omega), toNat_aBase]
    omega
  · change i < count at hi
    rw [show (trialArrays count).b = bBase from rfl,
      toNat_wordAddress (by rw [toNat_bBase]; omega), toNat_bBase]
    omega
  · have hle := hstack.le
    change i < count at hi
    rw [show (trialArrays count).out = cBase from rfl,
      toNat_wordAddress (by rw [toNat_cBase]; omega), toNat_cBase] at hle
    omega

/-- A trial from the machine that it prepares on. -/
theorem exists_triad_eq_runOn (mulAdd : MulAdd) (hcount : count ≤ 2 ^ 24) (ha : count ≤ a.size)
    (hb : count ≤ b.size) :
    ∃ memory, TrialMemory a b count memory ∧ ∀ limit code,
      Trial.triad mulAdd limit code a b count =
        runOn mulAdd ({ fresh with memory }.withLimit limit) code (trialArrays count).args >>=
          (fun m => do
            if !(← canaryIntact m count) then
              throw (.error (.memory (.unmapped (canaryAddress count) 4 "write")))
            m.memory.readWords cBase count) := by
  have hroom : Fits (a.extract 0 count) (b.extract 0 count) (Array.replicate count 0) := by
    constructor
    · rw [Array.size_extract]
      omega
    · rw [Array.size_extract]
      omega
    · rw [Array.size_replicate, canaryCount]
      omega
  obtain ⟨memory, hprepared, hmapped⟩ := hroom.exists_mapped
  refine ⟨memory, hprepared, fun limit code => ?_⟩
  obtain ⟨m₁, m₂, hmapA, hmapB, hmapC⟩ := hmapped limit
  simp only [Trial.triad, leading_eq ha, leading_eq hb, bind, Except.bind, hmapA, hmapB, hmapC]
  rfl

/-- After a call the canary is as it was. -/
theorem Arrays.Outcome.canaryIntact_eq (h : (trialArrays count).Outcome mulAdd bits m m')
    (hmemory : TrialMemory a b count m.memory) (hcount : count ≤ 2 ^ 24) :
    canaryIntact m' count = .ok true := by
  have height : canaryCount = 8 := rfl
  have hsize : (Array.replicate count (0 : UInt32)).size = count := Array.size_replicate
  have hintact := Prepared.canaryIntact_eq hmemory (by rw [hsize]; omega) h.writes
    fun n hn => by
      rw [hsize]
      -- the canary is behind the output and below the stack
      rintro (⟨i, hi, heq⟩ | hstack)
      · change i < count at hi
        have := wordAddress_injective (by omega) (by omega) heq
        omega
      · have hle := hstack.le
        rw [toNat_wordAddress (by rw [toNat_cBase]; omega), toNat_cBase] at hle
        omega
  rwa [hsize] at hintact

/-- The words of a trial are the elements of its arrays. -/
theorem TrialMemory.result_eq (h : TrialMemory a b count memory) (ha : count ≤ a.size)
    (hb : count ≤ b.size) {i : Nat} (hi : i < count) :
    (trialArrays count).result mulAdd bits memory i = mulAdd a[i] bits b[i] := by
  have hwordA := read_leading h.a_holds hi ha
  have hwordB := read_leading h.b_holds hi hb
  have hreadA : memory.Readable (wordAddress aBase i) := ⟨_, hwordA⟩
  have hreadB : memory.Readable (wordAddress bBase i) := ⟨_, hwordB⟩
  rw [Arrays.result, ← Except.ok.inj (hreadA.read_eq.symm.trans hwordA),
    ← Except.ok.inj (hreadB.read_eq.symm.trans hwordB)]
  rfl

/-- After a call the output holds the results. -/
theorem Arrays.Outcome.readWords_eq (h : (trialArrays count).Outcome mulAdd bits m m')
    (hmemory : TrialMemory a b count m.memory) (hcount : count ≤ 2 ^ 24) (ha : count ≤ a.size)
    (hb : count ≤ b.size) :
    ∃ out, m'.memory.readWords cBase count = .ok out ∧ out.size = count ∧
      ∀ i (hi : i < count), out[i]? = some (mulAdd a[i] bits b[i]) := by
  have hholds : m'.memory.HoldsWords cBase
      ((List.range count).map ((trialArrays count).result mulAdd bits m.memory)) := by
    intro i hi
    rw [List.length_map, List.length_range] at hi
    have hresult := h.result i hi
    rw [show (trialArrays count).out = cBase from rfl] at hresult
    simpa using hresult
  have hread := hholds.readWords_eq
    (by rw [List.length_map, List.length_range, toNat_cBase]; omega)
  rw [List.length_map, List.length_range] at hread
  refine ⟨_, hread, by simp, fun i hi => ?_⟩
  have hvalue : (trialArrays count).result mulAdd bits m.memory i = _ :=
    hmemory.result_eq ha hb hi
  simp [hi, hvalue]

/-- The triad kernel computes its triad.  Generated with any scalar, for up to `2 ^ 24`
    elements, it returns within the default step limit: in a trial, where exactly the
    elements are mapped, with one result for each of them, and on every other machine that
    lets it access the elements and two words of stack, without writing anything else. -/
theorem trial_eq_mulAdd (bits : UInt32) (buffer : Buffer) (hcapacity : 24 ≤ buffer.capacity) :
    ∃ kernel, buffer.fulfil (.triad bits) = .ok kernel ∧ kernel.faults = [] ∧
      (∀ (mulAdd : MulAdd) (a b : Array UInt32) (count : Nat), count ≤ 2 ^ 24 →
        ∀ (_ : count ≤ a.size) (_ : count ≤ b.size), ∃ out,
          Trial.triad mulAdd defaultStepLimit kernel.code a b count = .ok out ∧
          out.size = count ∧ ∀ i (_ : i < count), out[i]? = some (mulAdd a[i] bits b[i])) ∧
      ∀ (mulAdd : MulAdd) (s : Arrays) (m : Machine), s.len ≤ 2 ^ 24 → s.Accessible m.memory →
        ∃ r m', call mulAdd kernel.code s.args (m.withLimit defaultStepLimit) = .ok r m' ∧
          s.Outcome mulAdd bits m m' := by
  obtain ⟨kernel, hkernel, hfaults, p, q, hcode⟩ := exists_fulfil bits hcapacity
  refine ⟨kernel, hkernel, hfaults, fun mulAdd a b count hcount ha hb => ?_,
    fun mulAdd s m hlen haccess =>
      haccess.exists_call (by omega) mulAdd hcode (Arrays.instructions_le hlen)⟩
  -- the machine of a trial lets the kernel access just what it needs
  obtain ⟨memory, hmemory, htrial⟩ := exists_triad_eq_runOn mulAdd hcount ha hb
  have haccess : (trialArrays count).Accessible { fresh with memory }.memory :=
    hmemory.accessible hcount ha hb
  have hlen : (trialArrays count).len ≤ 2 ^ 24 := hcount
  obtain ⟨r, m', hcall, houtcome⟩ :=
    haccess.exists_call (by omega) mulAdd hcode (Arrays.instructions_le hlen)
  obtain ⟨out, hread, hsize, hvalues⟩ := houtcome.readWords_eq hmemory hcount ha hb
  refine ⟨out, ?_, hsize, hvalues⟩
  rw [htrial, runOn_eq_ok hcall]
  simp only [bind, Except.bind, houtcome.canaryIntact_eq hmemory hcount, Bool.not_true,
    Bool.false_eq_true, ↓reduceIte]
  exact hread

/-- Arrays of five elements, so that the second round is masked to one lane. -/
def narrowArrays : Arrays :=
  ⟨0x20000000, 0x20001000, 0x20002000, 5⟩

/-- A machine that was stopped inside a tail-predicated loop, with nothing mapped but the
    elements of the arrays and two words of stack. -/
def narrowMachine : Machine :=
  { Machine.fresh with
    memory := ⟨[⟨0x20000000, Bytes.ofWords (.replicate 5 0x40000000), false⟩,
      ⟨0x20001000, Bytes.ofWords (.replicate 5 0x3F800000), false⟩,
      ⟨0x20002000, Bytes.zeros 20, true⟩, ⟨stackBase, Bytes.zeros 8, true⟩]⟩
    vptRemaining := 2
    tailPredicated := true }

theorem accessible_narrowMachine : narrowArrays.Accessible narrowMachine.memory where
  a_readable := by decide +kernel
  b_readable := by decide +kernel
  out_writable := by decide +kernel
  stack := by decide +kernel
  a_apart := by decide +kernel
  b_apart := by decide +kernel
  out_apart := by decide +kernel

/-- A scalar that takes two instructions, and one element more than a vector holds. -/
theorem trial_eq_mulAdd_narrow :
    ∃ kernel, Buffer.fulfil ⟨#[], 64, 0, [], false⟩ (.triad 0x40490FDB) = .ok kernel ∧
      kernel.faults = [] ∧
      (∃ out, Trial.triad Binary32.mulAdd defaultStepLimit kernel.code
          (.replicate 7 0x40000000) (.replicate 5 0x3F800000) 5 = .ok out ∧ out.size = 5 ∧
        ∀ i < 5, out[i]? = some (Binary32.mulAdd 0x40000000 0x40490FDB 0x3F800000)) ∧
      ∃ r m', call Binary32.mulAdd kernel.code [0x20000000, 0x20001000, 0x20002000, 5]
          (narrowMachine.withLimit defaultStepLimit) = .ok r m' ∧
        narrowArrays.Outcome Binary32.mulAdd 0x40490FDB narrowMachine m' := by
  obtain ⟨kernel, hkernel, hfaults, htrial, hcall⟩ :=
    trial_eq_mulAdd 0x40490FDB ⟨#[], 64, 0, [], false⟩ (by decide)
  obtain ⟨out, hrun, hsize, hvalues⟩ := htrial Binary32.mulAdd (.replicate 7 0x40000000)
    (.replicate 5 0x3F800000) 5 (by decide) (by decide) (by decide)
  refine ⟨kernel, hkernel, hfaults, ⟨out, hrun, hsize, fun i hi => ?_⟩,
    hcall Binary32.mulAdd narrowArrays narrowMachine (by decide) accessible_narrowMachine⟩
  rw [hvalues i hi, Array.getElem_replicate, Array.getElem_replicate]

end HeliumKernels.Triad
