/-
  HeliumKernels.Proofs.Kernel.Bracket

  The bracket of a function: code that saves registers and, somewhere behind
  it, code that restores them and returns.  Whatever runs in between, if it
  ends with the stack pointer and the saved words as it found them, the
  caller goes on at its return address with its registers as they were.
-/
import HeliumKernels.Binary32.Fused
import HeliumKernels.Proofs.Assembly.Span
import HeliumKernels.Proofs.Kernel.Sequence
import HeliumKernels.Proofs.Machine.Straight

namespace HeliumKernels

open Machine Assembler

/-! ## Register lists -/

namespace RegSet

theorem isEmpty_insert (s : RegSet) (r : Reg) : (s.insert r).isEmpty = false := by
  have hmem : (s.insert r).contains r = true := by simp [contains_insert]
  rw [isEmpty, beq_eq_false_iff_ne]
  intro hempty
  rw [contains, hempty] at hmem
  simp at hmem

variable {regs : RegSet} (hregs : ∀ r, regs.contains r = true → r.num ≤ 12)

include hregs

theorem contains_eq_false {r : Reg} (hr : 12 < r.num) : regs.contains r = false := by
  by_contra h
  have := hregs r (by simpa using h)
  omega

/-- The link register and the program counter stand behind the general registers. -/
theorem toList_insert {last : Reg} (hlast : last = .lr ∨ last = .pc) :
    (regs.insert last).toList = regs.toList ++ [last] := by
  have hfront : ∀ r ∈ Reg.all.take 13, (regs.insert last).contains r = regs.contains r := by
    intro r hr
    have hne : last ≠ r := by
      rintro rfl
      rcases hlast with rfl | rfl <;> exact absurd hr (by decide)
    rw [contains_insert, decide_eq_false hne, Bool.or_false]
  -- members are listed by number, and these two numbers are the highest
  have hall : Reg.all = Reg.all.take 13 ++ [.sp, .lr, .pc] := rfl
  have hsp := contains_eq_false hregs (r := .sp) (by decide)
  have hlr := contains_eq_false hregs (r := .lr) (by decide)
  have hpc := contains_eq_false hregs (r := .pc) (by decide)
  rw [toList, toList, hall, List.filter_append, List.filter_append, List.filter_congr hfront]
  rcases hlast with rfl | rfl <;> simp [contains_insert, hsp, hlr, hpc]

theorem one_lt_size {last : Reg} (hlast : last = .lr ∨ last = .pc)
    (hwide : (regs.insert last).isLowPlus last = false) : 1 < (regs.insert last).size := by
  rw [size, toList_insert hregs hlast, List.length_append, List.length_singleton]
  by_contra hshort
  -- a set without another member has the narrow form
  have hnone : regs.toList = [] := List.eq_nil_of_length_eq_zero (by omega)
  rw [isLowPlus, toList_insert hregs hlast, hnone] at hwide
  simp at hwide

/-- The narrow form takes any low registers, the wide one at least two. -/
theorem exists_assembleStack {last : Reg} {barred : Bool} (hlast : last = .lr ∨ last = .pc)
    (hbarred : barred = false) (narrow wide : Nat) :
    ∃ word, Instruction.assembleStack narrow wide last barred (regs.insert last) = .ok word := by
  rw [Instruction.assembleStack, isEmpty_insert, if_neg (by decide)]
  split
  · exact ⟨_, rfl⟩
  · next hwide =>
    have hsize := one_lt_size hregs hlast (by simpa using hwide)
    have hsp := contains_eq_false hregs (r := .sp) (by decide)
    rw [if_neg]
    · exact ⟨_, rfl⟩
    · rcases hlast with rfl | rfl <;> simp [contains_insert, hsp, hbarred, hsize]

theorem assembles_push : ∃ word, (Instruction.push (regs.insert .lr)).assemble = .ok word := by
  have hpc := contains_eq_false hregs (r := .pc) (by decide)
  exact exists_assembleStack hregs (.inl rfl) (by simp [contains_insert, hpc]) _ _

theorem assembles_pop : ∃ word, (Instruction.pop (regs.insert .pc)).assemble = .ok word := by
  have hlr := contains_eq_false hregs (r := .lr) (by decide)
  exact exists_assembleStack hregs (.inr rfl) (by simp [contains_insert, hlr]) _ _

end RegSet

/-- Appended wherever there is room for it, a script records nothing. -/
def Script.Silent (s : Script) : Prop :=
  ∀ a : Assembler, a.buffer.exhausted = false →
    a.buffer.cursor + s.span ≤ a.buffer.capacity →
  ∃ a', a.run s = .ok a' ∧ a'.buffer.exhausted = false ∧ a'.buffer.faults = a.buffer.faults ∧
    a'.buffer.cursor = a.buffer.cursor + s.span

namespace Sequence

/-! ## The frame on the stack -/

/-- Words that the saved vector registers take. -/
def vectorWords (vector : Bool) : Nat :=
  if vector then 2 * savedCount else 0

/-- Words that the saved registers and the return address take. -/
def savedWords (regs : RegSet) (vector : Bool) : Nat :=
  vectorWords vector + (regs.insert .lr).size

/-- Below the stack pointer there are words from `base` on that can be written. -/
structure StackRoom (words : Nat) (base : UInt32) (m : Machine) : Prop where
  sp : (m.reg .sp).toNat = base.toNat + 4 * words
  writable : ∀ n < words, m.memory.Writable (wordAddress base n)

/-- The stack holds registers as they were in an earlier state. -/
structure Saved (regs : RegSet) (vector : Bool) (base : UInt32) (entry m : Machine) : Prop where
  sp : m.reg .sp = base
  vectors : vector = true →
    m.memory.HoldsWords base ((halves savedCount savedFirst).map entry.single)
  scalars : m.memory.HoldsWords (wordAddress base (vectorWords vector))
    ((regs.insert .lr).toList.map entry.reg)

/-- Saving changes the stack pointer and the words of the frame. -/
def saveTouch (regs : RegSet) (vector : Bool) (base : UInt32) : Touch where
  reg := (· = .sp)
  memory a := ∃ n < savedWords regs vector, a = wordAddress base n

/-- What a function leaves as it found it. -/
structure Restored (regs : RegSet) (vector : Bool) (entry m : Machine) : Prop where
  scalars : ∀ r, regs.contains r = true → m.reg r = entry.reg r
  sp : m.reg .sp = entry.reg .sp
  vectors : vector = true → ∀ (q : QReg) (l : Lane), 4 ≤ q.val → m.lane q l = entry.lane q l

variable {mulAdd : MulAdd} {regs : RegSet} {vector : Bool} {base : UInt32}
  {entry m m₁ m₂ : Machine}

theorem StackRoom.sp_eq {words : Nat} (h : StackRoom words base m) :
    m.reg .sp = wordAddress base words := by
  have := (m.reg .sp).toNat_lt
  have := h.sp
  apply UInt32.toNat.inj
  rw [toNat_wordAddress (by omega), h.sp]

/-- Words that nothing wrote to hold what they held. -/
theorem Saved.of_read_eq (h : Saved regs vector base entry m₁) (hsp : m₂.reg .sp = m₁.reg .sp)
    (hread : ∀ n < savedWords regs vector,
      m₂.memory.read (wordAddress base n) = m₁.memory.read (wordAddress base n)) :
    Saved regs vector base entry m₂ where
  sp := hsp.trans h.sp
  vectors hvector n hn := by
    rw [List.length_map, length_halves] at hn
    rw [hread n (by rw [savedWords, vectorWords, if_pos hvector]; omega)]
    exact h.vectors hvector n _
  scalars n hn := by
    have hsize : n < (regs.insert .lr).size := by rwa [List.length_map] at hn
    rw [wordAddress_wordAddress, hread _ (by rw [savedWords]; omega), ← wordAddress_wordAddress]
    exact h.scalars n hn

/-- Restoring the vector registers, if they were saved. -/
theorem Saved.achieves_vectors (h : Saved regs vector base entry m) (hblock : m.vptRemaining = 0)
    (hroom : StackRoom (savedWords regs vector) base entry) :
    Achieves mulAdd (if vector then [.emit (.vpop savedFirst savedCount)] else [])
      { reg := (· = .sp), vec := fun _ => True } m
      fun m₁ => m₁.reg .sp = wordAddress base (vectorWords vector) ∧
        (vector = true → ∀ (q : QReg) (l : Lane), 4 ≤ q.val → m₁.lane q l = entry.lane q l) := by
  cases vector with
  | false => exact .nil ⟨h.sp.trans (wordAddress_zero base).symm, nofun⟩
  | true =>
    have hlt := (entry.reg .sp).toNat_lt
    have hsp := hroom.sp
    have hwords : savedWords regs true = 16 + (regs.insert .lr).size := rfl
    have hcount : savedCount = 8 := rfl
    have hmem : ∀ (q : QReg) (l : Lane), 4 ≤ q.val →
        laneIndex q l ∈ halves savedCount savedFirst := by decide
    have hvectors := h.vectors rfl
    rw [← h.sp] at hvectors
    have hpop : Achieves mulAdd [.emit (.vpop savedFirst savedCount)] _ m _ :=
      achieves_vpop (by decide) hblock ⟨_, rfl⟩ (by rw [h.sp]; omega) hvectors
    refine hpop.mono ⟨fun _ => id, fun _ _ => trivial, id, id, fun _ => id⟩
      fun m₁ _ ⟨hsp₁, hlanes⟩ => ⟨?_, fun _ q l hq => hlanes q l (hmem q l hq)⟩
    rw [hsp₁, h.sp]
    rfl

section Bracket

variable (hregs : ∀ r, regs.contains r = true → r.num ≤ 12)

include hregs

/-- Saving puts the frame on the stack and writes nowhere else. -/
theorem achieves_save_frame (hblock : m.vptRemaining = 0)
    (hroom : StackRoom (savedWords regs vector) base m) :
    Achieves mulAdd (save regs vector) (saveTouch regs vector base) m
      (Saved regs vector base m) := by
  have hlt := (m.reg .sp).toNat_lt
  have hsp := hroom.sp
  -- neither the stack pointer nor the program counter is pushed
  have hmem : ∀ r, 12 < r.num → r ≠ .lr → r ∉ (regs.insert .lr).toList := by
    intro r hr hne
    rw [RegSet.mem_toList, RegSet.contains_insert, RegSet.contains_eq_false hregs hr]
    simpa using Ne.symm hne
  -- the vector registers, if any, come to lie below the others
  cases vector with
  | true =>
    have htrue : savedWords regs true = 2 * savedCount + (regs.insert .lr).size := rfl
    rw [saveTouch, htrue]
    rw [htrue] at hroom hsp
    exact (achieves_save hblock (RegSet.assembles_push hregs) (hmem .pc (by decide) nofun)
      (hmem .sp (by decide) nofun) hroom.sp_eq (by omega) hroom.writable).imp
      fun m' _ ⟨hbase, hvectors, hscalars⟩ => ⟨hbase, fun _ => hvectors, hscalars⟩
  | false =>
    have hfalse : savedWords regs false = (regs.insert .lr).size := Nat.zero_add _
    rw [saveTouch, hfalse]
    rw [hfalse] at hroom hsp
    refine (achieves_push hblock (RegSet.assembles_push hregs) (hmem .pc (by decide) nofun)
      (hmem .sp (by decide) nofun) hroom.sp_eq (by omega) hroom.writable).imp
      fun m' _ ⟨hbase, _, hscalars⟩ => ⟨hbase, nofun, ?_⟩
    rw [vectorWords, if_neg nofun, wordAddress_zero]
    exact hscalars

/-- Restoring takes the vector registers off the stack, if they were saved, and then the
    others and the return address. -/
theorem Saved.exists_restored (h : Saved regs vector base entry m) (hblock : m.vptRemaining = 0)
    (hroom : StackRoom (savedWords regs vector) base entry) (hodd : entry.reg .lr % 2 = 1)
    (mulAdd : MulAdd) :
    ∃ m₁ m₂, Does mulAdd (if vector then [.emit (.vpop savedFirst savedCount)] else []) m m₁ ∧
      Exits mulAdd (.pop (regs.insert .pc)) (entry.reg .lr - 1) m₁ m₂ ∧
      Restored regs vector entry m₂ := by
  obtain ⟨m₁, hdoes, hframe, hsp₁, hlanes⟩ : Achieves mulAdd _ _ m _ :=
    h.achieves_vectors hblock hroom
  have hlt := (entry.reg .sp).toNat_lt
  have hsp := hroom.sp
  have hlist := RegSet.toList_insert hregs (.inl rfl)
  have hsize : (regs.insert .lr).size = regs.toList.length + 1 := by
    rw [RegSet.size, hlist, List.length_append, List.length_singleton]
  have hwords : savedWords regs vector = vectorWords vector + (regs.toList.length + 1) := by
    rw [savedWords, hsize]
  -- with the vector registers gone, the stack pointer is at the others
  have hscalars : m₁.memory.HoldsWords (m₁.reg .sp)
      (regs.toList.map entry.reg ++ [entry.reg .lr]) := by
    have hholds := h.scalars
    rw [hlist, List.map_append] at hholds
    rw [hframe.memory.eq_of_none, hsp₁]
    exact hholds
  have hreturn : m₁.memory.read (wordAddress (m₁.reg .sp) regs.toList.length) =
      .ok (entry.reg .lr - 1 + 1) := by
    have hlast := hscalars.right.head
    rwa [List.length_map, ← UInt32.sub_add_cancel (entry.reg .lr) 1] at hlast
  -- the bit that says which instruction set to go on in is cleared
  have heven : (entry.reg .lr - 1) % 2 = 0 := by
    have hlr := congrArg UInt32.toNat hodd
    apply UInt32.toNat.inj
    simp only [UInt32.toNat_mod, UInt32.toNat_sub, UInt32.reduceToNat] at hlr ⊢
    omega
  refine ⟨m₁, _, hdoes, exits_pop ((hframe.block id).trans hblock)
    (RegSet.toList_insert hregs (.inr rfl)) ?_ ?_ hscalars.left hreturn heven, ?_, ?_, ?_⟩
  · rw [RegSet.mem_toList, RegSet.contains_eq_false hregs (by decide)]
    nofun
  · rw [hsp₁, toNat_wordAddress (by omega)]
    omega
  · intro r hr
    have hne : .sp ≠ r := by
      rintro rfl
      exact absurd (hregs .sp hr) (by decide)
    rw [reg_setReg_of_ne _ _ hne, reg_setRegs, if_pos (RegSet.mem_toList.mpr hr)]
  · rw [reg_setReg_self, hsp₁, wordAddress_wordAddress, ← hwords, hroom.sp_eq]
  · intro hvector q l hq
    rw [lane_setReg, lane_setRegs, hlanes hvector q l hq]

/-! ## The bracket in code -/

theorem assembles_save : (save regs vector).Assembles := by
  have hvpush : ∃ word, (Instruction.vpush savedFirst savedCount).assemble = .ok word := ⟨_, rfl⟩
  unfold save
  split <;> simp [RegSet.assembles_push hregs, hvpush]

theorem assembles_restoreAndReturn : (restoreAndReturn regs vector).Assembles := by
  have hvpop : ∃ word, (Instruction.vpop savedFirst savedCount).assemble = .ok word := ⟨_, rfl⟩
  unfold restoreAndReturn
  split <;> simp [RegSet.assembles_pop hregs, hvpop]

end Bracket

/-- Code that saves from position `p` on, up to `p₁`, and restores from `q` on.  However a
    state behind the first comes to stand in front of the second, with the stack pointer and
    the saved words unchanged and no pending block, the second restores the state before the
    first and goes on at its return address. -/
def Brackets (mulAdd : MulAdd) (code : Array UInt16) (regs : RegSet) (vector : Bool)
    (p p₁ q : Nat) : Prop :=
  ∀ (m : Machine) (base : UInt32), m.vptRemaining = 0 → m.reg .lr % 2 = 1 →
    StackRoom (savedWords regs vector) base m →
  ∃ m₁, Steps mulAdd (Program.ofCode code) (save regs vector).length
      (codeAddress p) m (codeAddress p₁) m₁ ∧
    m₁.reg .sp = base ∧ Frame (saveTouch regs vector base) m m₁ ∧
    ∀ m₂ : Machine, m₂.vptRemaining = 0 → m₂.reg .sp = m₁.reg .sp →
      (∀ n < savedWords regs vector,
        m₂.memory.read (wordAddress base n) = m₁.memory.read (wordAddress base n)) →
    ∃ m₃, Steps mulAdd (Program.ofCode code) (restoreAndReturn regs vector).length
        (codeAddress q) m₂ (m.reg .lr - 1) m₃ ∧
      Restored regs vector m m₃

theorem Restored.tick (h : Restored regs vector entry m) : Restored regs vector entry m.tick :=
  ⟨h.scalars, h.sp, h.vectors⟩

theorem brackets_of_placed (hregs : ∀ r, regs.contains r = true → r.num ≤ 12)
    {code : Array UInt16} {env env₁ env₂ env₃ : List (Label × Nat)} {p p₁ q q₁ : Nat}
    (hsave : Placed code env p (save regs vector) env₁ p₁) (hp₁ : 4096 + 2 * p₁ ≤ 0xFFFFFFF0)
    (hrestore : Placed code env₂ q (restoreAndReturn regs vector) env₃ q₁)
    (hq₁ : 4096 + 2 * q₁ ≤ 0xFFFFFFF0) : Brackets mulAdd code regs vector p p₁ q := by
  intro m base hblock hodd hroom
  obtain ⟨m₁, hdoes, hframe, hsaved⟩ : Achieves mulAdd (save regs vector) _ m _ :=
    achieves_save_frame hregs hblock hroom
  refine ⟨m₁, hdoes.steps_of_straight (straight_save regs vector) hsave hp₁, hsaved.sp, hframe,
    fun m₂ hblock₂ hsp hread => ?_⟩
  obtain ⟨m₃, m₄, hvectors, hexits, hrestored⟩ :=
    (hsaved.of_read_eq hsp hread).exists_restored hregs hblock₂ hroom hodd mulAdd
  -- all but the last instruction run on, and the last one exits
  have hbody := (Script.straight_append.mp (straight_restoreAndReturn regs vector)).1
  refine ⟨m₄.tick, ?_, hrestored.tick⟩
  rw [restoreAndReturn, List.length_append]
  exact hvectors.steps_of_exits (i := .pop (regs.insert .pc)) hbody hexits hrestore hq₁

/-- Saving and restoring record nothing where they fit.  Together they bracket whatever code
    stands between them. -/
theorem bracket_restores {regs : RegSet} (hregs : ∀ r, regs.contains r = true → r.num ≤ 12)
    (vector : Bool) :
    (save regs vector).Silent ∧ (restoreAndReturn regs vector).Silent ∧
    ∀ (b : Buffer) (before between after : Script) (a a₁ a₂ a₃ final : Assembler),
      (start b.reset).run before = .ok a → a.run (save regs vector) = .ok a₁ →
      a₁.run between = .ok a₂ → a₂.run (restoreAndReturn regs vector) = .ok a₃ →
      a₃.run after = .ok final → a₃.buffer.exhausted = false →
      codeBase.toNat + 2 * a₃.buffer.cursor ≤ returnAddress.toNat →
    ∀ mulAdd : MulAdd, Brackets mulAdd final.buffer.code regs vector a.buffer.cursor
      a₁.buffer.cursor a₂.buffer.cursor := by
  have hsave := straight_save regs vector
  have hrestore := straight_restoreAndReturn regs vector
  refine ⟨fun _ => run_straight hsave (assembles_save hregs),
    fun _ => run_straight hrestore (assembles_restoreAndReturn hregs), ?_⟩
  intro b before between after a a₁ a₂ a₃ final hbefore hrun₁ hrun₂ hrun₃ hafter hroom hend mulAdd
  obtain ⟨ws, ha, -⟩ := (sound_start b).run hbefore
  obtain ⟨ws₁, ha₁, -⟩ := ha.run hrun₁
  obtain ⟨ws₂, ha₂, hadv₂⟩ := ha₁.run hrun₂
  obtain ⟨ws₃, -, hadv₃⟩ := ha₂.run hrun₃
  -- with room behind the second there was room behind the first
  have hadv := hadv₂.trans hadv₃
  have hplaced₁ := ha.placed_straight hsave (assembles_save hregs) hrun₁ (hadv.room hroom)
    (run_append.mpr ⟨a₂, hrun₂, run_append.mpr ⟨a₃, hrun₃, hafter⟩⟩)
  have hplaced₃ := ha₂.placed_straight hrestore (assembles_restoreAndReturn hregs) hrun₃ hroom
    hafter
  have hcursor := hadv.cursor_le
  have hlimit : 4096 + 2 * a₃.buffer.cursor ≤ 0xFFFFFFF0 := hend
  exact brackets_of_placed hregs hplaced₁ (by omega) hplaced₃ hlimit

/-- A caller with nineteen words of stack. -/
def callingMachine : Machine :=
  let stack : Region := { base := 0x8000, bytes := ⟨Array.replicate 76 0⟩, writable := true }
  ((({ Machine.fresh with memory := .ofRegion stack }.setReg .sp 0x804C).setReg .lr 0x2001).setReg
    .r4 4).setReg .r8 8

/-- Two registers and the vector registers, of which one each is overwritten in between. -/
theorem bracket_restores_overwritten :
    let regs := RegSet.ofList [.r4, .r8]
    ∃ final m₁ m₃, (start (Buffer.reset ⟨#[], 9, 0, [], false⟩)).run
        (save regs true ++ ([.emit (.movImm .r4 7 .narrow8)] ++ restoreAndReturn regs true)) =
          .ok final ∧
      Steps Binary32.mulAdd (Program.ofCode final.buffer.code) 2 codeBase callingMachine
        (codeAddress 4) m₁ ∧
      Steps Binary32.mulAdd (Program.ofCode final.buffer.code) 2 (codeAddress 5)
        ((m₁.setReg .r4 7).setSingle (laneIndex 4 0) 7) 0x2000 m₃ ∧
      m₃.reg .r4 = 4 ∧ m₃.reg .r8 = 8 ∧ m₃.reg .sp = 0x804C ∧
      m₃.lane 4 0 = callingMachine.lane 4 0 := by
  intro regs
  have hregs : ∀ r, regs.contains r = true → r.num ≤ 12 := by
    intro r
    cases r <;> decide
  have hstack : StackRoom (savedWords regs true) 0x8000 callingMachine :=
    ⟨by decide, by decide⟩
  obtain ⟨a₁, a₂, a₃, hrun₁, hrun₂, hrun₃, hroom, hcursor₁, hcursor₂, hcursor₃⟩ :
      ∃ a₁ a₂ a₃, (start (Buffer.reset ⟨#[], 9, 0, [], false⟩)).run (save regs true) = .ok a₁ ∧
        a₁.run [.emit (.movImm .r4 7 .narrow8)] = .ok a₂ ∧
        a₂.run (restoreAndReturn regs true) = .ok a₃ ∧ a₃.buffer.exhausted = false ∧
        a₁.buffer.cursor = 4 ∧ a₂.buffer.cursor = 5 ∧ a₃.buffer.cursor = 9 :=
    ⟨_, _, _, rfl, rfl, rfl, by decide, by decide, by decide, by decide⟩
  obtain ⟨-, -, hbrackets⟩ := bracket_restores hregs true
  obtain ⟨m₁, hsteps, -, hframe, hrest⟩ := hbrackets _ [] _ [] _ a₁ a₂ a₃ a₃ rfl hrun₁ hrun₂
    hrun₃ rfl hroom (by rw [hcursor₃]; decide) Binary32.mulAdd callingMachine 0x8000 rfl rfl hstack
  obtain ⟨m₃, hsteps₃, hrestored⟩ := hrest ((m₁.setReg .r4 7).setSingle (laneIndex 4 0) 7)
    (hframe.block id) (reg_setReg_of_ne m₁ 7 (by decide)) fun _ _ => rfl
  rw [hcursor₁] at hsteps
  rw [hcursor₂] at hsteps₃
  exact ⟨a₃, m₁, m₃, run_append.mpr ⟨a₁, hrun₁, run_append.mpr ⟨a₂, hrun₂, hrun₃⟩⟩, hsteps,
    hsteps₃, hrestored.scalars .r4 (by decide), hrestored.scalars .r8 (by decide), hrestored.sp,
    hrestored.vectors rfl 4 0 (by decide)⟩

end Sequence

end HeliumKernels
