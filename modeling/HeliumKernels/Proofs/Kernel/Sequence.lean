/-
  HeliumKernels.Proofs.Kernel.Sequence

  What the short sequences achieve: a constant in a register, a constant
  added to a register, and the frame of a function.  Which encoding a value
  gets makes no difference to the outcome.
-/
import HeliumKernels.Kernel.Sequence
import HeliumKernels.Proofs.Kernel.Emit

namespace HeliumKernels

open Machine

namespace Sequence

/-! ## The choices -/

/-- A constant is put in a register by one move, or in two halves. -/
theorem loadConstant_cases (rd : Reg) (value : UInt32) :
    (∃ form, loadConstant rd value = [.emit (.movImm rd value form)] ∧ form ≠ .top16 ∧
      (rd.General → ∃ word, (Instruction.movImm rd value form).assemble = .ok word)) ∨
    loadConstant rd value =
      [.emit (.movImm rd (value % 0x10000) .plain16),
        .emit (.movImm rd (value / 0x10000) .top16)] := by
  unfold loadConstant
  split
  · rename_i hnarrow
    exact .inl ⟨_, rfl, nofun, fun _ => Instruction.assembles_movImm_narrow hnarrow.1 hnarrow.2⟩
  split
  · rename_i hmodified
    exact .inl ⟨_, rfl, nofun, fun hrd => Instruction.assembles_movImm_modified hrd hmodified⟩
  split
  · rename_i hplain
    exact .inl ⟨_, rfl, nofun, fun hrd => Instruction.assembles_movImm_plain hrd hplain⟩
  · exact .inr rfl

/-- A constant is added by nothing or a move if it is zero, and otherwise as an immediate
    operand or from a scratch register. -/
theorem addConstant_cases (rd rn : Reg) (value : Int) (scratch : Reg) :
    (value = 0 ∧ rd = rn ∧ addConstant rd rn value scratch = []) ∨
    (value = 0 ∧ addConstant rd rn value scratch = [.emit (.movReg rd rn)]) ∨
    (∃ form, addForm? rd rn (UInt32.ofNat value.natAbs) = some form ∧
      addConstant rd rn value scratch = [.emit (.addSubImm (if value < 0 then .sub else .add) rd rn
        (UInt32.ofNat value.natAbs) form)]) ∨
    (addForm? rd rn (UInt32.ofNat value.natAbs) = none ∧
      addConstant rd rn value scratch = loadConstant scratch (UInt32.ofNat value.natAbs) ++
        [.emit (.addSubReg (if value < 0 then .sub else .add) rd rn scratch 0 .wide)]) := by
  unfold addConstant
  split
  · rename_i hzero
    split
    · rename_i hsame
      exact .inl ⟨hzero, hsame, rfl⟩
    · exact .inr (.inl ⟨hzero, rfl⟩)
  · simp only
    split
    · rename_i form hform
      exact .inr (.inr (.inl ⟨form, hform, rfl⟩))
    · rename_i hform
      exact .inr (.inr (.inr ⟨hform, rfl⟩))

/-! ## Labels and lengths -/

@[simp] theorem straight_loadConstant (rd : Reg) (value : UInt32) :
    (loadConstant rd value).Straight := by
  rcases loadConstant_cases rd value with ⟨form, heq, -⟩ | heq <;> simp [heq]

@[simp] theorem straight_addConstant (rd rn : Reg) (value : Int) (scratch : Reg) :
    (addConstant rd rn value scratch).Straight := by
  rcases addConstant_cases rd rn value scratch with
    ⟨-, -, heq⟩ | ⟨-, heq⟩ | ⟨form, -, heq⟩ | ⟨-, heq⟩ <;> simp [heq]

@[simp] theorem straight_save (regs : RegSet) (vector : Bool) :
    (save regs vector).Straight := by
  unfold save
  split <;> simp

@[simp] theorem straight_restoreAndReturn (regs : RegSet) (vector : Bool) :
    (restoreAndReturn regs vector).Straight := by
  unfold restoreAndReturn
  split <;> simp

@[simp] theorem labels_loadConstant (rd : Reg) (value : UInt32) :
    (loadConstant rd value).labels = [] :=
  (straight_loadConstant rd value).labels_eq_nil

@[simp] theorem labels_addConstant (rd rn : Reg) (value : Int) (scratch : Reg) :
    (addConstant rd rn value scratch).labels = [] :=
  (straight_addConstant rd rn value scratch).labels_eq_nil

theorem length_loadConstant (rd : Reg) (value : UInt32) : (loadConstant rd value).length ≤ 2 := by
  rcases loadConstant_cases rd value with ⟨form, heq, -⟩ | heq <;> simp [heq]

theorem length_addConstant (rd rn : Reg) (value : Int) (scratch : Reg) :
    (addConstant rd rn value scratch).length ≤ 3 := by
  have hload := length_loadConstant scratch (UInt32.ofNat value.natAbs)
  rcases addConstant_cases rd rn value scratch with
    ⟨-, -, heq⟩ | ⟨-, heq⟩ | ⟨form, -, heq⟩ | ⟨-, heq⟩ <;> simp [heq]
  omega

/-! ## Encodings -/

theorem halves_le (value : UInt32) : value % 0x10000 ≤ 0xFFFF ∧ value / 0x10000 ≤ 0xFFFF := by
  have := value.toNat_lt
  rw [UInt32.le_iff_toNat_le, UInt32.le_iff_toNat_le, UInt32.toNat_mod, UInt32.toNat_div]
  simp only [UInt32.reduceToNat]
  omega

theorem assembles_loadConstant {rd : Reg} (hrd : rd.General) (value : UInt32) :
    (loadConstant rd value).Assembles := by
  rcases loadConstant_cases rd value with ⟨form, heq, -, hword⟩ | heq
  · simp [heq, hword hrd]
  · have hhalves := halves_le value
    simp [heq, Instruction.assembles_movImm_plain hrd hhalves.1,
      Instruction.assembles_movImm_top hrd hhalves.2]

theorem assembles_of_addForm? {rd rn : Reg} {magnitude : UInt32} {form : AddSubImmForm}
    (hrd : rd.General) (hrn : rn.General) (h : addForm? rd rn magnitude = some form) (op : AddSub) :
    ∃ word, (Instruction.addSubImm op rd rn magnitude form).assemble = .ok word := by
  unfold addForm? at h
  split at h
  · rename_i hnarrow
    obtain rfl := Option.some.inj h
    obtain ⟨rfl, hlow, hmag⟩ := hnarrow
    exact Instruction.assembles_addSubImm_narrow8 op hlow hmag
  split at h
  · rename_i hnarrow
    obtain rfl := Option.some.inj h
    exact Instruction.assembles_addSubImm_narrow3 op hnarrow.1 hnarrow.2.1 hnarrow.2.2
  split at h
  · rename_i hplain
    obtain rfl := Option.some.inj h
    exact Instruction.assembles_addSubImm_plain op hrd hrn hplain
  split at h
  · rename_i hmodified
    obtain rfl := Option.some.inj h
    exact Instruction.assembles_addSubImm_modified op hrd hrn hmodified
  · cases h

theorem assembles_addConstant {rd rn scratch : Reg} (hrd : rd.General) (hrn : rn.General)
    (hscratch : scratch.General) (value : Int) :
    (addConstant rd rn value scratch).Assembles := by
  rcases addConstant_cases rd rn value scratch with
    ⟨-, -, heq⟩ | ⟨-, heq⟩ | ⟨form, hform, heq⟩ | ⟨-, heq⟩
  · simp [heq]
  · simp [heq, Instruction.assembles_movReg hrd.2]
  · simp [heq, assembles_of_addForm? hrd hrn hform]
  · simp [heq, assembles_loadConstant hscratch,
      Instruction.assembles_addSubReg_wide _ hrd hrn hscratch]

/-! ## Constants -/

variable {mulAdd : MulAdd} {m : Machine}

theorem low_add_high (value : UInt32) :
    value % 0x10000 % 0x10000 + value / 0x10000 * 0x10000 = value := by
  apply UInt32.toNat.inj
  have := value.toNat_lt
  simp only [UInt32.toNat_add, UInt32.toNat_mul, UInt32.toNat_div, UInt32.toNat_mod,
    UInt32.reduceToNat]
  omega

theorem achieves_loadConstant (h : m.vptRemaining = 0) {rd : Reg} (hrd : rd.General)
    (value : UInt32) :
    Achieves mulAdd (loadConstant rd value) (Touch.regs (· = rd)) m fun m' => m'.reg rd = value := by
  rcases loadConstant_cases rd value with ⟨form, heq, hform, hword⟩ | heq
  · rw [heq]
    exact achieves_movImm h (hword hrd) hform
  · -- the low half clears the high one, which the second move then fills
    obtain ⟨hlow, hhigh⟩ := halves_le value
    rw [heq]
    refine Achieves.seq (achieves_movImm h (Instruction.assembles_movImm_plain hrd hlow) nofun)
      (fun m₁ hframe hm₁ => ?_) (.refl _)
    refine (achieves_movTop ((hframe.block id).trans h) hrd hhigh).imp fun m₂ _ hm₂ => ?_
    rw [hm₂, hm₁, low_add_high]

theorem add_ofNat_natAbs {value : Int} (h : 0 ≤ value) (x : UInt32) :
    x + UInt32.ofNat value.natAbs = x + UInt32.ofInt value := by
  apply UInt32.toNat.inj
  simp only [UInt32.ofInt, UInt32.toNat_add, UInt32.toNat_ofNat']
  omega

theorem sub_ofNat_natAbs {value : Int} (h : value < 0) (x : UInt32) :
    x - UInt32.ofNat value.natAbs = x + UInt32.ofInt value := by
  apply UInt32.toNat.inj
  have := x.toNat_lt
  simp only [UInt32.ofInt, UInt32.toNat_add, UInt32.toNat_sub, UInt32.toNat_ofNat']
  omega

theorem addSub_ofNat_natAbs (x : UInt32) (value : Int) :
    (addSub (if value < 0 then .sub else .add) x (UInt32.ofNat value.natAbs)).1 =
      x + UInt32.ofInt value := by
  split
  · rename_i hneg
    rw [addSub_sub, sub_ofNat_natAbs hneg]
  · rename_i hpos
    rw [addSub_add, add_ofNat_natAbs (by omega)]

/-- No immediate operand takes the magnitude of a value, so that adding it takes a
    second register. -/
def NeedsScratch (value : Int) : Prop :=
  0xFFF < UInt32.ofNat value.natAbs ∧
    ModifiedConstant.isEncodable (UInt32.ofNat value.natAbs) = false

instance (value : Int) : Decidable (NeedsScratch value) :=
  inferInstanceAs (Decidable (_ ∧ _))

theorem needsScratch_of_addForm? {rd rn : Reg} {value : Int}
    (h : addForm? rd rn (UInt32.ofNat value.natAbs) = none) : NeedsScratch value := by
  unfold addForm? at h
  split at h
  · cases h
  split at h
  · cases h
  split at h
  · cases h
  split at h
  · cases h
  · rename_i hplain hmodified
    exact ⟨UInt32.not_le.mp hplain, Bool.not_eq_true _ ▸ hmodified⟩

/-- Adding a constant; the scratch register may be the destination but not the
    source. -/
theorem achieves_addConstant_sparing (h : m.vptRemaining = 0) {rd rn scratch : Reg}
    (hrd : rd.General) (hrn : rn.General) (hscratch : scratch.General) (hne : scratch ≠ rn)
    (value : Int) :
    Achieves mulAdd (addConstant rd rn value scratch)
      (Touch.regs fun r => r = rd ∨ r = scratch ∧ NeedsScratch value) m
      fun m' => m'.reg rd = m.reg rn + UInt32.ofInt value := by
  have hzero : ∀ x : UInt32, x + UInt32.ofInt 0 = x := fun x => UInt32.add_zero x
  rcases addConstant_cases rd rn value scratch with
    ⟨rfl, rfl, heq⟩ | ⟨rfl, heq⟩ | ⟨form, hform, heq⟩ | ⟨hform, heq⟩
  all_goals rw [heq]
  · exact .nil (hzero _).symm
  · exact (achieves_movReg h hrd.2 hrn.2).mono (Touch.regs_within fun _ => Or.inl)
      fun m' _ hm' => hm'.trans (hzero _).symm
  · exact (achieves_addSubImm h hrn.2 (assembles_of_addForm? hrd hrn hform _)).mono
      (Touch.regs_within fun _ => Or.inl) fun m' _ hm' => hm'.trans (addSub_ofNat_natAbs _ _)
  · have hneeds : NeedsScratch value := needsScratch_of_addForm? hform
    refine (achieves_loadConstant h hscratch _).seq (fun m₁ hframe hm₁ => ?_)
      (Touch.regs_within fun _ hr => Or.inr ⟨hr, hneeds⟩)
    refine (achieves_addSubReg ((hframe.block id).trans h) hrn.2 hscratch.2
      (Instruction.assembles_addSubReg_wide _ hrd hrn hscratch)).mono
      (Touch.regs_within fun _ => Or.inl) fun m₂ _ hm₂ => ?_
    -- the scratch register was loaded first, so the source must be another one
    rw [hm₂, hm₁, hframe.reg rn (Ne.symm hne)]
    exact addSub_ofNat_natAbs _ _

/-- Adding a constant, when it does not matter whether it takes the scratch register. -/
theorem achieves_addConstant (h : m.vptRemaining = 0) {rd rn scratch : Reg} (hrd : rd.General)
    (hrn : rn.General) (hscratch : scratch.General) (hne : scratch ≠ rn) (value : Int) :
    Achieves mulAdd (addConstant rd rn value scratch) (Touch.regs fun r => r = rd ∨ r = scratch) m
      fun m' => m'.reg rd = m.reg rn + UInt32.ofInt value :=
  (achieves_addConstant_sparing h hrd hrn hscratch hne value).mono
    (Touch.regs_within fun _ => Or.imp_right And.left) fun _ _ => id

/-! ## The frame of a function -/

/-- Pushing registers writes their values below the stack pointer. -/
theorem achieves_push (h : m.vptRemaining = 0) {set : RegSet}
    (hword : ∃ word, (Instruction.push set).assemble = .ok word) (hpc : .pc ∉ set.toList)
    (hsp : .sp ∉ set.toList) {base : UInt32} (hbase : m.reg .sp = wordAddress base set.size)
    (hroom : base.toNat + 4 * set.size < 2 ^ 32)
    (hwritable : ∀ n < set.size, m.memory.Writable (wordAddress base n)) :
    Achieves mulAdd [.emit (.push set)]
      { reg := (· = .sp), memory := fun a => ∃ n < set.size, a = wordAddress base n } m
      fun m' => m'.reg .sp = base ∧ m'.singles = m.singles ∧
        m'.memory.HoldsWords base (set.toList.map m.reg) := by
  have hlength : (set.toList.map m.reg).length = set.size := List.length_map _
  have hwritable' := hwritable
  rw [← hlength] at hwritable'
  obtain ⟨hwrites, hholds⟩ := Memory.putAll_spec (by omega) hwritable'
  rw [hlength] at hwrites
  exact .emit hword (effect_push h hpc hsp hbase hroom hwritable)
    ⟨fun r hr => reg_setReg_of_ne m base (Ne.symm hr), fun _ _ _ => rfl, fun _ => rfl, fun _ => rfl,
      rfl, hwrites⟩
    ⟨reg_setReg_self m .sp base, rfl, hholds⟩

section Doubles

variable {first count : Nat} (hcount : 2 * (first + count) ≤ 32)

include hcount

/-- Pushing double registers. -/
theorem achieves_vpush (h : m.vptRemaining = 0)
    (hword : ∃ word, (Instruction.vpush first count).assemble = .ok word) {base : UInt32}
    (hbase : m.reg .sp = wordAddress base (2 * count)) (hroom : base.toNat + 8 * count < 2 ^ 32)
    (hwritable : ∀ n < 2 * count, m.memory.Writable (wordAddress base n)) :
    Achieves mulAdd [.emit (.vpush first count)]
      { reg := (· = .sp), memory := fun a => ∃ n < 2 * count, a = wordAddress base n } m
      fun m' => m'.reg .sp = base ∧
        m'.memory.HoldsWords base ((halves count first).map m.single) := by
  have hlength : ((halves count first).map m.single).length = 2 * count := by
    rw [List.length_map, length_halves]
  have hwritable' := hwritable
  rw [← hlength] at hwritable'
  obtain ⟨hwrites, hholds⟩ := Memory.putAll_spec (by omega) hwritable'
  rw [hlength] at hwrites
  exact .emit hword (effect_vpush h hcount hbase hroom hwritable)
    ⟨fun r hr => reg_setReg_of_ne m base (Ne.symm hr), fun _ _ _ => rfl, fun _ => rfl, fun _ => rfl,
      rfl, hwrites⟩
    ⟨reg_setReg_self m .sp base, hholds⟩

/-- Restoring double registers. -/
theorem achieves_vpop (h : m.vptRemaining = 0)
    (hword : ∃ word, (Instruction.vpop first count).assemble = .ok word) {values : SReg → UInt32}
    (hroom : (m.reg .sp).toNat + 8 * count < 2 ^ 32)
    (hholds : m.memory.HoldsWords (m.reg .sp) ((halves count first).map values)) :
    Achieves mulAdd [.emit (.vpop first count)]
      { reg := (· = .sp), vec := fun q => ∃ l, laneIndex q l ∈ halves count first } m
      fun m' => m'.reg .sp = wordAddress (m.reg .sp) (2 * count) ∧
        ∀ q l, laneIndex q l ∈ halves count first → m'.lane q l = values (laneIndex q l) := by
  have hframe := frame_setSingles m values (halves count first)
  refine .emit hword (effect_vpop h hcount hroom hholds)
    ⟨fun r hr => ?_, fun q l hq => hframe.lane q l hq, fun _ => hframe.predicate id,
      fun _ => hframe.block id, hframe.tail, hframe.memory⟩
    ⟨reg_setReg_self _ _ _, fun q l hq => ?_⟩
  · exact (reg_setReg_of_ne _ _ (Ne.symm hr)).trans (hframe.reg r id)
  · exact (single_setSingles m values _ _).trans (if_pos hq)

end Doubles

/-- Saving writes the callee-saved vector registers and, above them, the given
    registers and the return address. -/
theorem achieves_save (h : m.vptRemaining = 0) {set : RegSet}
    (hword : ∃ word, (Instruction.push (set.insert .lr)).assemble = .ok word)
    (hpc : .pc ∉ (set.insert .lr).toList) (hsp : .sp ∉ (set.insert .lr).toList) {base : UInt32}
    (hbase : m.reg .sp = wordAddress base (2 * savedCount + (set.insert .lr).size))
    (hroom : base.toNat + 4 * (2 * savedCount + (set.insert .lr).size) < 2 ^ 32)
    (hwritable : ∀ n < 2 * savedCount + (set.insert .lr).size,
      m.memory.Writable (wordAddress base n)) :
    Achieves mulAdd (save set true)
      { reg := (· = .sp)
        memory := fun a => ∃ n < 2 * savedCount + (set.insert .lr).size, a = wordAddress base n } m
      fun m' => m'.reg .sp = base ∧
        m'.memory.HoldsWords base ((halves savedCount savedFirst).map m.single) ∧
        m'.memory.HoldsWords (wordAddress base (2 * savedCount))
          ((set.insert .lr).toList.map m.reg) := by
  have hcount : savedCount = 8 := rfl
  have hmiddle : (wordAddress base (2 * savedCount)).toNat = base.toNat + 4 * (2 * savedCount) :=
    toNat_wordAddress (by omega)
  have hpush : Achieves mulAdd _ _ m _ :=
    achieves_push h hword hpc hsp (hbase.trans (wordAddress_wordAddress base _ _).symm)
      (by omega) fun n hn => by
        rw [wordAddress_wordAddress]
        exact hwritable _ (by omega)
  refine hpush.seq (fun m₁ hframe hpushed => ?_) ?_
  · obtain ⟨hsp₁, hsingles, hholds⟩ := hpushed
    have hvpush : Achieves mulAdd [.emit (.vpush savedFirst savedCount)] _ m₁ _ :=
      achieves_vpush (by decide) ((hframe.block id).trans h) ⟨_, rfl⟩ hsp₁
        (by omega) fun n hn =>
          hframe.memory.writable_iff.mpr (hwritable n (by omega))
    refine hvpush.mono ?_ fun m₂ hframe₂ hvpushed =>
      ⟨hvpushed.1, ?_, hholds.of_writes hframe₂.memory ?_⟩
    · refine ⟨fun _ => id, fun _ => id, id, id, ?_⟩
      rintro a ⟨n, hn, ha⟩
      exact ⟨n, by omega, ha⟩
    · have hsame : m₁.single = m.single := by
        funext s
        rw [single, single, hsingles]
      rw [← hsame]
      exact hvpushed.2
    · -- the vector registers lie below the others
      rintro n hn ⟨k, hk, heq⟩
      rw [wordAddress_wordAddress] at heq
      rw [List.length_map] at hn
      have : n < (set.insert .lr).size := hn
      have := wordAddress_injective (by omega) (by omega) heq
      omega
  · refine ⟨fun _ => id, fun _ => id, id, id, ?_⟩
    rintro a ⟨n, hn, ha⟩
    exact ⟨2 * savedCount + n, by omega, by rw [ha, wordAddress_wordAddress]⟩

/-- Restoring the other registers exits to the address that was saved with them. -/
theorem exits_pop (h : m.vptRemaining = 0) {set : RegSet} {regs : List Reg}
    {values : Reg → UInt32} {target : UInt32} (hset : set.toList = regs ++ [.pc])
    (hpc : .pc ∉ regs) (hroom : (m.reg .sp).toNat + 4 * (regs.length + 1) < 2 ^ 32)
    (hholds : m.memory.HoldsWords (m.reg .sp) (regs.map values))
    (htarget : m.memory.read (wordAddress (m.reg .sp) regs.length) = .ok (target + 1))
    (heven : target % 2 = 0) :
    Exits mulAdd (.pop set) target m
      ((m.setRegs values regs).setReg .sp (wordAddress (m.reg .sp) (regs.length + 1))) := by
  intro pc next
  rw [Run.bind_of_ok (laneMask_of_scalar h rfl pc)]
  exact execute_pop hset hpc hroom hholds htarget heven pc next _

end Sequence

end HeliumKernels
