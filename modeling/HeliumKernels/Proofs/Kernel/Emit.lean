/-
  HeliumKernels.Proofs.Kernel.Emit

  What single emitted instructions achieve.  Each statement takes the
  operands that the encoding form admits and gives the one register, vector
  or flag that changes.
-/
import HeliumKernels.Proofs.Encoding.Operand
import HeliumKernels.Proofs.Machine.Frame

namespace HeliumKernels

/-- Neither stack pointer nor program counter. -/
def Reg.General (r : Reg) : Prop :=
  r ≠ .sp ∧ r ≠ .pc

instance (r : Reg) : Decidable r.General :=
  inferInstanceAs (Decidable (_ ∧ _))

theorem Reg.isLow_iff {r : Reg} : r.isLow = true ↔ r.num < 8 := by
  simp [Reg.isLow]

theorem ModifiedConstant.exists_modified {value : UInt32}
    (h : ModifiedConstant.isEncodable value = true) : ∃ field, Operand.modified value = .ok field := by
  obtain ⟨field, hfield⟩ := Option.isSome_iff_exists.mp h
  exact ⟨field, Operand.modified_eq_ok.mpr hfield⟩

namespace Instruction

open Operand

/-! ## Operands that fit -/

section Assembles

variable {rd rn rm rt : Reg} {imm : UInt32}

theorem assembles_movImm_narrow (hrd : rd.isLow = true) (himm : imm ≤ 0xFF) :
    ∃ word, (movImm rd imm .narrow8).assemble = .ok word :=
  ⟨_, bind_eq_ok.mpr ⟨_, unsigned_eq_ok.mpr ⟨himm, rfl⟩,
    bind_eq_ok.mpr ⟨_, low_eq_ok.mpr ⟨Reg.isLow_iff.mp hrd, rfl⟩, rfl⟩⟩⟩

theorem assembles_movImm_modified (hrd : rd.General)
    (himm : ModifiedConstant.isEncodable imm = true) :
    ∃ word, (movImm rd imm .modified).assemble = .ok word := by
  obtain ⟨field, hfield⟩ := ModifiedConstant.exists_modified himm
  exact ⟨_, bind_eq_ok.mpr ⟨_, hfield, bind_eq_ok.mpr ⟨_, general_eq_ok.mpr ⟨hrd, rfl⟩, rfl⟩⟩⟩

theorem assembles_movImm_plain (hrd : rd.General) (himm : imm ≤ 0xFFFF) :
    ∃ word, (movImm rd imm .plain16).assemble = .ok word :=
  ⟨_, bind_eq_ok.mpr ⟨_, unsigned_eq_ok.mpr ⟨himm, rfl⟩,
    bind_eq_ok.mpr ⟨_, general_eq_ok.mpr ⟨hrd, rfl⟩, rfl⟩⟩⟩

theorem assembles_movImm_top (hrd : rd.General) (himm : imm ≤ 0xFFFF) :
    ∃ word, (movImm rd imm .top16).assemble = .ok word :=
  ⟨_, bind_eq_ok.mpr ⟨_, unsigned_eq_ok.mpr ⟨himm, rfl⟩,
    bind_eq_ok.mpr ⟨_, general_eq_ok.mpr ⟨hrd, rfl⟩, rfl⟩⟩⟩

theorem assembles_addSubImm_narrow8 (op : AddSub) (hrd : rd.isLow = true) (himm : imm ≤ 0xFF) :
    ∃ word, (addSubImm op rd rd imm .narrow8).assemble = .ok word :=
  ⟨_, guard_eq_ok.mpr ⟨fun h => h rfl, bind_eq_ok.mpr ⟨_, unsigned_eq_ok.mpr ⟨himm, rfl⟩,
    bind_eq_ok.mpr ⟨_, low_eq_ok.mpr ⟨Reg.isLow_iff.mp hrd, rfl⟩, rfl⟩⟩⟩⟩

theorem assembles_addSubImm_narrow3 (op : AddSub) (hrd : rd.isLow = true) (hrn : rn.isLow = true)
    (himm : imm ≤ 7) : ∃ word, (addSubImm op rd rn imm .narrow3).assemble = .ok word :=
  ⟨_, bind_eq_ok.mpr ⟨_, unsigned_eq_ok.mpr ⟨himm, rfl⟩,
    bind_eq_ok.mpr ⟨_, low_eq_ok.mpr ⟨Reg.isLow_iff.mp hrn, rfl⟩,
      bind_eq_ok.mpr ⟨_, low_eq_ok.mpr ⟨Reg.isLow_iff.mp hrd, rfl⟩, rfl⟩⟩⟩⟩

theorem assembles_addSubImm_plain (op : AddSub) (hrd : rd.General) (hrn : rn.General)
    (himm : imm ≤ 0xFFF) : ∃ word, (addSubImm op rd rn imm .plain12).assemble = .ok word :=
  ⟨_, bind_eq_ok.mpr ⟨_, unsigned_eq_ok.mpr ⟨himm, rfl⟩,
    bind_eq_ok.mpr ⟨_, general_eq_ok.mpr ⟨hrn, rfl⟩,
      bind_eq_ok.mpr ⟨_, general_eq_ok.mpr ⟨hrd, rfl⟩, rfl⟩⟩⟩⟩

theorem assembles_addSubImm_modified (op : AddSub) (hrd : rd.General) (hrn : rn.General)
    (himm : ModifiedConstant.isEncodable imm = true) :
    ∃ word, (addSubImm op rd rn imm .modified).assemble = .ok word := by
  obtain ⟨field, hfield⟩ := ModifiedConstant.exists_modified himm
  exact ⟨_, bind_eq_ok.mpr ⟨_, hfield, bind_eq_ok.mpr ⟨_, general_eq_ok.mpr ⟨hrn, rfl⟩,
    bind_eq_ok.mpr ⟨_, general_eq_ok.mpr ⟨hrd, rfl⟩, rfl⟩⟩⟩⟩

theorem assembles_addSubReg_wide (op : AddSub) (hrd : rd.General) (hrn : rn.General)
    (hrm : rm.General) : ∃ word, (addSubReg op rd rn rm 0 .wide).assemble = .ok word :=
  ⟨_, bind_eq_ok.mpr ⟨_, unsigned_eq_ok.mpr ⟨Nat.zero_le _, rfl⟩,
    bind_eq_ok.mpr ⟨_, general_eq_ok.mpr ⟨hrn, rfl⟩, bind_eq_ok.mpr ⟨_, general_eq_ok.mpr ⟨hrm, rfl⟩,
      bind_eq_ok.mpr ⟨_, general_eq_ok.mpr ⟨hrd, rfl⟩, rfl⟩⟩⟩⟩⟩

theorem assembles_addReg_acc (hrd : rd ≠ .pc) (hrm : rm ≠ .pc) :
    ∃ word, (addSubReg .add rd rd rm 0 .narrowAcc).assemble = .ok word :=
  ⟨_, bind_eq_ok.mpr ⟨_, unsigned_eq_ok.mpr ⟨Nat.zero_le _, rfl⟩,
    guard_eq_ok.mpr ⟨nofun, guard_eq_ok.mpr ⟨fun h => h rfl,
      bind_eq_ok.mpr ⟨_, notPc_eq_ok.mpr ⟨hrd, rfl⟩,
        bind_eq_ok.mpr ⟨_, notPc_eq_ok.mpr ⟨hrm, rfl⟩, rfl⟩⟩⟩⟩⟩⟩

theorem assembles_cmpImm (hrn : rn ≠ .pc) (himm : ModifiedConstant.isEncodable imm = true) :
    ∃ word, (cmpImm rn imm .modified).assemble = .ok word := by
  obtain ⟨field, hfield⟩ := ModifiedConstant.exists_modified himm
  exact ⟨_, bind_eq_ok.mpr ⟨_, hfield, bind_eq_ok.mpr ⟨_, notPc_eq_ok.mpr ⟨hrn, rfl⟩, rfl⟩⟩⟩

theorem assembles_cmpReg (hrn : rn ≠ .pc) (hrm : rm ≠ .pc) :
    ∃ word, (cmpReg rn rm).assemble = .ok word := by
  have hn : notPc rn "a compare operand" = .ok rn.num := notPc_eq_ok.mpr ⟨hrn, rfl⟩
  have hm : notPc rm "a compare operand" = .ok rm.num := notPc_eq_ok.mpr ⟨hrm, rfl⟩
  by_cases hlow : (rn.isLow && rm.isLow) = true
  · exact ⟨_, bind_eq_ok.mpr ⟨_, hn, bind_eq_ok.mpr ⟨_, hm, if_pos hlow⟩⟩⟩
  · exact ⟨_, bind_eq_ok.mpr ⟨_, hn, bind_eq_ok.mpr ⟨_, hm, if_neg hlow⟩⟩⟩

theorem assembles_movReg (hrd : rd ≠ .pc) : ∃ word, (movReg rd rm).assemble = .ok word :=
  ⟨_, bind_eq_ok.mpr ⟨_, notPc_eq_ok.mpr ⟨hrd, rfl⟩, rfl⟩⟩

theorem assembles_ldrImm_narrow {offset : Nat} (hrt : rt.isLow = true) (hrn : rn.isLow = true)
    (hoffset : offset ≤ 124) (haligned : offset % 4 = 0) :
    ∃ word, (ldrImm rt rn offset .offset .narrow).assemble = .ok word := by
  have hsigned : signed offset 0 124 = .ok (offset : Int) :=
    signed_eq_ok.mpr ⟨⟨by omega, by omega⟩, rfl⟩
  have haligned' : aligned offset 4 = .ok (offset : Int) := aligned_eq_ok.mpr ⟨by omega, rfl⟩
  have hn : low rn = .ok rn.num := low_eq_ok.mpr ⟨Reg.isLow_iff.mp hrn, rfl⟩
  have ht : low rt = .ok rt.num := low_eq_ok.mpr ⟨Reg.isLow_iff.mp hrt, rfl⟩
  simp only [assemble, assembleLdrImm, hsigned, hn, ht]
  exact ⟨_, bind_eq_ok.mpr ⟨_, rfl, bind_eq_ok.mpr ⟨_, haligned', rfl⟩⟩⟩

theorem assembles_ldrImm_wide {offset : Nat} (hrt : rt.General) (hrn : rn ≠ .pc)
    (hoffset : offset ≤ 0xFFF) :
    ∃ word, (ldrImm rt rn offset .offset .wide12).assemble = .ok word := by
  have hsigned : signed offset 0 0xFFF = .ok (offset : Int) :=
    signed_eq_ok.mpr ⟨⟨by omega, by omega⟩, rfl⟩
  have hn : notPc rn "a load base" = .ok rn.num := notPc_eq_ok.mpr ⟨hrn, rfl⟩
  have ht : general rt "a load destination" = .ok rt.num := general_eq_ok.mpr ⟨hrt, rfl⟩
  simp only [assemble, assembleLdrImm, hsigned, hn, ht]
  exact ⟨_, rfl⟩

theorem assembles_ldrImm_post {offset : Nat} (hrt : rt.General) (hrn : rn ≠ .pc) (hne : rn ≠ rt)
    (hoffset : offset ≤ 0xFF) :
    ∃ word, (ldrImm rt rn offset .postIndex .wide8).assemble = .ok word := by
  have hsigned : signed offset (-0xFF) 0xFF = .ok (offset : Int) :=
    signed_eq_ok.mpr ⟨⟨by omega, by omega⟩, rfl⟩
  have hn : notPc rn "a load base" = .ok rn.num := notPc_eq_ok.mpr ⟨hrn, rfl⟩
  have ht : general rt "a load destination" = .ok rt.num := general_eq_ok.mpr ⟨hrt, rfl⟩
  simp only [assemble, assembleLdrImm, ne_eq, reduceCtorEq, not_false_eq_true, not_true_eq_false,
    and_true, ↓reduceIte, hsigned, hn, ht, hne, and_false]
  exact ⟨_, rfl⟩

theorem assembles_ldrReg {shift : Nat} (hrt : rt.General) (hrn : rn ≠ .pc) (hrm : rm.General)
    (hshift : shift ≤ 3) : ∃ word, (ldrReg rt rn rm shift).assemble = .ok word :=
  ⟨_, bind_eq_ok.mpr ⟨_, unsigned_eq_ok.mpr ⟨hshift, rfl⟩,
    bind_eq_ok.mpr ⟨_, notPc_eq_ok.mpr ⟨hrn, rfl⟩, bind_eq_ok.mpr ⟨_, general_eq_ok.mpr ⟨hrm, rfl⟩,
      bind_eq_ok.mpr ⟨_, general_eq_ok.mpr ⟨hrt, rfl⟩, rfl⟩⟩⟩⟩⟩

theorem assembles_vecMem {access : Access} {q : QReg} {offset : Nat} {indexing : Indexing}
    (hrn : rn.General) (hoffset : offset ≤ 508) (haligned : offset % 4 = 0) :
    ∃ word, (vecMem access q rn offset indexing).assemble = .ok word :=
  ⟨_, bind_eq_ok.mpr ⟨_, signed_eq_ok.mpr
      ⟨⟨by unfold vectorOffsetMax; omega, by unfold vectorOffsetMax; omega⟩, rfl⟩,
    bind_eq_ok.mpr ⟨_, aligned_eq_ok.mpr ⟨by omega, rfl⟩,
      bind_eq_ok.mpr ⟨_, notPc_eq_ok.mpr ⟨hrn.2, rfl⟩,
        guard_eq_ok.mpr ⟨fun h => hrn.1 h.2, rfl⟩⟩⟩⟩⟩

theorem assembles_vpst {count : Nat} (hlow : 1 ≤ count) (hhigh : count ≤ 4) :
    ∃ word, (vpst count).assemble = .ok word :=
  ⟨_, if_pos ⟨hlow, hhigh⟩⟩

theorem assembles_vfmaScalar {qda qn : QReg} (hrm : rm.General) :
    ∃ word, (vfmaScalar qda qn rm).assemble = .ok word :=
  ⟨_, bind_eq_ok.mpr ⟨_, general_eq_ok.mpr ⟨hrm, rfl⟩, rfl⟩⟩

end Assembles

end Instruction

/-! ## What they achieve -/

namespace Machine

open Instruction

variable {mulAdd : MulAdd} {m : Machine}

theorem achieves_movImm (h : m.vptRemaining = 0) {rd : Reg} {imm : UInt32} {form : MovImmForm}
    (hword : ∃ word, (movImm rd imm form).assemble = .ok word) (hform : form ≠ .top16) :
    Achieves mulAdd [.emit (.movImm rd imm form)] (Touch.regs (· = rd)) m
      fun m' => m'.reg rd = imm := by
  obtain ⟨flags, heffect⟩ := effect_movImm mulAdd h rd imm (form == .narrow8)
  have hmeaning : (movImm rd imm form).meaning = .movImm rd imm (form == .narrow8) := by
    cases form <;> first | rfl | exact absurd rfl hform
  exact .emit hword (hmeaning ▸ heffect) (frame_setReg m rd imm flags) (reg_setReg_self m rd imm)

theorem achieves_movTop (h : m.vptRemaining = 0) {rd : Reg} (hrd : rd.General) {imm : UInt32}
    (himm : imm ≤ 0xFFFF) :
    Achieves mulAdd [.emit (.movImm rd imm .top16)] (Touch.regs (· = rd)) m
      fun m' => m'.reg rd = m.reg rd % 0x10000 + imm * 0x10000 := by
  refine .emit (assembles_movImm_top hrd himm) (effect_movTop h hrd.2 imm.toUInt16)
    (frame_setReg m rd _ m.flags) ((reg_setReg_self m rd _).trans ?_)
  have hlow : imm.toUInt16.toUInt32 = imm := by
    apply UInt32.toNat.inj
    have := UInt32.le_iff_toNat_le.mp himm
    simp only [UInt16.toNat_toUInt32, UInt32.toNat_toUInt16, UInt32.reduceToNat] at this ⊢
    omega
  rw [hlow]

theorem achieves_movReg (h : m.vptRemaining = 0) {rd rm : Reg} (hrd : rd ≠ .pc) (hrm : rm ≠ .pc) :
    Achieves mulAdd [.emit (.movReg rd rm)] (Touch.regs (· = rd)) m
      fun m' => m'.reg rd = m.reg rm :=
  .emit (assembles_movReg hrd) (effect_movReg h rd hrm) (frame_setReg m rd _ m.flags)
    (reg_setReg_self m rd _)

theorem achieves_addSubImm (h : m.vptRemaining = 0) {op : AddSub} {rd rn : Reg} (hrn : rn ≠ .pc)
    {imm : UInt32} {form : AddSubImmForm}
    (hword : ∃ word, (addSubImm op rd rn imm form).assemble = .ok word) :
    Achieves mulAdd [.emit (.addSubImm op rd rn imm form)] (Touch.regs (· = rd)) m
      fun m' => m'.reg rd = (addSub op (m.reg rn) imm).1 := by
  obtain ⟨flags, heffect⟩ := effect_addSubImm mulAdd h op rd hrn imm form
  exact .emit hword heffect (frame_setReg m rd _ flags) (reg_setReg_self m rd _)

theorem shiftLeft_zero (x : UInt32) : x <<< UInt32.ofNat 0 = x := by
  simp

theorem achieves_addSubReg (h : m.vptRemaining = 0) {op : AddSub} {rd rn rm : Reg} (hrn : rn ≠ .pc)
    (hrm : rm ≠ .pc) {form : AddSubRegForm}
    (hword : ∃ word, (addSubReg op rd rn rm 0 form).assemble = .ok word) :
    Achieves mulAdd [.emit (.addSubReg op rd rn rm 0 form)] (Touch.regs (· = rd)) m
      fun m' => m'.reg rd = (addSub op (m.reg rn) (m.reg rm)).1 := by
  obtain ⟨flags, heffect⟩ := effect_addSubReg mulAdd h op rd hrn hrm 0 form
  rw [shiftLeft_zero] at heffect
  exact .emit hword heffect (frame_setReg m rd _ flags) (reg_setReg_self m rd _)

theorem frame_flags (t : Touch) (m : Machine) (flags : Flags) : Frame t m { m with flags } :=
  ⟨fun _ _ => rfl, fun _ _ _ => rfl, fun _ => rfl, fun _ => rfl, rfl, .refl⟩

theorem achieves_cmpImm (h : m.Plain) {rn : Reg} (hrn : rn ≠ .pc) {imm : UInt32}
    (himm : ModifiedConstant.isEncodable imm = true) {t : Touch} :
    Achieves mulAdd [.emit (.cmpImm rn imm .modified)] t m
      fun m' => m'.flags.z = decide (m.reg rn = imm) :=
  .emit (assembles_cmpImm hrn himm) (effect_cmpImm mulAdd h hrn imm) (frame_flags t m _)
    (z_arithmeticFlags_sub _ _ m.flags)

theorem achieves_cmpReg (h : m.Plain) {rn rm : Reg} (hrn : rn ≠ .pc) (hrm : rm ≠ .pc) {t : Touch} :
    Achieves mulAdd [.emit (.cmpReg rn rm)] t m
      fun m' => m'.flags.z = decide (m.reg rn = m.reg rm) :=
  .emit (assembles_cmpReg hrn hrm) (effect_cmpReg mulAdd h hrn hrm) (frame_flags t m _)
    (z_arithmeticFlags_sub _ _ m.flags)

theorem achieves_ldrImm (h : m.Plain) {rt rn : Reg} (hrn : rn ≠ .pc) {offset : Nat}
    {form : LdrImmForm} (hword : ∃ word, (ldrImm rt rn offset .offset form).assemble = .ok word)
    {value : UInt32} (hread : m.memory.read (m.reg rn + UInt32.ofNat offset) = .ok value) :
    Achieves mulAdd [.emit (.ldrImm rt rn offset .offset form)] (Touch.regs (· = rt)) m
      fun m' => m'.reg rt = value :=
  .emit hword (effect_ldrImm h rt hrn hread) (frame_setReg m rt value m.flags)
    (reg_setReg_self m rt value)

theorem achieves_ldrImm_post (h : m.Plain) {rt rn : Reg} (hrt : rt.General) (hrn : rn ≠ .pc)
    (hne : rn ≠ rt) {offset : Nat} (hoffset : offset ≤ 0xFF) {value : UInt32}
    (hread : m.memory.read (m.reg rn) = .ok value) :
    Achieves mulAdd [.emit (.ldrImm rt rn offset .postIndex .wide8)]
      (Touch.regs fun r => r = rt ∨ r = rn) m
      fun m' => m'.reg rt = value ∧ m'.reg rn = m.reg rn + UInt32.ofNat offset := by
  have hframe := ((frame_setReg m rn (m.reg rn + UInt32.ofNat offset) m.flags).mono
    (Touch.regs_within fun _ => Or.inr)).trans
    ((frame_setReg (m.setReg rn (m.reg rn + UInt32.ofNat offset)) rt value m.flags).mono
      (Touch.regs_within (t := Touch.regs fun r => r = rt ∨ r = rn) fun _ => Or.inl))
  exact .emit (assembles_ldrImm_post hrt hrn hne hoffset) (effect_ldrImm_post h rt hrn hread) hframe
    ⟨reg_setReg_self _ rt value,
      (reg_setReg_of_ne _ value (Ne.symm hne)).trans (reg_setReg_self m rn _)⟩

theorem achieves_ldrReg (h : m.Plain) {rt rn rm : Reg} (hrt : rt.General) (hrn : rn ≠ .pc)
    (hrm : rm.General) {shift : Nat} (hshift : shift ≤ 3) {value : UInt32}
    (hread : m.memory.read (m.reg rn + (m.reg rm <<< UInt32.ofNat shift)) = .ok value) :
    Achieves mulAdd [.emit (.ldrReg rt rn rm shift)] (Touch.regs (· = rt)) m
      fun m' => m'.reg rt = value :=
  .emit (assembles_ldrReg hrt hrn hrm hshift) (effect_ldrReg h rt hrn hrm.2 hread)
    (frame_setReg m rt value m.flags) (reg_setReg_self m rt value)

/-! ### Loops and predicates -/

theorem achieves_loopStart (h : m.Plain) {t : Touch} :
    Achieves mulAdd [.emit (.loopStart .lr none none)] t m fun m' => m'.reg .lr = m.reg .lr := by
  have hsame : ∀ r, (m.setReg .lr (m.reg .lr)).reg r = m.reg r := by
    intro r
    by_cases hr : r = .lr
    · rw [hr, reg_setReg_self]
    · exact reg_setReg_of_ne m _ (Ne.symm hr)
  refine .emit ⟨_, bind_eq_ok.mpr ⟨_, Operand.general_eq_ok.mpr ⟨by decide, rfl⟩, rfl⟩⟩
    (effect_loopStart h (by decide)) ?_ (hsame .lr)
  exact ⟨fun r _ => hsame r, fun _ _ _ => rfl, fun _ => rfl, fun _ => rfl, h.tail.symm, .refl⟩

theorem achieves_vctp (h : m.Plain) {rn : Reg} (hrn : rn.General) :
    Achieves mulAdd [.emit (.vctp .b32 rn)] { predicate := True } m
      fun m' => m'.predicate = LaneMask.below LaneMask.all (m.reg rn) :=
  .emit ⟨_, bind_eq_ok.mpr ⟨_, Operand.general_eq_ok.mpr ⟨hrn, rfl⟩, rfl⟩⟩ (effect_vctp h hrn.2)
    ⟨fun _ _ => rfl, fun _ _ _ => rfl, fun hp => absurd trivial hp, fun _ => rfl, rfl, .refl⟩ rfl

theorem achieves_vpst (h : m.Plain) {count : Nat} (hlow : 1 ≤ count) (hhigh : count ≤ 4) :
    Achieves mulAdd [.emit (.vpst count)] { block := True } m
      fun m' => m'.vptRemaining = count :=
  .emit (assembles_vpst hlow hhigh) (effect_vpst h count)
    ⟨fun _ _ => rfl, fun _ _ _ => rfl, fun _ => rfl, fun hb => absurd trivial hb, rfl, .refl⟩ rfl

/-! ### Vectors -/

/-- Vector accesses act on the lanes of a mask and leave `left` places of their
    predication block; outside a block nothing is left. -/
def Leaves (m : Machine) (mask : LaneMask) (left : Nat) : Prop :=
  m.Masks mask { m with vptRemaining := left }

/-- Outside a block an access leaves the state as it is. -/
theorem leaves_of_masks {mask : LaneMask} (hblock : m.vptRemaining = 0) (h : m.Masks mask m) :
    m.Leaves mask 0 := by
  have hsame : { m with vptRemaining := 0 } = m := by rw [← hblock]
  unfold Leaves
  rwa [hsame]

theorem leaves_of_plain (h : m.Plain) : m.Leaves LaneMask.all 0 :=
  leaves_of_masks h.block (masks_of_plain h)

theorem leaves_of_tail (hblock : m.vptRemaining = 0) (htail : m.tailPredicated = true) :
    m.Leaves (LaneMask.below LaneMask.all (m.reg .lr)) 0 :=
  leaves_of_masks hblock (masks_of_tail hblock htail)

/-- A lane of the mask takes the new value, whatever the others keep. -/
theorem lane_setVector_of_mask (m : Machine) (q : QReg) {mask : LaneMask} {l : Lane}
    (hl : mask.get l = true) (value kept : Lane → UInt32) :
    (m.setVector q (Vector.ofFn fun l => if mask.get l then value l else kept l)).lane q l =
      value l := by
  rw [lane_setVector_self, Vector.get_ofFn]
  exact if_pos hl

/-- A multiply-add with a scalar, on the lanes of a mask. -/
theorem achieves_vfmaScalar_masked {mask : LaneMask} {left : Nat} (hmask : m.Leaves mask left)
    (qda qn : QReg) {rm : Reg} (hrm : rm.General) :
    Achieves mulAdd [.emit (.vfmaScalar qda qn rm)] (Touch.vecs (· = qda)).blocked m
      fun m' => (∀ l : Lane, mask.get l = true →
        m'.lane qda l = mulAdd (m.lane qn l) (m.reg rm) (m.lane qda l)) ∧
        m'.vptRemaining = left := by
  have hframe := frame_setVector { m with vptRemaining := left } qda
    (Vector.ofFn fun l => if mask.get l then mulAdd (m.lane qn l) (m.reg rm) (m.lane qda l)
      else m.lane qda l)
  refine .emit (assembles_vfmaScalar hrm) (effect_vfmaScalar hmask qda qn hrm.2)
    ⟨hframe.reg, hframe.lane, hframe.predicate, fun hb => absurd trivial hb, rfl, .refl⟩
    ⟨fun l hl => ?_, rfl⟩
  rw [lane_tick]
  exact lane_setVector_of_mask _ _ hl _ _

theorem achieves_vfmaScalar (h : m.Plain) (qda qn : QReg) {rm : Reg} (hrm : rm.General) :
    Achieves mulAdd [.emit (.vfmaScalar qda qn rm)] (Touch.vecs (· = qda)) m
      fun m' => ∀ l, m'.lane qda l = mulAdd (m.lane qn l) (m.reg rm) (m.lane qda l) :=
  ((achieves_vfmaScalar_masked (leaves_of_plain h) qda qn hrm).unblock
    fun _ hm' => hm'.2.trans h.block.symm).imp fun _ _ hm' l => hm'.1 l (LaneMask.get_all l)

/-- A multiply-add of vectors. -/
theorem achieves_vfmaVector (h : m.Plain) (qd qn qm : QReg) :
    Achieves mulAdd [.emit (.vfmaVector qd qn qm)] (Touch.vecs (· = qd)) m
      fun m' => ∀ l, m'.lane qd l = mulAdd (m.lane qn l) (m.lane qm l) (m.lane qd l) := by
  refine .emit ⟨_, rfl⟩ (effect_vfmaVector (masks_of_plain h) qd qn qm) (frame_setVector m qd _)
    fun l => ?_
  rw [lane_tick]
  exact lane_setVector_of_mask _ _ (LaneMask.get_all l) _ _

/-- The same value in all lanes. -/
theorem achieves_vmovImm (h : m.Plain) (qd : QReg) {value : UInt32}
    (hword : ∃ word, (vmovImm qd value).assemble = .ok word) :
    Achieves mulAdd [.emit (.vmovImm qd value)] (Touch.vecs (· = qd)) m
      fun m' => ∀ l, m'.lane qd l = value := by
  refine .emit hword (effect_vmovImm (masks_of_plain h) qd value) (frame_setVector m qd _)
    fun l => ?_
  rw [lane_tick]
  exact lane_setVector_of_mask _ _ (LaneMask.get_all l) _ _

section Access

variable {mask : LaneMask} {left : Nat} (hmask : m.Leaves mask left) (q : QReg) {rn : Reg}
  (hrn : rn.General) {offset : Nat} (hoffset : offset ≤ 508) (haligned : offset % 4 = 0)
  {values : Lane → UInt32}

include hmask hrn hoffset haligned

theorem achieves_vecLoad
    (hread : ∀ l : Lane, mask.get l = true →
      m.memory.read (laneAddress (m.reg rn + UInt32.ofNat offset) l) = .ok (values l)) :
    Achieves mulAdd [.emit (.vecMem .load q rn offset .offset)]
      { vec := (· = q), block := True } m
      fun m' => (∀ l : Lane, mask.get l = true → m'.lane q l = values l) ∧ m'.vptRemaining = left := by
  have hframe := frame_setVector { m with vptRemaining := left } q
    (Vector.ofFn fun l => if mask.get l then values l else 0)
  refine .emit (assembles_vecMem hrn hoffset haligned) (effect_vecLoad hmask q hrn.2 hread)
    ⟨hframe.reg, hframe.lane, hframe.predicate, fun hb => absurd trivial hb, rfl, .refl⟩
    ⟨fun l hl => ?_, rfl⟩
  rw [lane_tick]
  exact lane_setVector_of_mask _ _ hl _ _

theorem achieves_vecLoad_post
    (hread : ∀ l : Lane, mask.get l = true →
      m.memory.read (laneAddress (m.reg rn) l) = .ok (values l)) :
    Achieves mulAdd [.emit (.vecMem .load q rn offset .postIndex)]
      { reg := (· = rn), vec := (· = q), block := True } m
      fun m' => (∀ l : Lane, mask.get l = true → m'.lane q l = values l) ∧ m'.vptRemaining = left ∧
        m'.reg rn = m.reg rn + UInt32.ofNat offset := by
  have hframe := frame_setVector { m with vptRemaining := left } q
    (Vector.ofFn fun l => if mask.get l then values l else 0)
  refine .emit (assembles_vecMem hrn hoffset haligned) (effect_vecLoad_post hmask q hrn.2 hread)
    ⟨fun r hr => reg_setReg_of_ne _ _ (Ne.symm hr), hframe.lane, hframe.predicate,
      fun hb => absurd trivial hb, rfl, .refl⟩
    ⟨fun l hl => ?_, rfl, reg_setReg_self _ rn _⟩
  rw [lane_tick, lane_setReg]
  exact lane_setVector_of_mask _ _ hl _ _

theorem achieves_vecStore
    (hwritable : ∀ l : Lane, mask.get l = true →
      m.memory.Writable (laneAddress (m.reg rn + UInt32.ofNat offset) l)) :
    Achieves mulAdd [.emit (.vecMem .store q rn offset .offset)]
      { block := True
        memory := fun a => ∃ l : Lane, mask.get l = true ∧
          a = laneAddress (m.reg rn + UInt32.ofNat offset) l } m
      fun m' => (∀ l : Lane, mask.get l = true →
        m'.memory.read (laneAddress (m.reg rn + UInt32.ofNat offset) l) = .ok (m.lane q l)) ∧
        m'.vptRemaining = left := by
  obtain ⟨memory, heffect, hwrites, hread⟩ := effect_vecStore hmask q hrn.2 mulAdd hwritable
  exact .emit (assembles_vecMem hrn hoffset haligned) heffect
    ⟨fun _ _ => rfl, fun _ _ _ => rfl, fun _ => rfl, fun hb => absurd trivial hb, rfl, hwrites⟩
    ⟨hread, rfl⟩

theorem achieves_vecStore_post
    (hwritable : ∀ l : Lane, mask.get l = true →
      m.memory.Writable (laneAddress (m.reg rn) l)) :
    Achieves mulAdd [.emit (.vecMem .store q rn offset .postIndex)]
      { reg := (· = rn)
        block := True
        memory := fun a => ∃ l : Lane, mask.get l = true ∧ a = laneAddress (m.reg rn) l } m
      fun m' => (∀ l : Lane, mask.get l = true →
        m'.memory.read (laneAddress (m.reg rn) l) = .ok (m.lane q l)) ∧ m'.vptRemaining = left ∧
        m'.reg rn = m.reg rn + UInt32.ofNat offset := by
  obtain ⟨memory, heffect, hwrites, hread⟩ := effect_vecStore_post hmask q hrn.2 mulAdd hwritable
  exact .emit (assembles_vecMem hrn hoffset haligned) heffect
    ⟨fun r hr => reg_setReg_of_ne _ _ (Ne.symm hr), fun _ _ _ => rfl, fun _ => rfl,
      fun hb => absurd trivial hb, rfl, hwrites⟩
    ⟨hread, rfl, reg_setReg_self _ rn _⟩

end Access

end Machine

end HeliumKernels
