/-
  HeliumKernels.Proofs.Encoding.Scalar

  Words of the scalar instructions, read back.  For each layout one lemma
  says which fields a half-word is made of; for each family the checks that
  passed bound those fields, and the operands come out of them unchanged.
-/
import HeliumKernels.Proofs.Encoding.Operand

namespace HeliumKernels

namespace RegSet

theorem contains_iff {s : RegSet} {r : Reg} :
    s.contains r = true ↔ s.bits.toNat / 2 ^ r.num % 2 = 1 := by
  simp [contains, ← BitVec.testBit_toNat, Nat.testBit_eq_decide_div_mod_eq]

/-- The register list of a narrow stack form is its low byte and one more bit. -/
theorem toNat_of_isLowPlus {s : RegSet} {extra : Reg} (h : s.isLowPlus extra)
    (hextra : extra = .lr ∨ extra = .pc) :
    s.bits.toNat % 256 + (if s.contains extra then 1 else 0) * 2 ^ extra.num = s.bits.toNat := by
  have hzero : ∀ r : Reg, 8 ≤ r.num → r ≠ extra → s.bits.toNat / 2 ^ r.num % 2 ≠ 1 := by
    intro r hr hne hbit
    have hmem := List.all_eq_true.mp h r (mem_toList.mpr (contains_iff.mpr hbit))
    rw [Bool.or_eq_true, beq_iff_eq, Reg.isLow, decide_eq_true_eq] at hmem
    rcases hmem with hlow | heq
    · omega
    · exact hne heq
  -- of the high byte only the bit of `extra` may be set, so the bits are settled one by one
  have hlt := s.bits.isLt
  have h8 := hzero .r8 (by decide)
  have h9 := hzero .r9 (by decide)
  have h10 := hzero .r10 (by decide)
  have h11 := hzero .r11 (by decide)
  have h12 := hzero .r12 (by decide)
  have h13 := hzero .sp (by decide)
  have h14 := hzero .lr (by decide)
  have h15 := hzero .pc (by decide)
  have hbit := contains_iff (s := s) (r := extra)
  by_cases hmem : s.contains extra = true
  · rw [if_pos hmem]
    rw [hbit] at hmem
    rcases hextra with rfl | rfl <;> simp [Reg.num] at h8 h9 h10 h11 h12 h13 h14 h15 hmem ⊢ <;> omega
  · rw [if_neg hmem]
    rw [hbit] at hmem
    rcases hextra with rfl | rfl <;> simp [Reg.num] at h8 h9 h10 h11 h12 h13 h14 h15 hmem ⊢ <;> omega

/-- Those two parts make up the register list again. -/
theorem ofNat_of_isLowPlus {s : RegSet} {extra : Reg} (h : s.isLowPlus extra)
    (hextra : extra = .lr ∨ extra = .pc) :
    (⟨BitVec.ofNat 16 (s.bits.toNat % 256 + (if s.contains extra then 1 else 0) * 2 ^ extra.num)⟩ :
      RegSet) = s := by
  rw [toNat_of_isLowPlus h hextra, BitVec.ofNat_toNat, BitVec.setWidth_eq]

end RegSet

namespace Instruction

open Decode HalfWord Operand

/-- A word has the announced width of an instruction and is read as its meaning. -/
structure RoundTrips (i : Instruction) (word : Word) : Prop where
  width_eq : word.width = i.width
  reading_eq : word.reading = some i.meaning

/-! ## Narrow layouts -/

/-- Three three-bit fields below a two-bit opcode. -/
theorem reading_triple {k x n d : Nat} (hk : k < 4) (hx : x < 8) (hn : n < 8) (hd : d < 8) :
    (Word.ofFields (0x1800 + k * 512 + x * 64 + n * 8 + d)).reading =
      some (match k with
        | 0 => .addReg (Reg.ofField d) (Reg.ofField n) (Reg.ofField x) 0 true
        | 1 => .subReg (Reg.ofField d) (Reg.ofField n) (Reg.ofField x) 0 true
        | 2 => .addImm (Reg.ofField d) (Reg.ofField n) (UInt32.ofNat x) true
        | _ => .subImm (Reg.ofField d) (Reg.ofField n) (UInt32.ofNat x) true) := by
  rw [Word.reading_ofFields (by omega)]
  simp only [narrow?, field_ofNat, ofNat_eq_iff, UInt16.reduceToNat]
  generalize hword : 0x1800 + k * 512 + x * 64 + n * 8 + d = word
  rw [if_neg (by omega), show word % 65536 / 2 ^ 11 % 2 ^ 5 = 3 by omega,
    show word % 65536 / 2 ^ 9 % 2 ^ 2 = k by omega, show word % 65536 / 2 ^ 6 % 2 ^ 3 = x by omega,
    show word % 65536 / 2 ^ 3 % 2 ^ 3 = n by omega, show word % 65536 / 2 ^ 0 % 2 ^ 3 = d by omega]
  rcases k with _ | _ | _ | k <;> rfl

/-- A register and a byte below a two-bit opcode. -/
theorem reading_byte {k d imm : Nat} (hk : k < 4) (hd : d < 8) (himm : imm < 256) :
    (Word.ofFields (0x2000 + k * 2048 + d * 256 + imm)).reading =
      some (match k with
        | 0 => .movImm (Reg.ofField d) (UInt32.ofNat imm) true
        | 1 => .cmpImm (Reg.ofField d) (UInt32.ofNat imm)
        | 2 => .addImm (Reg.ofField d) (Reg.ofField d) (UInt32.ofNat imm) true
        | _ => .subImm (Reg.ofField d) (Reg.ofField d) (UInt32.ofNat imm) true) := by
  rw [Word.reading_ofFields (by omega)]
  simp only [narrow?, field_ofNat, ofNat_eq_iff, UInt16.reduceToNat]
  generalize hword : 0x2000 + k * 2048 + d * 256 + imm = word
  rw [if_neg (by omega), show word % 65536 / 2 ^ 11 % 2 ^ 5 = 4 + k by omega,
    show word % 65536 / 2 ^ 8 % 2 ^ 3 = d by omega, show word % 65536 / 2 ^ 0 % 2 ^ 8 = imm by omega]
  have hcases : k = 0 ∨ k = 1 ∨ k = 2 ∨ k = 3 := by omega
  rcases hcases with rfl | rfl | rfl | rfl <;> rfl

/-- Two four-bit fields, the first of them split, below a two-bit opcode. -/
theorem narrow?_high {k x y m : Nat} (hk : k < 4) (hx : x < 2) (hy : y < 8) (hm : m < 16) :
    narrow? (UInt16.ofNat (0x4400 + k * 256 + x * 128 + m * 8 + y)) =
      match k with
      | 0 => some (.addReg (Reg.ofField (x * 8 + y)) (Reg.ofField (x * 8 + y)) (Reg.ofField m) 0
          false)
      | 1 => some (.cmpReg (Reg.ofField (x * 8 + y)) (Reg.ofField m))
      | 2 => some (.movReg (Reg.ofField (x * 8 + y)) (Reg.ofField m))
      | _ => if x = 0 ∧ y = 0 then some (.bx (Reg.ofField m)) else none := by
  simp only [narrow?, field_ofNat, ofNat_eq_iff, UInt16.reduceToNat]
  generalize hword : 0x4400 + k * 256 + x * 128 + m * 8 + y = word
  rw [if_neg (by omega), show word % 65536 / 2 ^ 11 % 2 ^ 5 = 8 by omega,
    show word % 65536 / 2 ^ 8 % 2 ^ 3 = 4 + k by omega,
    show word % 65536 / 2 ^ 7 % 2 ^ 1 = x by omega,
    show word % 65536 / 2 ^ 0 % 2 ^ 3 = y by omega,
    show word % 65536 / 2 ^ 3 % 2 ^ 4 = m by omega]
  have hcases : k = 0 ∨ k = 1 ∨ k = 2 ∨ k = 3 := by omega
  rcases hcases with rfl | rfl | rfl | rfl <;> rfl

/-- The split field is a register number. -/
theorem reading_high {k n m : Nat} (hk : k < 4) (hn : n < 16) (hm : m < 16) :
    (Word.ofFields (0x4400 + k * 256 + n / 8 * 128 + m * 8 + n % 8)).reading =
      match k with
      | 0 => some (.addReg (Reg.ofField n) (Reg.ofField n) (Reg.ofField m) 0 false)
      | 1 => some (.cmpReg (Reg.ofField n) (Reg.ofField m))
      | 2 => some (.movReg (Reg.ofField n) (Reg.ofField m))
      | _ => if n / 8 = 0 ∧ n % 8 = 0 then some (.bx (Reg.ofField m)) else none := by
  have hread := narrow?_high (x := n / 8) (y := n % 8) hk (by omega) (by omega) hm
  rw [show n / 8 * 8 + n % 8 = n by omega] at hread
  rw [Word.reading_ofFields (by omega), hread]

/-! ## Wide layouts -/

/-- A twelve-bit immediate over two registers; `c` is the opcode with its flag bit. -/
theorem immediate_fields {c f r d : Nat} (hc : c < 64) (hf : f < 4096) (hr : r < 16) (hd : d < 16) :
    let hw1 := UInt16.ofNat (0xF000 + c * 16 + immediateHigh f + r)
    let hw2 := UInt16.ofNat (immediateLow f + d * 256)
    field hw1 0 4 = r ∧ field hw1 4 1 = c % 2 ∧ field hw1 5 4 = c / 2 % 16 ∧
      field hw1 4 5 = c % 32 ∧ field hw1 9 1 = c / 32 ∧ field hw2 8 4 = d ∧
      field hw1 10 1 * 2048 + field hw2 12 3 * 256 + field hw2 0 8 = f := by
  simp only [field_ofNat, immediateHigh, immediateLow]
  -- the three pieces of the immediate stand apart in the two half-words; as atoms they are linear
  have hf' : f / 2048 % 2 * 2048 + f / 256 % 8 * 256 + f % 256 = f := by omega
  have hi := Nat.mod_lt (f / 2048) (by decide : 2 > 0)
  have ha := Nat.mod_lt (f / 256) (by decide : 8 > 0)
  have hb := Nat.mod_lt f (by decide : 256 > 0)
  generalize f / 2048 % 2 = i at *
  generalize f / 256 % 8 = a at *
  generalize f % 256 = b at *
  refine ⟨by omega, by omega, by omega, by omega, by omega, by omega, ?_⟩
  rw [show (0xF000 + c * 16 + i * 1024 + r) % 65536 / 2 ^ 10 % 2 ^ 1 = i by omega,
    show (a * 4096 + b + d * 256) % 65536 / 2 ^ 12 % 2 ^ 3 = a by omega,
    show (a * 4096 + b + d * 256) % 65536 / 2 ^ 0 % 2 ^ 8 = b by omega, hf']

theorem immediateHigh_mod (n : Nat) : immediateHigh (n % 4096) = immediateHigh n := by
  unfold immediateHigh
  omega

theorem immediateLow_mod (n : Nat) : immediateLow (n % 4096) = immediateLow n := by
  unfold immediateLow
  omega

/-- Pairs of that layout, by opcode. -/
theorem reading_immediate {c f r d : Nat} (hc : c < 64) (hf : f < 4096) (hr : r < 16)
    (hd : d < 16) :
    (Word.ofFieldPair (0xF000 + c * 16 + immediateHigh f + r) (immediateLow f + d * 256)).reading =
      if c / 32 = 0 then
        match c / 2 % 16 with
        | 0b1000 =>
          if Reg.ofField d = .pc ∧ c % 2 == 1 then none
          else some (.addImm (Reg.ofField d) (Reg.ofField r) (ModifiedConstant.expand f) (c % 2 == 1))
        | 0b1101 =>
          if Reg.ofField d = .pc ∧ c % 2 == 1 then
            some (.cmpImm (Reg.ofField r) (ModifiedConstant.expand f))
          else some (.subImm (Reg.ofField d) (Reg.ofField r) (ModifiedConstant.expand f) (c % 2 == 1))
        | 0b0010 =>
          if Reg.ofField r = .pc then
            some (.movImm (Reg.ofField d) (ModifiedConstant.expand f) (c % 2 == 1))
          else none
        | _ => none
      else
        match c % 32 with
        | 0b00000 => some (.addImm (Reg.ofField d) (Reg.ofField r) (UInt32.ofNat f) false)
        | 0b01010 => some (.subImm (Reg.ofField d) (Reg.ofField r) (UInt32.ofNat f) false)
        | 0b00100 => some (.movImm (Reg.ofField d) (UInt32.ofNat (r * 4096 + f)) false)
        | 0b01100 => some (.movTop (Reg.ofField d) (UInt16.ofNat (r * 4096 + f)))
        | _ => none := by
  have hhigh : immediateHigh f ≤ 1024 := by
    unfold immediateHigh
    omega
  have hlow : immediateLow f + d * 256 < 0x8000 := by
    unfold immediateLow
    omega
  -- with the top bit of the second half-word clear it is neither the no-op nor a branch
  have hnop : ¬(UInt16.ofNat (0xF000 + c * 16 + immediateHigh f + r) = 0xF3AF ∧
      UInt16.ofNat (immediateLow f + d * 256) = 0x8000) := by
    simp only [ofNat_eq_iff, UInt16.reduceToNat]
    omega
  have htop : field (UInt16.ofNat (immediateLow f + d * 256)) 15 1 = 0 := by
    rw [field_ofNat]
    omega
  rw [Word.reading_wide30 (by omega) (by omega), wide30?, if_neg hnop, if_pos htop]
  obtain ⟨hrn, hset, hop, hplain, hkind, hrd, himm⟩ := immediate_fields hc hf hr hd
  unfold immediate?
  rewrite [hrn, hset, hop, hplain, hkind, hrd, himm]
  rfl

/-! ## Arithmetic -/

variable {op : AddSub} {rd rn rm rt : Reg} {imm : UInt32} {word : Word}

theorem roundTrips_addSubImm {form : AddSubImmForm}
    (h : assembleAddSubImm op rd rn imm form = .ok word) :
    RoundTrips (.addSubImm op rd rn imm form) word := by
  have himm : UInt32.ofNat imm.toNat = imm := UInt32.ofNat_toNat
  cases form with
  | narrow3 =>
    simp only [assembleAddSubImm, bind_eq_ok, pure_eq_ok, unsigned_eq_ok, low_eq_ok] at h
    obtain ⟨_, ⟨h1, rfl⟩, _, ⟨h2, rfl⟩, _, ⟨h3, rfl⟩, rfl⟩ := h
    cases op with
    | add =>
      refine ⟨rfl, (reading_triple (k := 2) (by decide) (by omega : imm.toNat < 8) h2 h3).trans ?_⟩
      simp [meaning]
    | sub =>
      refine ⟨rfl, (reading_triple (k := 3) (by decide) (by omega : imm.toNat < 8) h2 h3).trans ?_⟩
      simp [meaning]
  | narrow8 =>
    simp only [assembleAddSubImm, guard_eq_ok, bind_eq_ok, pure_eq_ok, unsigned_eq_ok, low_eq_ok,
      ne_eq, Decidable.not_not] at h
    obtain ⟨rfl, _, ⟨h1, rfl⟩, _, ⟨h2, rfl⟩, rfl⟩ := h
    cases op with
    | add =>
      refine ⟨rfl, (reading_byte (k := 2) (by decide) h2 (by omega : imm.toNat < 256)).trans ?_⟩
      simp [meaning]
    | sub =>
      refine ⟨rfl, (reading_byte (k := 3) (by decide) h2 (by omega : imm.toNat < 256)).trans ?_⟩
      simp [meaning]
  | modified =>
    simp only [assembleAddSubImm, bind_eq_ok, pure_eq_ok, modified_eq_ok, general_eq_ok] at h
    obtain ⟨field, hfield, _, ⟨h2, rfl⟩, _, ⟨h3, rfl⟩, rfl⟩ := h
    -- the low bit of either opcode is the flag bit, which the wide forms leave clear
    obtain ⟨hlt, hexpand⟩ := ModifiedConstant.expand_of_encode? hfield
    cases op with
    | add =>
      refine ⟨rfl, (reading_immediate (c := 0x10) (by decide) hlt rn.num_lt rd.num_lt).trans ?_⟩
      simp [meaning, hexpand]
    | sub =>
      refine ⟨rfl, (reading_immediate (c := 0x1A) (by decide) hlt rn.num_lt rd.num_lt).trans ?_⟩
      simp [meaning, hexpand]
  | plain12 =>
    simp only [assembleAddSubImm, bind_eq_ok, pure_eq_ok, unsigned_eq_ok, general_eq_ok] at h
    obtain ⟨_, ⟨h1, rfl⟩, _, ⟨h2, rfl⟩, _, ⟨h3, rfl⟩, rfl⟩ := h
    have hlt : imm.toNat < 4096 := by omega
    cases op with
    | add =>
      refine ⟨rfl, (reading_immediate (c := 0x20) (by decide) hlt rn.num_lt rd.num_lt).trans ?_⟩
      simp [meaning]
    | sub =>
      refine ⟨rfl, (reading_immediate (c := 0x2A) (by decide) hlt rn.num_lt rd.num_lt).trans ?_⟩
      simp [meaning]

theorem wide29?_shifted {n1 n2 : Nat} (hlow : 0xEA00 ≤ n1) (hhigh : n1 < 0xEC00)
    (h2 : n2 < 0x8000) :
    wide29? (UInt16.ofNat n1) (UInt16.ofNat n2) =
      shiftedRegister? (UInt16.ofNat n1) (UInt16.ofNat n2) := by
  simp only [wide29?, field_ofNat, ofNat_eq_iff, UInt16.reduceToNat]
  rw [if_neg (by omega), if_neg (by omega), if_neg (by omega), if_neg (by omega),
    if_neg (by omega), if_neg (by omega), if_neg (by omega), if_neg (by omega),
    if_neg (by omega), if_pos (by omega)]

/-- Two registers and a five-bit shift of the second, below a bit that tells
    subtraction from addition. -/
theorem reading_shifted {k n d m shift : Nat} (hk : k < 2) (hn : n < 16) (hd : d < 16) (hm : m < 16)
    (hpc : Reg.ofField d ≠ .pc) (hshift : shift < 32) :
    (Word.ofFieldPair (0xEB00 + k * 0xA0 + n)
      (shift / 4 * 4096 + d * 256 + shift % 4 * 64 + m)).reading =
      some (match k with
        | 0 => .addReg (Reg.ofField d) (Reg.ofField n) (Reg.ofField m) shift false
        | _ => .subReg (Reg.ofField d) (Reg.ofField n) (Reg.ofField m) shift false) := by
  have hshift' : shift / 4 * 4 + shift % 4 = shift := by omega
  have hx : shift / 4 < 8 := by omega
  have hy := Nat.mod_lt shift (by decide : 4 > 0)
  generalize shift / 4 = x at *
  generalize shift % 4 = y at *
  rw [Word.reading_wide29 (by omega) (by omega), wide29?_shifted (by omega) (by omega) (by omega)]
  have h1 : 0xEB00 + k * 0xA0 + n < 65536 := by omega
  have h2 : x * 4096 + d * 256 + y * 64 + m < 65536 := by omega
  simp only [shiftedRegister?, field_ofNat, Nat.mod_eq_of_lt h1, Nat.mod_eq_of_lt h2]
  rw [if_neg (by omega), show (0xEB00 + k * 0xA0 + n) / 2 ^ 4 % 2 ^ 1 = 0 by omega,
    show (0xEB00 + k * 0xA0 + n) / 2 ^ 5 % 2 ^ 4 = 8 + 5 * k by omega,
    show (0xEB00 + k * 0xA0 + n) / 2 ^ 0 % 2 ^ 4 = n by omega,
    show (x * 4096 + d * 256 + y * 64 + m) / 2 ^ 8 % 2 ^ 4 = d by omega,
    show (x * 4096 + d * 256 + y * 64 + m) / 2 ^ 0 % 2 ^ 4 = m by omega,
    show (x * 4096 + d * 256 + y * 64 + m) / 2 ^ 12 % 2 ^ 3 * 4 +
      (x * 4096 + d * 256 + y * 64 + m) / 2 ^ 6 % 2 ^ 2 = shift by omega]
  obtain rfl | rfl : k = 0 ∨ k = 1 := by omega
  · simp
  · simp [hpc]

theorem roundTrips_addSubReg {shift : Nat} {form : AddSubRegForm}
    (h : assembleAddSubReg op rd rn rm shift form = .ok word) :
    RoundTrips (.addSubReg op rd rn rm shift form) word := by
  cases form with
  | narrow3 =>
    simp only [assembleAddSubReg, bind_eq_ok, pure_eq_ok, unsigned_eq_ok, low_eq_ok] at h
    obtain ⟨_, ⟨h1, rfl⟩, _, ⟨hm, rfl⟩, _, ⟨hn, rfl⟩, _, ⟨hd, rfl⟩, rfl⟩ := h
    obtain rfl : shift = 0 := by omega
    cases op with
    | add =>
      refine ⟨rfl, (reading_triple (k := 0) (by decide) hm hn hd).trans ?_⟩
      simp [meaning]
    | sub =>
      refine ⟨rfl, (reading_triple (k := 1) (by decide) hm hn hd).trans ?_⟩
      simp [meaning]
  | narrowAcc =>
    simp only [assembleAddSubReg, bind_eq_ok, guard_eq_ok, pure_eq_ok, unsigned_eq_ok, notPc_eq_ok,
      ne_eq, Decidable.not_not] at h
    obtain ⟨_, ⟨h1, rfl⟩, hop, rfl, _, ⟨hd, rfl⟩, _, ⟨hm, rfl⟩, rfl⟩ := h
    obtain rfl : shift = 0 := by omega
    obtain rfl : op = .add := by cases op <;> simp_all
    refine ⟨rfl, (reading_high (k := 0) (by decide) rd.num_lt rm.num_lt).trans ?_⟩
    simp [meaning]
  | wide =>
    simp only [assembleAddSubReg, bind_eq_ok, pure_eq_ok, unsigned_eq_ok, general_eq_ok] at h
    obtain ⟨_, ⟨h1, rfl⟩, _, ⟨hn, rfl⟩, _, ⟨hm, rfl⟩, _, ⟨hd, rfl⟩, rfl⟩ := h
    have hpc : Reg.ofField rd.num ≠ .pc := by simpa using hd.2
    cases op with
    | add =>
      have hread := reading_shifted (k := 0) (by decide) rn.num_lt rd.num_lt rm.num_lt hpc
        (by omega : shift < 32)
      refine ⟨rfl, hread.trans ?_⟩
      simp [meaning]
    | sub =>
      have hread := reading_shifted (k := 1) (by decide) rn.num_lt rd.num_lt rm.num_lt hpc
        (by omega : shift < 32)
      refine ⟨rfl, hread.trans ?_⟩
      simp [meaning]

/-! ## Comparisons and moves -/

theorem roundTrips_cmpImm {form : CmpImmForm} (h : assembleCmpImm rn imm form = .ok word) :
    RoundTrips (.cmpImm rn imm form) word := by
  cases form with
  | narrow8 =>
    simp only [assembleCmpImm, bind_eq_ok, pure_eq_ok, unsigned_eq_ok, low_eq_ok] at h
    obtain ⟨_, ⟨h1, rfl⟩, _, ⟨hn, rfl⟩, rfl⟩ := h
    refine ⟨rfl, (reading_byte (k := 1) (by decide) hn (by omega : imm.toNat < 256)).trans ?_⟩
    simp [meaning]
  | modified =>
    simp only [assembleCmpImm, bind_eq_ok, pure_eq_ok, modified_eq_ok, notPc_eq_ok] at h
    obtain ⟨field, hfield, _, ⟨hn, rfl⟩, rfl⟩ := h
    obtain ⟨hlt, hexpand⟩ := ModifiedConstant.expand_of_encode? hfield
    have hread := reading_immediate (c := 0x1B) (d := 15) (by decide) hlt rn.num_lt (by decide)
    refine ⟨rfl, hread.trans ?_⟩
    simp [meaning, hexpand, show Reg.ofField 15 = .pc from rfl]

theorem roundTrips_cmpReg (h : assembleCmpReg rn rm = .ok word) :
    RoundTrips (.cmpReg rn rm) word := by
  simp only [assembleCmpReg, bind_eq_ok, notPc_eq_ok] at h
  obtain ⟨_, ⟨hn, rfl⟩, _, ⟨hm, rfl⟩, h⟩ := h
  have hrn := rn.num_lt
  have hrm := rm.num_lt
  split at h
  · rename_i hlow
    simp only [Reg.isLow, Bool.and_eq_true, decide_eq_true_eq] at hlow
    obtain rfl := pure_eq_ok.mp h
    refine ⟨rfl, ?_⟩
    rw [Word.reading_ofFields (by omega)]
    simp only [narrow?, field_ofNat, ofNat_eq_iff, UInt16.reduceToNat]
    generalize hword : 0x4280 + rm.num * 8 + rn.num = n
    rw [if_neg (by omega), show n % 65536 / 2 ^ 11 % 2 ^ 5 = 8 by omega,
      show n % 65536 / 2 ^ 8 % 2 ^ 3 = 2 by omega, show n % 65536 / 2 ^ 6 % 2 ^ 2 = 2 by omega,
      show n % 65536 / 2 ^ 0 % 2 ^ 3 = rn.num by omega,
      show n % 65536 / 2 ^ 3 % 2 ^ 3 = rm.num by omega]
    simp [meaning]
  · obtain rfl := pure_eq_ok.mp h
    refine ⟨rfl, (reading_high (k := 1) (by decide) hrn hrm).trans ?_⟩
    simp [meaning]

theorem roundTrips_movImm {form : MovImmForm} (h : assembleMovImm rd imm form = .ok word) :
    RoundTrips (.movImm rd imm form) word := by
  cases form with
  | narrow8 =>
    simp only [assembleMovImm, bind_eq_ok, pure_eq_ok, unsigned_eq_ok, low_eq_ok] at h
    obtain ⟨_, ⟨h1, rfl⟩, _, ⟨hd, rfl⟩, rfl⟩ := h
    refine ⟨rfl, (reading_byte (k := 0) (by decide) hd (by omega : imm.toNat < 256)).trans ?_⟩
    simp [meaning]
  | modified =>
    simp only [assembleMovImm, bind_eq_ok, pure_eq_ok, modified_eq_ok, general_eq_ok] at h
    obtain ⟨field, hfield, _, ⟨hd, rfl⟩, rfl⟩ := h
    obtain ⟨hlt, hexpand⟩ := ModifiedConstant.expand_of_encode? hfield
    have hread := reading_immediate (c := 4) (r := 15) (by decide) hlt (by decide) rd.num_lt
    rw [show 0xF000 + 4 * 16 + immediateHigh field + 15 = 0xF04F + immediateHigh field by omega]
      at hread
    refine ⟨rfl, hread.trans ?_⟩
    simp [meaning, hexpand, show Reg.ofField 15 = .pc from rfl]
  | plain16 =>
    simp only [assembleMovImm, bind_eq_ok, pure_eq_ok, unsigned_eq_ok, general_eq_ok] at h
    obtain ⟨_, ⟨h1, rfl⟩, _, ⟨hd, rfl⟩, rfl⟩ := h
    have hread := reading_immediate (c := 0x24) (f := imm.toNat % 4096) (r := imm.toNat / 4096)
      (by decide) (by omega) (by omega) rd.num_lt
    rw [immediateHigh_mod, immediateLow_mod, Nat.div_add_mod'] at hread
    refine ⟨rfl, hread.trans ?_⟩
    simp [meaning]
  | top16 =>
    simp only [assembleMovImm, bind_eq_ok, pure_eq_ok, unsigned_eq_ok, general_eq_ok] at h
    obtain ⟨_, ⟨h1, rfl⟩, _, ⟨hd, rfl⟩, rfl⟩ := h
    have hread := reading_immediate (c := 0x2C) (f := imm.toNat % 4096) (r := imm.toNat / 4096)
      (by decide) (by omega) (by omega) rd.num_lt
    rw [immediateHigh_mod, immediateLow_mod, Nat.div_add_mod'] at hread
    have htop : UInt16.ofNat imm.toNat = imm.toUInt16 := rfl
    refine ⟨rfl, hread.trans ?_⟩
    simp [meaning, htop]

theorem roundTrips_movReg (h : assemble (.movReg rd rm) = .ok word) :
    RoundTrips (.movReg rd rm) word := by
  simp only [assemble, bind_eq_ok, pure_eq_ok, notPc_eq_ok] at h
  obtain ⟨_, ⟨hd, rfl⟩, rfl⟩ := h
  refine ⟨rfl, (reading_high (k := 2) (by decide) rd.num_lt rm.num_lt).trans ?_⟩
  simp [meaning]

theorem roundTrips_bx (h : assemble (.bx rm) = .ok word) : RoundTrips (.bx rm) word := by
  simp only [assemble, bind_eq_ok, pure_eq_ok, notPc_eq_ok] at h
  obtain ⟨_, ⟨hm, rfl⟩, rfl⟩ := h
  have hread := reading_high (k := 3) (n := 0) (by decide) (by decide) rm.num_lt
  refine ⟨rfl, hread.trans ?_⟩
  simp [meaning]

theorem reading_nop (width : Width) : (Word.nop width).reading = some .nop := by
  cases width <;> rfl

theorem roundTrips_nop {width : Width} (h : assemble (.nop width) = .ok word) :
    RoundTrips (.nop width) word := by
  simp only [assemble, Except.ok.injEq] at h
  exact ⟨by rw [← h]; exact Word.width_nop width, by rw [← h]; exact reading_nop width⟩

/-! ## Loads -/

/-- Sign and magnitude give the offset back. -/
theorem signedOffset_natAbs (offset : Int) :
    signedOffset (if 0 ≤ offset then 1 else 0) offset.natAbs = offset := by
  unfold signedOffset
  by_cases h : 0 ≤ offset
  · rw [if_pos h, if_pos rfl]
    omega
  · rw [if_neg h, if_neg (by decide)]
    omega

theorem wide31?_load {n1 n2 : Nat} (hlow : 0xF850 ≤ n1) (hhigh : n1 < 0xF85F) :
    wide31? (UInt16.ofNat n1) (UInt16.ofNat n2) =
      load? (Reg.ofField (n1 - 0xF850)) (UInt16.ofNat n2) := by
  have hpc : Reg.ofField (n1 - 0xF850) ≠ .pc := Reg.ofField_ne_pc (by omega)
  simp only [wide31?, field_ofNat]
  rw [show n1 % 65536 / 2 ^ 0 % 2 ^ 4 = n1 - 0xF850 by omega, if_neg (by omega), if_neg (by omega),
    if_neg hpc, if_neg (by omega), if_pos (by omega)]

/-- A load with an indexed offset; the unindexed form only counts down. -/
theorem load?_indexed {indexing : Indexing} {t up x : Nat} (ht : t < 16) (hup : up < 2)
    (hx : x < 256) (hdown : indexing = .offset → up = 0) :
    load? rn (UInt16.ofNat
      (t * 4096 + 0x800 + indexing.p * 1024 + up * 512 + indexing.w * 256 + x)) =
      some (.ldrImm (Reg.ofField t) rn (signedOffset up x) indexing) := by
  have hp : indexing.p < 2 := by cases indexing <;> decide
  have hw : indexing.w < 2 := by cases indexing <;> decide
  simp only [load?, field_ofNat]
  generalize hword : t * 4096 + 0x800 + indexing.p * 1024 + up * 512 + indexing.w * 256 + x = n
  rw [if_pos (by omega), show n % 65536 / 2 ^ 12 % 2 ^ 4 = t by omega,
    show n % 65536 / 2 ^ 9 % 2 ^ 1 = up by omega,
    show n % 65536 / 2 ^ 10 % 2 ^ 1 = indexing.p by omega,
    show n % 65536 / 2 ^ 8 % 2 ^ 1 = indexing.w by omega,
    show n % 65536 / 2 ^ 0 % 2 ^ 8 = x by omega]
  cases indexing with
  | offset => simp [Indexing.p, Indexing.w, hdown rfl]
  | preIndex => simp [Indexing.p, Indexing.w]
  | postIndex => simp [Indexing.p, Indexing.w]

theorem roundTrips_ldrReg {shift : Nat} (h : assembleLdrReg rt rn rm shift = .ok word) :
    RoundTrips (.ldrReg rt rn rm shift) word := by
  simp only [assembleLdrReg, bind_eq_ok, pure_eq_ok, unsigned_eq_ok, notPc_eq_ok, general_eq_ok]
    at h
  obtain ⟨_, ⟨hshift, rfl⟩, _, ⟨hn, rfl⟩, _, ⟨hm, rfl⟩, _, ⟨ht, rfl⟩, rfl⟩ := h
  have hrn := Reg.num_ne_pc hn
  have hrm := rm.num_lt
  have hrt := rt.num_lt
  refine ⟨rfl, ?_⟩
  rw [Word.reading_wide31 (by omega) (by omega), wide31?_load (by omega) (by omega)]
  simp only [load?, field_ofNat]
  generalize hlow : rt.num * 4096 + shift * 16 + rm.num = n
  rw [if_neg (by omega), if_pos (by omega), show n % 65536 / 2 ^ 12 % 2 ^ 4 = rt.num by omega,
    show n % 65536 / 2 ^ 0 % 2 ^ 4 = rm.num by omega, show n % 65536 / 2 ^ 4 % 2 ^ 2 = shift by omega,
    show 0xF850 + rn.num - 0xF850 = rn.num by omega]
  simp [meaning]

theorem roundTrips_ldrImm {offset : Int} {indexing : Indexing} {form : LdrImmForm}
    (h : assembleLdrImm rt rn offset indexing form = .ok word) :
    RoundTrips (.ldrImm rt rn offset indexing form) word := by
  simp only [assembleLdrImm, guard_eq_ok] at h
  obtain ⟨hindexing, h⟩ := h
  cases form with
  | narrow =>
    simp only [bind_eq_ok, pure_eq_ok, signed_eq_ok, aligned_eq_ok, low_eq_ok] at h
    obtain ⟨_, ⟨hrange, rfl⟩, _, ⟨halign, rfl⟩, _, ⟨hn, rfl⟩, _, ⟨ht, rfl⟩, rfl⟩ := h
    obtain rfl : indexing = .offset := by simpa using hindexing
    -- a multiple of four below 128 is five bits and two zeros
    have hfield : (bits offset 2 5 : Int) * 4 = offset := by
      rw [bits_natCast]
      omega
    have hlt := bits_lt offset 2 5
    generalize bits offset 2 5 = x at *
    refine ⟨rfl, ?_⟩
    rw [Word.reading_ofFields (by omega)]
    simp only [narrow?, field_ofNat, ofNat_eq_iff, UInt16.reduceToNat]
    generalize hword : 0x6800 + x * 64 + rn.num * 8 + rt.num = n
    rw [if_neg (by omega), show n % 65536 / 2 ^ 11 % 2 ^ 5 = 13 by omega,
      show n % 65536 / 2 ^ 6 % 2 ^ 5 = x by omega, show n % 65536 / 2 ^ 3 % 2 ^ 3 = rn.num by omega,
      show n % 65536 / 2 ^ 0 % 2 ^ 3 = rt.num by omega]
    simp [meaning, hfield]
  | wide12 =>
    simp only [bind_eq_ok, pure_eq_ok, signed_eq_ok, notPc_eq_ok, general_eq_ok] at h
    obtain ⟨_, ⟨hrange, rfl⟩, _, ⟨hn, rfl⟩, _, ⟨ht, rfl⟩, rfl⟩ := h
    obtain rfl : indexing = .offset := by simpa using hindexing
    obtain ⟨x, rfl⟩ := Int.eq_ofNat_of_zero_le hrange.1
    have hrn := Reg.num_ne_pc hn
    have hrt := rt.num_lt
    -- the program counter as a base would be another instruction
    have hpc : Reg.ofField rn.num ≠ .pc := by simpa using hn
    refine ⟨rfl, ?_⟩
    rw [Word.reading_wide31 (by omega) (by omega)]
    simp only [wide31?, field_ofNat, Int.toNat_natCast]
    rw [show (0xF8D0 + rn.num) % 65536 / 2 ^ 0 % 2 ^ 4 = rn.num by omega, if_neg (by omega),
      if_neg (by omega), if_neg hpc, if_pos (by omega),
      show (rt.num * 4096 + x) % 65536 / 2 ^ 12 % 2 ^ 4 = rt.num by omega,
      show (rt.num * 4096 + x) % 65536 / 2 ^ 0 % 2 ^ 12 = x by omega]
    simp [meaning]
  | wide8 =>
    simp only [bind_eq_ok, guard_eq_ok, pure_eq_ok, signed_eq_ok, notPc_eq_ok, general_eq_ok] at h
    obtain ⟨_, ⟨hrange, rfl⟩, _, ⟨hn, rfl⟩, _, ⟨ht, rfl⟩, hwriteback, rfl⟩ := h
    have hrn := Reg.num_ne_pc hn
    have hrt := rt.num_lt
    -- sign and magnitude; without indexing the sign can only be minus, or the word is not a load
    have hmagnitude : offset.natAbs < 256 := by split at hrange <;> omega
    have hoffset := signedOffset_natAbs offset
    have hdown : indexing = .offset → ¬0 ≤ offset := by
      intro h
      rw [if_pos h] at hrange
      omega
    have hup : (if 0 ≤ offset then 1 else 0) < 2 := by split <;> omega
    refine ⟨rfl, ?_⟩
    rw [Word.reading_wide31 (by omega) (by omega), wide31?_load (by omega) (by omega),
      load?_indexed hrt hup hmagnitude (fun h => if_neg (hdown h)), hoffset,
      show 0xF850 + rn.num - 0xF850 = rn.num by omega]
    simp [meaning]

/-! ## Stacks -/

/-- A byte of low registers and the bit of one more, pushed or popped. -/
theorem reading_stack {k c b : Nat} (hk : k < 2) (hc : c < 2) (hb : b < 256) :
    (Word.ofFields (0xB400 + k * 0x800 + c * 256 + b)).reading =
      some (if k = 0 then .push ⟨BitVec.ofNat 16 (b + c * 0x4000)⟩
        else .pop ⟨BitVec.ofNat 16 (b + c * 0x8000)⟩) := by
  rw [Word.reading_ofFields (by omega)]
  simp only [narrow?, field_ofNat, ofNat_eq_iff, UInt16.reduceToNat]
  generalize hword : 0xB400 + k * 0x800 + c * 256 + b = n
  rw [if_neg (by omega), show n % 65536 / 2 ^ 11 % 2 ^ 5 = 22 + k by omega,
    show n % 65536 / 2 ^ 9 % 2 ^ 2 = 2 by omega, show n % 65536 / 2 ^ 0 % 2 ^ 8 = b by omega,
    show n % 65536 / 2 ^ 8 % 2 ^ 1 = c by omega]
  obtain rfl | rfl : k = 0 ∨ k = 1 := by omega
  · rfl
  · rfl

theorem bit_mul (c : Bool) : (if c then 256 else 0) = (if c then 1 else 0) * 256 := by
  cases c <;> rfl

theorem bit_lt (c : Bool) : (if c then 1 else 0) < 2 := by
  cases c <;> decide

theorem eq_of_assembleStack {narrow wide : Nat} {last : Reg} {barred : Bool} {regs : RegSet}
    (h : assembleStack narrow wide last barred regs = .ok word) :
    regs.isLowPlus last ∧ word = .ofFields
        (narrow + (if regs.contains last then 256 else 0) + regs.bits.toNat % 256) ∨
      ¬ regs.isLowPlus last ∧ word = .ofFieldPair wide regs.bits.toNat := by
  unfold assembleStack at h
  split at h
  · cases h
  split at h
  · next hlow => exact .inl ⟨hlow, (Except.ok.inj h).symm⟩
  split at h
  · cases h
  · next hlow _ => exact .inr ⟨hlow, (Except.ok.inj h).symm⟩

/-- Push and pop differ in their opcodes and in the register that the narrow form has a bit
    for besides the low ones. -/
theorem reading_assembleStack {k : Nat} {regs : RegSet} {barred : Bool} (hk : k < 2)
    (h : assembleStack (0xB400 + k * 0x800) (if k = 0 then 0xE92D else 0xE8BD)
      (if k = 0 then .lr else .pc) barred regs = .ok word) :
    word.width = (if regs.isLowPlus (if k = 0 then .lr else .pc) then .narrow else .wide) ∧
      word.reading = some (if k = 0 then .push regs else .pop regs) := by
  rcases eq_of_assembleStack h with ⟨hlow, rfl⟩ | ⟨hlow, rfl⟩
  · have hbyte := Nat.mod_lt regs.bits.toNat (by decide : 256 > 0)
    refine ⟨(if_pos hlow).symm, ?_⟩
    rw [bit_mul, reading_stack hk (bit_lt _) hbyte]
    obtain rfl | rfl : k = 0 ∨ k = 1 := by omega
    · exact congrArg (fun s => some (Operation.push s)) (RegSet.ofNat_of_isLowPlus hlow (.inl rfl))
    · exact congrArg (fun s => some (Operation.pop s)) (RegSet.ofNat_of_isLowPlus hlow (.inr rfl))
  · refine ⟨(if_neg hlow).symm, ?_⟩
    rw [Word.reading_wide29 (by split <;> decide) (by split <;> decide)]
    obtain rfl | rfl : k = 0 ∨ k = 1 := by omega
    all_goals simp [wide29?]

theorem roundTrips_push {regs : RegSet} (h : assemblePush regs = .ok word) :
    RoundTrips (.push regs) word := by
  obtain ⟨hwidth, hread⟩ := reading_assembleStack (k := 0) (by decide) h
  exact ⟨hwidth, hread⟩

theorem roundTrips_pop {regs : RegSet} (h : assemblePop regs = .ok word) :
    RoundTrips (.pop regs) word := by
  obtain ⟨hwidth, hread⟩ := reading_assembleStack (k := 1) (by decide) h
  exact ⟨hwidth, hread⟩

end Instruction

end HeliumKernels
