/-
  HeliumKernels.Proofs.Encoding.Control

  Branches and loop instructions, read back.  An offset is cut into bit
  groups on one side and put together and sign-extended on the other:
  `bits_append` joins neighbouring groups, and `signExtend_eq` recovers a
  number in range from its residue.
-/
import HeliumKernels.Proofs.Encoding.Scalar

namespace HeliumKernels

namespace Operand

/-- Neighbouring bit groups join. -/
theorem bits_append (x : Int) (low a b : Nat) :
    bits x (low + a) b * 2 ^ a + bits x low a = bits x low (a + b) := by
  have ha : (0 : Int) ≤ 2 ^ a := Int.le_of_lt (Int.pow_pos (by decide))
  have hdiv : x / 2 ^ (low + a) = x / 2 ^ low / 2 ^ a := by
    rw [Int.pow_add, Int.ediv_ediv_of_nonneg (Int.le_of_lt (Int.pow_pos (by decide)))]
  apply Int.ofNat_inj.mp
  rw [Int.natCast_add, Int.natCast_mul, Int.natCast_pow, bits_natCast, bits_natCast, bits_natCast,
    hdiv, Int.pow_add]
  generalize x / 2 ^ low = y
  show y / 2 ^ a % 2 ^ b * 2 ^ a + y % 2 ^ a = y % (2 ^ a * 2 ^ b)
  -- both remainders are what the two divisions leave, and dividing twice divides by the product
  rw [Int.emod_def y (2 ^ a * 2 ^ b), ← Int.ediv_ediv_of_nonneg ha, Int.emod_def, Int.emod_def]
  ring

end Operand

namespace Instruction

open Decode HalfWord Operand

/-! ## Branches -/

/-- A number of `length + 1` bits is the sign extension of its residue. -/
theorem signExtend_eq {x : Int} {n length : Nat} (hlow : -2 ^ length ≤ x) (hhigh : x < 2 ^ length)
    (h : (n : Int) = x % 2 ^ (length + 1)) : signExtend n (length + 1) = x := by
  have hpow : (2 : Int) ^ (length + 1) = 2 * 2 ^ length := by rw [Int.pow_succ, Int.mul_comm]
  have hcast : ((2 ^ length : Nat) : Int) = 2 ^ length := by push_cast; rfl
  have hcast' : ((2 ^ (length + 1) : Nat) : Int) = 2 * 2 ^ length := by push_cast; exact hpow
  rw [hpow] at h
  rw [signExtend, Nat.add_sub_cancel, Nat.one_shiftLeft, Nat.one_shiftLeft]
  generalize (2 : Int) ^ length = p at *
  have hlt := Int.emod_lt_of_pos x (by omega : 0 < 2 * p)
  rw [Nat.mod_eq_of_lt (by omega), hcast']
  -- the residue of a negative number has the sign bit set
  rcases Int.lt_or_le x 0 with hneg | hnonneg
  · have hx : x % (2 * p) = x + 2 * p := by
      rw [← Int.add_emod_right, Int.emod_eq_of_lt (by omega) (by omega)]
    rw [if_neg (by omega)]
    omega
  · have hx : x % (2 * p) = x := Int.emod_eq_of_lt hnonneg (by omega)
    rw [if_pos (by omega)]
    omega

theorem branchCondition?_code {cond : Condition} (h : cond ≠ .al) :
    branchCondition? cond.code = some cond := by
  simp [branchCondition?, h]

theorem code_lt_of_ne_al {cond : Condition} (h : cond ≠ .al) : cond.code < 14 := by
  cases cond <;> first | decide | exact absurd rfl h

variable {cond : Condition} {offset : Int} {word : Word}

theorem reading_short {b : Nat} (hb : b < 2048) :
    (Word.ofFields (0xE000 + b)).reading = some (.branch .al (signExtend (b * 2) 12)) := by
  rw [Word.reading_ofFields (by omega)]
  simp only [narrow?, field_ofNat, ofNat_eq_iff, UInt16.reduceToNat]
  rw [if_neg (by omega), show (0xE000 + b) % 65536 / 2 ^ 11 % 2 ^ 5 = 28 by omega,
    show (0xE000 + b) % 65536 / 2 ^ 0 % 2 ^ 11 = b by omega]
  rfl

theorem reading_short_conditional {b : Nat} (hcond : cond ≠ .al) (hb : b < 256) :
    (Word.ofFields (0xD000 + cond.code * 256 + b)).reading =
      some (.branch cond (signExtend (b * 2) 9)) := by
  have hcode := code_lt_of_ne_al hcond
  have hread := branchCondition?_code hcond
  rw [Word.reading_ofFields (by omega)]
  simp only [narrow?, field_ofNat, ofNat_eq_iff, UInt16.reduceToNat]
  generalize cond.code = c at *
  rw [if_neg (by omega), show (0xD000 + c * 256 + b) % 65536 / 2 ^ 8 % 2 ^ 4 = c by omega,
    show (0xD000 + c * 256 + b) % 65536 / 2 ^ 0 % 2 ^ 8 = b by omega, hread]
  -- the lowest bit of the opcode belongs to the condition
  obtain h | h : (0xD000 + c * 256 + b) % 65536 / 2 ^ 11 % 2 ^ 5 = 26 ∨
      (0xD000 + c * 256 + b) % 65536 / 2 ^ 11 % 2 ^ 5 = 27 := by omega
  · rw [h]
    rfl
  · rw [h]
    rfl

theorem wide30?_branch {n1 n2 : Nat} (hne : n1 % 65536 = 0xF3AF → n2 % 65536 ≠ 0x8000)
    (hlow : 0x8000 ≤ n2) (hhigh : n2 < 0xC000) :
    wide30? (UInt16.ofNat n1) (UInt16.ofNat n2) =
      branch? (UInt16.ofNat n1) (UInt16.ofNat n2) := by
  simp only [wide30?, field_ofNat, ofNat_eq_iff, UInt16.reduceToNat]
  rw [if_neg (fun h => hne h.1 h.2), if_neg (by omega), if_neg (by omega)]

theorem reading_always {s i j hi lo : Nat} (hs : s < 2) (hi1 : i < 2) (hj : j < 2)
    (hhi : hi < 1024) (hlo : lo < 2048) :
    (Word.ofFieldPair (0xF000 + s * 1024 + hi)
      (0x9000 + (1 + i + s) % 2 * 8192 + (1 + j + s) % 2 * 2048 + lo)).reading =
      some (.branch .al (signExtend
        (s * 0x1000000 + i * 0x800000 + j * 0x400000 + hi * 4096 + lo * 2) 25)) := by
  -- the two bits under the sign are stored as their agreement with it; that is its own inverse
  have hi' : (1 + (1 + i + s) % 2 + s) % 2 = i := by omega
  have hj' : (1 + (1 + j + s) % 2 + s) % 2 = j := by omega
  have hj1 : (1 + i + s) % 2 < 2 := by omega
  have hj2 : (1 + j + s) % 2 < 2 := by omega
  generalize (1 + i + s) % 2 = j1 at *
  generalize (1 + j + s) % 2 = j2 at *
  rw [Word.reading_wide30 (by omega) (by omega), wide30?_branch (by omega) (by omega) (by omega)]
  simp only [branch?, field_ofNat]
  generalize hword1 : 0xF000 + s * 1024 + hi = n1
  generalize hword2 : 0x9000 + j1 * 8192 + j2 * 2048 + lo = n2
  rw [if_pos (by omega), show n1 % 65536 / 2 ^ 10 % 2 ^ 1 = s by omega,
    show n1 % 65536 / 2 ^ 0 % 2 ^ 10 = hi by omega,
    show n2 % 65536 / 2 ^ 13 % 2 ^ 1 = j1 by omega,
    show n2 % 65536 / 2 ^ 11 % 2 ^ 1 = j2 by omega,
    show n2 % 65536 / 2 ^ 0 % 2 ^ 11 = lo by omega, hi', hj']

theorem reading_conditional {s i j hi lo : Nat} (hcond : cond ≠ .al) (hs : s < 2) (hi1 : i < 2)
    (hj : j < 2) (hhi : hi < 64) (hlo : lo < 2048) :
    (Word.ofFieldPair (0xF000 + s * 1024 + cond.code * 64 + hi)
      (0x8000 + i * 8192 + j * 2048 + lo)).reading =
      some (.branch cond (signExtend
        (s * 0x100000 + j * 0x80000 + i * 0x40000 + hi * 4096 + lo * 2) 21)) := by
  have hcode := code_lt_of_ne_al hcond
  have hread := branchCondition?_code hcond
  generalize cond.code = c at *
  rw [Word.reading_wide30 (by omega) (by omega), wide30?_branch (by omega) (by omega) (by omega)]
  simp only [branch?, field_ofNat]
  generalize hword1 : 0xF000 + s * 1024 + c * 64 + hi = n1
  generalize hword2 : 0x8000 + i * 8192 + j * 2048 + lo = n2
  rw [if_neg (by omega), show n1 % 65536 / 2 ^ 10 % 2 ^ 1 = s by omega,
    show n1 % 65536 / 2 ^ 6 % 2 ^ 4 = c by omega,
    show n1 % 65536 / 2 ^ 0 % 2 ^ 6 = hi by omega,
    show n2 % 65536 / 2 ^ 13 % 2 ^ 1 = i by omega,
    show n2 % 65536 / 2 ^ 11 % 2 ^ 1 = j by omega,
    show n2 % 65536 / 2 ^ 0 % 2 ^ 11 = lo by omega, hread]
  rfl

/-- The bit groups of a long unconditional branch hold the offset. -/
theorem residue_always (heven : offset % 2 = 0) :
    ((bits offset 24 1 * 0x1000000 + bits offset 23 1 * 0x800000 + bits offset 22 1 * 0x400000 +
      bits offset 12 10 * 4096 + bits offset 1 11 * 2 : Nat) : Int) = offset % 2 ^ 25 := by
  have h12 := bits_append offset 1 11 10
  have h22 := bits_append offset 1 21 1
  have h23 := bits_append offset 1 22 1
  have h24 := bits_append offset 1 23 1
  have hall := bits_natCast offset 1 24
  simp only [Nat.reduceAdd] at h12 h22 h23 h24
  omega

/-- The bit groups of a long conditional branch hold the offset. -/
theorem residue_conditional (heven : offset % 2 = 0) :
    ((bits offset 20 1 * 0x100000 + bits offset 19 1 * 0x80000 + bits offset 18 1 * 0x40000 +
      bits offset 12 6 * 4096 + bits offset 1 11 * 2 : Nat) : Int) = offset % 2 ^ 21 := by
  have h12 := bits_append offset 1 11 6
  have h18 := bits_append offset 1 17 1
  have h19 := bits_append offset 1 18 1
  have h20 := bits_append offset 1 19 1
  have hall := bits_natCast offset 1 20
  simp only [Nat.reduceAdd] at h12 h18 h19 h20
  omega

theorem roundTrips_branch {width : Width} (h : assembleBranch cond offset width = .ok word) :
    RoundTrips (.branch cond offset width) word := by
  simp only [assembleBranch, guard_eq_ok, ne_eq, Decidable.not_not] at h
  obtain ⟨heven, hrange, h⟩ := h
  cases width with
  | narrow =>
    by_cases hcond : cond = .al
    · subst hcond
      obtain rfl := pure_eq_ok.mp h
      -- the range of the form is that of its field, so the field loses nothing
      simp only [branchRange, beq_self_eq_true] at hrange
      have hread := reading_short (bits_lt offset 1 11)
      have hbits := bits_natCast offset 1 11
      rw [signExtend_eq (x := offset) (by omega) (by omega) (by omega)] at hread
      exact ⟨rfl, hread⟩
    · simp only [branchRange, beq_eq_false_iff_ne.mpr hcond] at hrange h
      obtain rfl := pure_eq_ok.mp h
      have hread := reading_short_conditional hcond (bits_lt offset 1 8)
      have hbits := bits_natCast offset 1 8
      rw [signExtend_eq (x := offset) (by omega) (by omega) (by omega)] at hread
      exact ⟨rfl, hread⟩
  | wide =>
    by_cases hcond : cond = .al
    · subst hcond
      obtain rfl := pure_eq_ok.mp h
      simp only [branchRange, beq_self_eq_true] at hrange
      -- the field is in pieces here, which together are the residue of the offset
      have hread := reading_always (bits_lt offset 24 1) (bits_lt offset 23 1) (bits_lt offset 22 1)
        (bits_lt offset 12 10) (bits_lt offset 1 11)
      rw [signExtend_eq (x := offset) (by omega) (by omega) (residue_always heven)] at hread
      exact ⟨rfl, hread⟩
    · simp only [branchRange, beq_eq_false_iff_ne.mpr hcond] at hrange h
      obtain rfl := pure_eq_ok.mp h
      have hread := reading_conditional hcond (bits_lt offset 20 1) (bits_lt offset 18 1)
        (bits_lt offset 19 1) (bits_lt offset 12 6) (bits_lt offset 1 11)
      rw [signExtend_eq (x := offset) (by omega) (by omega) (residue_conditional heven)] at hread
      exact ⟨rfl, hread⟩

/-! ## Loops -/

theorem wide30?_loop {n1 n2 : Nat} (hlow : 0xF000 ≤ n1) (hhigh : n1 < 0xF080) (h2 : 0xC000 ≤ n2)
    (h2' : n2 < 65536) :
    wide30? (UInt16.ofNat n1) (UInt16.ofNat n2) = loop? (UInt16.ofNat n1) (UInt16.ofNat n2) := by
  simp only [wide30?, field_ofNat, ofNat_eq_iff, UInt16.reduceToNat]
  rw [if_neg (by omega), if_neg (by omega), if_pos (by omega), if_pos (by omega)]

/-- The offset field of the loop instructions holds the offset. -/
theorem loopOffset_bits (heven : offset % 2 = 0) (hlow : 0 ≤ offset)
    (hhigh : offset ≤ loopRange) :
    Decode.loopOffset (UInt16.ofNat (0xC001 + (bits offset 1 1 * 2048 + bits offset 2 10 * 2))) =
      offset := by
  have hx := bits_lt offset 1 1
  have hy := bits_lt offset 2 10
  have hsum : ((bits offset 2 10 * 4 + bits offset 1 1 * 2 : Nat) : Int) = offset := by
    have hbit := bits_natCast offset 1 1
    have hbits := bits_natCast offset 2 10
    unfold loopRange at hhigh
    omega
  simp only [Decode.loopOffset, field_ofNat]
  generalize bits offset 1 1 = x at *
  generalize bits offset 2 10 = y at *
  rw [show (0xC001 + (x * 2048 + y * 2)) % 65536 / 2 ^ 1 % 2 ^ 10 = y by omega,
    show (0xC001 + (x * 2048 + y * 2)) % 65536 / 2 ^ 11 % 2 ^ 1 = x by omega, hsum]

/-- Loop instructions with an offset field: the first half-word holds the size
    code and the count register, of which fifteen marks a loop end. -/
theorem reading_loop_offset {k n x : Nat} (hk : k < 8) (hn : n < 16) (hx : x < 4096)
    (heven : x % 2 = 0) :
    (Word.ofFieldPair (0xF000 + k * 16 + n) (0xC001 + x)).reading =
      let offset := Decode.loopOffset (UInt16.ofNat (0xC001 + x))
      if k * 16 + n = 15 then some (.loopEnd offset false)
      else if k * 16 + n = 31 then some (.loopEnd offset true)
      else if 4 < k then none
      else some (.loopStart (Reg.ofField n)
        (if k = 4 then none else some (LaneSize.ofCode k)) (some offset)) := by
  -- the field is even and below 0x1000, so the second half-word is neither fixed pattern
  have hhas : (field (UInt16.ofNat (0xC001 + x)) 12 4 == 0xC &&
      field (UInt16.ofNat (0xC001 + x)) 0 1 == 1) = true := by
    rw [field_ofNat, field_ofNat, Bool.and_eq_true, beq_iff_eq, beq_iff_eq]
    omega
  have hvctp : UInt16.ofNat (0xC001 + x) ≠ 0xE801 := by
    simp only [ne_eq, ofNat_eq_iff, UInt16.reduceToNat]
    omega
  have hplain : UInt16.ofNat (0xC001 + x) ≠ 0xE001 := by
    simp only [ne_eq, ofNat_eq_iff, UInt16.reduceToNat]
    omega
  have hend : UInt16.ofNat (0xF000 + k * 16 + n) = 0xF00F ↔ k * 16 + n = 15 := by
    simp only [ofNat_eq_iff, UInt16.reduceToNat]
    omega
  have htail : UInt16.ofNat (0xF000 + k * 16 + n) = 0xF01F ↔ k * 16 + n = 31 := by
    simp only [ofNat_eq_iff, UInt16.reduceToNat]
    omega
  have hfirst : field (UInt16.ofNat (0xF000 + k * 16 + n)) 4 3 = k ∧
      field (UInt16.ofNat (0xF000 + k * 16 + n)) 0 4 = n := by
    rw [field_ofNat, field_ofNat]
    omega
  rw [Word.reading_wide30 (by omega) (by omega),
    wide30?_loop (by omega) (by omega) (by omega) (by omega)]
  simp only [loop?, hhas, hvctp, hplain, hend, htail, hfirst, false_and, and_true, ↓reduceIte]

theorem reading_loop_plain {k n : Nat} (hk : k < 8) (hn : n < 16) :
    (Word.ofFieldPair (0xF000 + k * 16 + n) 0xE001).reading =
      if 4 < k then none
      else some (.loopStart (Reg.ofField n)
        (if k = 4 then none else some (LaneSize.ofCode k)) none) := by
  have hfirst : field (UInt16.ofNat (0xF000 + k * 16 + n)) 4 3 = k ∧
      field (UInt16.ofNat (0xF000 + k * 16 + n)) 0 4 = n := by
    rw [field_ofNat, field_ofNat]
    omega
  have hhas : (field 0xE001 12 4 == 0xC && field 0xE001 0 1 == 1) = false := by decide
  have hvctp : (0xE001 : UInt16) ≠ 0xE801 := by decide
  have hplain : UInt16.ofNat 0xE001 = 0xE001 := rfl
  rw [Word.reading_wide30 (by omega) (by omega),
    wide30?_loop (by omega) (by omega) (by decide) (by decide)]
  simp only [loop?, hhas, hvctp, hplain, hfirst, false_and, Bool.false_eq_true, and_false,
    ↓reduceIte]

theorem roundTrips_loopEnd {back : Int} {tailPredicated : Bool}
    (h : assemble (.loopEnd back tailPredicated) = .ok word) :
    RoundTrips (.loopEnd back tailPredicated) word := by
  simp only [assemble, bind_eq_ok, pure_eq_ok, loopOffset_eq_ok] at h
  obtain ⟨_, ⟨⟨heven, hlow, hhigh⟩, rfl⟩, rfl⟩ := h
  have hoffset := loopOffset_bits heven hlow hhigh
  have hx := bits_lt back 1 1
  have hy := bits_lt back 2 10
  have hfield : bits back 1 1 * 2048 + bits back 2 10 * 2 < 4096 := by omega
  refine ⟨rfl, ?_⟩
  cases tailPredicated with
  | false =>
    refine (reading_loop_offset (k := 0) (n := 15) (by decide) (by decide) hfield (by omega)).trans ?_
    simp only [hoffset, meaning]
    rfl
  | true =>
    refine (reading_loop_offset (k := 1) (n := 15) (by decide) (by decide) hfield (by omega)).trans ?_
    simp only [hoffset, meaning]
    rfl

/-- Size code of a loop start: four without a tail. -/
def tailCode : Option LaneSize → Nat
  | none => 4
  | some size => size.code

theorem tailCode_le (tail : Option LaneSize) : tailCode tail ≤ 4 := by
  rcases tail with _ | size
  · decide
  · cases size <;> decide

theorem ofCode_tailCode (tail : Option LaneSize) :
    (if tailCode tail = 4 then none else some (LaneSize.ofCode (tailCode tail))) = tail := by
  rcases tail with _ | size
  · rfl
  · cases size <;> rfl

theorem assembleLoopStart_eq (rn : Reg) (tail : Option LaneSize) (exit : Option Int) :
    assembleLoopStart rn tail exit = do
      let n ← general rn "a loop count"
      match exit with
      | none => return .ofFieldPair (0xF000 + tailCode tail * 16 + n) 0xE001
      | some exit =>
        return .ofFieldPair (0xF000 + tailCode tail * 16 + n) (0xC001 + (← loopOffset exit)) := by
  cases tail <;> rfl

theorem roundTrips_loopStart {rn : Reg} {tail : Option LaneSize} {exit : Option Int}
    (h : assembleLoopStart rn tail exit = .ok word) :
    RoundTrips (.loopStart rn tail exit) word := by
  rw [assembleLoopStart_eq] at h
  simp only [bind_eq_ok, general_eq_ok] at h
  obtain ⟨_, ⟨hn, rfl⟩, h⟩ := h
  have hsize := tailCode_le tail
  have hcode := ofCode_tailCode tail
  have hrn := (Reg.num_general hn).1
  cases exit with
  | none =>
    obtain rfl := pure_eq_ok.mp h
    refine ⟨rfl, (reading_loop_plain (by omega) (by omega)).trans ?_⟩
    simp only [if_neg (by omega : ¬4 < tailCode tail), hcode, Reg.ofField_num, meaning]
  | some exit =>
    simp only [bind_eq_ok, pure_eq_ok, loopOffset_eq_ok] at h
    obtain ⟨_, ⟨⟨heven, hlow, hhigh⟩, rfl⟩, rfl⟩ := h
    have hoffset := loopOffset_bits heven hlow hhigh
    have hx := bits_lt exit 1 1
    have hy := bits_lt exit 2 10
    refine ⟨rfl, ?_⟩
    rw [reading_loop_offset (by omega) (by omega) (by omega) (by omega)]
    simp only [if_neg (by omega : ¬tailCode tail * 16 + rn.num = 15),
      if_neg (by omega : ¬tailCode tail * 16 + rn.num = 31),
      if_neg (by omega : ¬4 < tailCode tail), hoffset, hcode, Reg.ofField_num, meaning]

end Instruction

end HeliumKernels
