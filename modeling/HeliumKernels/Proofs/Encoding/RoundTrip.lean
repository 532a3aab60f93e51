/-
  HeliumKernels.Proofs.Encoding.RoundTrip

  Decoding undoes encoding.  Every instruction that assembles has the width
  it announces and is decoded to its own meaning, whatever half-words
  follow; hence no instruction hides behind a no-op or behind another one's
  bits.
-/
import HeliumKernels.Proofs.Encoding.Vector

namespace HeliumKernels

/-- Whether an addition, subtraction or move sets the flags. -/
def Operation.setsFlags : Operation → Bool
  | .movImm _ _ setFlags => setFlags
  | .addImm _ _ _ setFlags => setFlags
  | .subImm _ _ _ setFlags => setFlags
  | .addReg _ _ _ _ setFlags => setFlags
  | .subReg _ _ _ _ setFlags => setFlags
  | _ => false

namespace Instruction

variable {i j : Instruction} {word : Word}

/-- Every family, from the lemma of that family. -/
theorem roundTrips_of_assemble (h : i.assemble = .ok word) : RoundTrips i word := by
  cases i with
  | addSubImm => exact roundTrips_addSubImm h
  | addSubReg => exact roundTrips_addSubReg h
  | cmpImm => exact roundTrips_cmpImm h
  | cmpReg => exact roundTrips_cmpReg h
  | movImm => exact roundTrips_movImm h
  | movReg => exact roundTrips_movReg h
  | ldrImm => exact roundTrips_ldrImm h
  | ldrReg => exact roundTrips_ldrReg h
  | branch => exact roundTrips_branch h
  | bx => exact roundTrips_bx h
  | nop => exact roundTrips_nop h
  | loopStart => exact roundTrips_loopStart h
  | loopEnd => exact roundTrips_loopEnd h
  | push => exact roundTrips_push h
  | pop => exact roundTrips_pop h
  | vpush => exact roundTrips_vpush h
  | vpop => exact roundTrips_vpop h
  | vecMem => exact roundTrips_vecMem h
  | vfmaScalar => exact roundTrips_vfmaScalar h
  | vfmaVector => exact roundTrips_vfmaVector h
  | vmovImm => exact roundTrips_vmovImm h
  | vctp => exact roundTrips_vctp h
  | vpst => exact roundTrips_vpst h
  | vmovSr => exact roundTrips_vmovSr h

/-- Only a no-op means nothing. -/
theorem eq_nop_of_meaning (h : i.meaning = .nop) : ∃ width, i = .nop width := by
  cases i with
  | nop width => exact ⟨width, rfl⟩
  | addSubImm op => cases op <;> cases h
  | addSubReg op => cases op <;> cases h
  | movImm rd imm form => cases form <;> cases h
  | _ => cases h

/-- The forms that set the flags are the narrow additions and subtractions
    other than the accumulating one, and the narrow move. -/
theorem setsFlags_meaning_iff :
    i.meaning.setsFlags = true ↔
      (∃ op rd rn imm, i = .addSubImm op rd rn imm .narrow3 ∨ i = .addSubImm op rd rn imm .narrow8) ∨
      (∃ op rd rn rm shift, i = .addSubReg op rd rn rm shift .narrow3) ∨
      (∃ rd imm, i = .movImm rd imm .narrow8) := by
  cases i with
  | addSubImm op rd rn imm form => cases op <;> cases form <;> simp [meaning, Operation.setsFlags]
  | addSubReg op rd rn rm shift form =>
    cases op <;> cases form <;> simp [meaning, Operation.setsFlags]
  | movImm rd imm form => cases form <;> simp [meaning, Operation.setsFlags]
  | _ => simp [meaning, Operation.setsFlags]

theorem RoundTrips.eq_nop_of_isNop (h : RoundTrips i word) (hnop : word.isNop = true) :
    ∃ width, i = .nop width := by
  have hword : word = .nop word.width := by simpa [Word.isNop] using hnop
  have hread := h.reading_eq
  rw [hword, reading_nop] at hread
  exact eq_nop_of_meaning (Option.some.inj hread).symm

/-- Decoding an assembled instruction, followed by anything, gives its width
    and its meaning; a no-op pattern comes from a no-op only, and one
    encoding has one meaning. -/
theorem decode_assemble (h : i.assemble = .ok word) :
    word.width = i.width ∧
    (∀ rest, decode (word.halfWords ++ rest) = .ok ⟨i.meaning, i.width⟩) ∧
    (i.meaning.setsFlags = true ↔
      (∃ op rd rn imm, i = .addSubImm op rd rn imm .narrow3 ∨ i = .addSubImm op rd rn imm .narrow8) ∨
      (∃ op rd rn rm shift, i = .addSubReg op rd rn rm shift .narrow3) ∨
      (∃ rd imm, i = .movImm rd imm .narrow8)) ∧
    (word.isNop = true → ∃ width, i = .nop width) ∧
    (∀ j : Instruction, j.assemble = .ok word → j.meaning = i.meaning) := by
  have htrip := roundTrips_of_assemble h
  refine ⟨htrip.width_eq, ?_, setsFlags_meaning_iff, htrip.eq_nop_of_isNop, ?_⟩
  · intro rest
    rw [← htrip.width_eq]
    exact Word.decode_halfWords htrip.reading_eq rest
  · intro j hj
    have hread := (roundTrips_of_assemble hj).reading_eq
    rw [htrip.reading_eq] at hread
    exact (Option.some.inj hread).symm

/-- The farthest backward conditional branch: every offset bit but the sign is
    zero, and the first half-word differs from that of the wide no-op. -/
theorem decode_assemble_farthest_branch :
    assemble (.branch .le (-1048576) .wide) = .ok (.wide 0xF740 0x8000) ∧
      decode ([0xF740, 0x8000] ++ [0xBF00]) = .ok ⟨.branch .le (-1048576), .wide⟩ := by
  have h : assemble (.branch .le (-1048576) .wide) = .ok (.wide 0xF740 0x8000) := rfl
  exact ⟨h, (decode_assemble h).2.1 [0xBF00]⟩

end Instruction

end HeliumKernels
