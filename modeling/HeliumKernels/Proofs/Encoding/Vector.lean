/-
  HeliumKernels.Proofs.Encoding.Vector

  Words of the vector instructions, read back.  The patterns of this group
  overlap in the first half-word; what tells them apart is in the second.
-/
import HeliumKernels.Proofs.Encoding.Control

namespace HeliumKernels

namespace Instruction

open Decode HalfWord Operand

variable {word : Word}

/-! ## Stack of double registers -/

/-- A vector push or pop: `x` is the top bit of the first register, `y` its
    four low bits. -/
theorem wide29?_stack {k x y count : Nat} (hk : k < 2) (hx : x < 2) (hy : y < 16)
    (hcount : count < 128) :
    wide29? (UInt16.ofNat ((if k = 0 then 0xED2D else 0xECBD) + x * 64))
      (UInt16.ofNat (y * 4096 + 0x0B00 + count * 2)) =
      some (if k = 0 then .vpush (x * 16 + y) count else .vpop (x * 16 + y) count) := by
  simp only [wide29?, field_ofNat, ofNat_eq_iff, UInt16.reduceToNat]
  generalize hword : y * 4096 + 0x0B00 + count * 2 = n
  rw [show n % 65536 / 2 ^ 8 % 2 ^ 4 = 0xB by omega, show n % 65536 / 2 ^ 12 % 2 ^ 4 = y by omega,
    show n % 65536 / 2 ^ 0 % 2 ^ 8 / 2 = count by omega]
  obtain rfl | rfl : k = 0 ∨ k = 1 := by omega
  · rw [if_pos rfl, if_neg (by omega), if_neg (by omega), if_pos (by omega),
      show (0xED2D + x * 64) % 65536 / 2 ^ 6 % 2 ^ 1 = x by omega]
    rfl
  · rw [if_neg Nat.one_ne_zero, if_neg (by omega), if_neg (by omega), if_neg (by omega),
      if_pos (by omega), show (0xECBD + x * 64) % 65536 / 2 ^ 6 % 2 ^ 1 = x by omega]
    rfl

/-- The shared body of push and pop, at the base of either. -/
theorem reading_vectorStack {k first count : Nat} (hk : k < 2)
    (h : assembleVectorStack (if k = 0 then 0xED2D else 0xECBD) first count = .ok word) :
    word.width = .wide ∧
      word.reading = some (if k = 0 then .vpush first count else .vpop first count) := by
  unfold assembleVectorStack at h
  split at h
  · cases h
  · obtain rfl := Except.ok.inj h
    have hread := wide29?_stack (x := first / 16) (y := first % 16) hk (by omega) (by omega)
      (by omega : count < 128)
    rw [Nat.div_add_mod'] at hread
    refine ⟨rfl, ?_⟩
    rw [Word.reading_wide29 (by split <;> omega) (by split <;> omega), hread]

theorem roundTrips_vpush {first count : Nat} (h : assembleVectorStack 0xED2D first count = .ok word) :
    RoundTrips (.vpush first count) word := by
  obtain ⟨hwidth, hread⟩ := reading_vectorStack (k := 0) (by decide) h
  exact ⟨hwidth, hread⟩

theorem roundTrips_vpop {first count : Nat} (h : assembleVectorStack 0xECBD first count = .ok word) :
    RoundTrips (.vpop first count) word := by
  obtain ⟨hwidth, hread⟩ := reading_vectorStack (k := 1) (by decide) h
  exact ⟨hwidth, hread⟩

/-! ## Loads and stores -/

theorem wide29?_vecMem {n1 n2 : Nat} (hlow : 0xEC00 ≤ n1) (hhigh : n1 < 0xEE00)
    (hbit : n1 / 64 % 2 = 0) (h2 : n2 / 128 % 64 = 0x3E) :
    wide29? (UInt16.ofNat n1) (UInt16.ofNat n2) =
      vecMem? (UInt16.ofNat n1) (UInt16.ofNat n2) := by
  simp only [wide29?, field_ofNat, ofNat_eq_iff, UInt16.reduceToNat]
  rw [if_neg (by omega), if_neg (by omega), if_neg (by omega), if_neg (by omega), if_pos (by omega)]

/-- Fields of a vector load or store. -/
theorem vecMem?_fields {indexing : Indexing} {up load n q x : Nat} (hup : up < 2) (hload : load < 2)
    (hn : n < 16) (hq : q < 8) (hx : x < 128) :
    vecMem? (UInt16.ofNat (0xEC00 + indexing.p * 256 + up * 128 + indexing.w * 32 + load * 16 + n))
      (UInt16.ofNat (q * 8192 + 0x1F00 + x)) =
      some (.vecMem (if load = 1 then .load else .store) (QReg.ofField q) (Reg.ofField n)
        (signedOffset up (x * 4)) indexing) := by
  have hp : indexing.p < 2 := by cases indexing <;> decide
  have hw : indexing.w < 2 := by cases indexing <;> decide
  simp only [vecMem?, field_ofNat]
  generalize hword1 :
    0xEC00 + indexing.p * 256 + up * 128 + indexing.w * 32 + load * 16 + n = n1
  generalize hword2 : q * 8192 + 0x1F00 + x = n2
  rw [show n1 % 65536 / 2 ^ 8 % 2 ^ 1 = indexing.p by omega,
    show n1 % 65536 / 2 ^ 5 % 2 ^ 1 = indexing.w by omega,
    show n1 % 65536 / 2 ^ 4 % 2 ^ 1 = load by omega, show n1 % 65536 / 2 ^ 0 % 2 ^ 4 = n by omega,
    show n1 % 65536 / 2 ^ 7 % 2 ^ 1 = up by omega, show n2 % 65536 / 2 ^ 13 % 2 ^ 3 = q by omega,
    show n2 % 65536 / 2 ^ 0 % 2 ^ 7 = x by omega]
  cases indexing <;> rfl

theorem roundTrips_vecMem {access : Access} {qd : QReg} {rn : Reg} {offset : Int}
    {indexing : Indexing} (h : assembleVecMem access qd rn offset indexing = .ok word) :
    RoundTrips (.vecMem access qd rn offset indexing) word := by
  simp only [assembleVecMem, bind_eq_ok, guard_eq_ok, pure_eq_ok, signed_eq_ok, aligned_eq_ok,
    notPc_eq_ok, vectorOffsetMax] at h
  obtain ⟨_, ⟨hrange, rfl⟩, _, ⟨halign, rfl⟩, _, ⟨hn, rfl⟩, -, rfl⟩ := h
  have hrn := rn.num_lt
  have hqd := qd.isLt
  have hmagnitude : offset.natAbs / 4 < 128 := by omega
  have hoffset : signedOffset (if 0 ≤ offset then 1 else 0) (offset.natAbs / 4 * 4) = offset := by
    rw [show offset.natAbs / 4 * 4 = offset.natAbs by omega]
    exact signedOffset_natAbs offset
  have hup : (if 0 ≤ offset then 1 else 0) < 2 := by split <;> omega
  have hload : (if access = .load then 1 else 0) < 2 := by split <;> omega
  have hp : indexing.p < 2 := by cases indexing <;> decide
  have hw : indexing.w < 2 := by cases indexing <;> decide
  refine ⟨rfl, ?_⟩
  rw [Word.reading_wide29 (by omega) (by omega),
    wide29?_vecMem (by omega) (by omega) (by omega) (by omega),
    vecMem?_fields hup hload hrn hqd hmagnitude, hoffset]
  cases access <;> simp [meaning]

/-! ## Arithmetic -/

theorem roundTrips_vfmaScalar {qda qn : QReg} {rm : Reg}
    (h : assemble (.vfmaScalar qda qn rm) = .ok word) :
    RoundTrips (.vfmaScalar qda qn rm) word := by
  simp only [assemble, bind_eq_ok, pure_eq_ok, general_eq_ok] at h
  obtain ⟨_, ⟨-, rfl⟩, rfl⟩ := h
  have hrm := rm.num_lt
  have hqn := qn.isLt
  have hqda := qda.isLt
  refine ⟨rfl, ?_⟩
  rw [Word.reading_wide29 (by omega) (by omega)]
  simp only [wide29?, field_ofNat, ofNat_eq_iff, UInt16.reduceToNat]
  generalize hword : qda.val * 8192 + 0x0E40 + rm.num = n
  rw [if_neg (by omega), if_neg (by omega), if_neg (by omega), if_neg (by omega),
    if_neg (by omega), if_pos (by omega),
    show (0xEE31 + qn.val * 2) % 65536 / 2 ^ 1 % 2 ^ 3 = qn.val by omega,
    show n % 65536 / 2 ^ 13 % 2 ^ 3 = qda.val by omega,
    show n % 65536 / 2 ^ 0 % 2 ^ 4 = rm.num by omega]
  simp [meaning]

theorem roundTrips_vfmaVector {qd qn qm : QReg} (h : assemble (.vfmaVector qd qn qm) = .ok word) :
    RoundTrips (.vfmaVector qd qn qm) word := by
  simp only [assemble, Except.ok.injEq] at h
  subst h
  have hqd := qd.isLt
  have hqn := qn.isLt
  have hqm := qm.isLt
  refine ⟨rfl, ?_⟩
  rw [Word.reading_wide29 (by omega) (by omega)]
  simp only [wide29?, field_ofNat, ofNat_eq_iff, UInt16.reduceToNat]
  generalize hword : qd.val * 8192 + 0x0C50 + qm.val * 2 = n
  rw [if_neg (by omega), if_neg (by omega), if_neg (by omega), if_neg (by omega),
    if_neg (by omega), if_neg (by omega), if_pos (by omega),
    show (0xEF00 + qn.val * 2) % 65536 / 2 ^ 1 % 2 ^ 3 = qn.val by omega,
    show n % 65536 / 2 ^ 13 % 2 ^ 3 = qd.val by omega,
    show n % 65536 / 2 ^ 1 % 2 ^ 3 = qm.val by omega]
  simp [meaning]

theorem roundTrips_vmovSr {sd : SReg} {rt : Reg} (h : assemble (.vmovSr sd rt) = .ok word) :
    RoundTrips (.vmovSr sd rt) word := by
  simp only [assemble, bind_eq_ok, pure_eq_ok, general_eq_ok] at h
  obtain ⟨_, ⟨-, rfl⟩, rfl⟩ := h
  have hrt := rt.num_lt
  have hsd := sd.isLt
  refine ⟨rfl, ?_⟩
  rw [Word.reading_wide29 (by omega) (by omega)]
  simp only [wide29?, field_ofNat, ofNat_eq_iff, UInt16.reduceToNat]
  -- the lowest bit of the register number stands in the other half-word
  have hsplit : sd.val / 2 * 2 + sd.val % 2 = sd.val := by omega
  have hx : sd.val / 2 < 16 := by omega
  have hy := Nat.mod_lt sd.val (by decide : 2 > 0)
  generalize sd.val / 2 = x at *
  generalize sd.val % 2 = y at *
  generalize hword : rt.num * 4096 + 0x0A10 + y * 128 = n
  rw [if_neg (by omega), if_neg (by omega), if_neg (by omega), if_neg (by omega),
    if_neg (by omega), if_neg (by omega), if_neg (by omega), if_neg (by omega),
    if_pos (by omega), show (0xEE00 + x) % 65536 / 2 ^ 0 % 2 ^ 4 = x by omega,
    show n % 65536 / 2 ^ 7 % 2 ^ 1 = y by omega, hsplit,
    show n % 65536 / 2 ^ 12 % 2 ^ 4 = rt.num by omega]
  simp [meaning]

/-! ## Splats -/

/-- The byte of a splat is cut into one, three and four bits. -/
theorem vmovImm?_fields {x y z q position : Nat} (hx : x < 2) (hy : y < 8) (hz : z < 16) (hq : q < 8)
    (hposition : position < 4) :
    vmovImm? (UInt16.ofNat (0xEF80 + x * 4096 + y))
      (UInt16.ofNat (q * 8192 + 2 * position * 256 + 0x50 + z)) =
      some (.vmovImm (QReg.ofField q)
        (UInt32.ofNat ((x * 128 + y * 16 + z) <<< (4 * (2 * position))))) := by
  simp only [vmovImm?, field_ofNat]
  generalize hword : q * 8192 + 2 * position * 256 + 0x50 + z = n
  rw [show n % 65536 / 2 ^ 8 % 2 ^ 4 = 2 * position by omega, if_neg (by omega),
    show (0xEF80 + x * 4096 + y) % 65536 / 2 ^ 12 % 2 ^ 1 = x by omega,
    show (0xEF80 + x * 4096 + y) % 65536 / 2 ^ 0 % 2 ^ 3 = y by omega,
    show n % 65536 / 2 ^ 0 % 2 ^ 4 = z by omega, show n % 65536 / 2 ^ 13 % 2 ^ 3 = q by omega]

/-- The top bit of the byte moves a splat into another group of opcodes. -/
theorem reading_splat {x y n : Nat} (hx : x < 2) (hy : y < 8) (hbit : n / 4096 % 2 = 0)
    (hpattern : n / 16 % 16 = 5) :
    (Word.ofFieldPair (0xEF80 + x * 4096 + y) n).reading =
      vmovImm? (UInt16.ofNat (0xEF80 + x * 4096 + y)) (UInt16.ofNat n) := by
  obtain rfl | rfl : x = 0 ∨ x = 1 := by omega
  · rw [Word.reading_wide29 (by omega) (by omega)]
    simp only [wide29?, field_ofNat, ofNat_eq_iff, UInt16.reduceToNat]
    rw [if_neg (by omega), if_neg (by omega), if_neg (by omega), if_neg (by omega),
      if_neg (by omega), if_neg (by omega), if_neg (by omega), if_pos (by omega)]
  · rw [Word.reading_wide31 (by omega) (by omega)]
    simp only [wide31?, field_ofNat]
    rw [if_pos (by omega)]

theorem roundTrips_vmovImm {qd : QReg} {value : UInt32} (h : assembleVmovImm qd value = .ok word) :
    RoundTrips (.vmovImm qd value) word := by
  unfold assembleVmovImm at h
  split at h
  · cases h
  · rename_i mode byte hsplit
    obtain rfl := Except.ok.inj h
    obtain ⟨hbyte, position, hposition, rfl, hvalue⟩ := Splat.eq_of_split? hsplit
    have hqd := qd.isLt
    have hparts : byte / 128 * 128 + byte / 16 % 8 * 16 + byte % 16 = byte := by omega
    have hx : byte / 128 < 2 := by omega
    have hy := Nat.mod_lt (byte / 16) (by decide : 8 > 0)
    have hz := Nat.mod_lt byte (by decide : 16 > 0)
    have hplaces : 4 * (2 * position) = 8 * position := by omega
    refine ⟨rfl, ?_⟩
    rw [reading_splat hx hy (by omega) (by omega),
      vmovImm?_fields hx hy hz hqd hposition, hparts, hplaces, hvalue]
    simp [meaning]

/-! ## Predication -/

theorem roundTrips_vctp {size : LaneSize} {rn : Reg} (h : assemble (.vctp size rn) = .ok word) :
    RoundTrips (.vctp size rn) word := by
  simp only [assemble, bind_eq_ok, pure_eq_ok, general_eq_ok] at h
  obtain ⟨_, ⟨-, rfl⟩, rfl⟩ := h
  have hrn := rn.num_lt
  have hsize : size.code < 4 := by cases size <;> decide
  have hread := LaneSize.ofCode_code size
  refine ⟨rfl, ?_⟩
  rw [Word.reading_wide30 (by omega) (by omega),
    wide30?_loop (by omega) (by omega) (by decide) (by decide)]
  simp only [loop?, field_ofNat]
  generalize size.code = k at *
  rw [show (0xF000 + k * 16 + rn.num) % 65536 / 2 ^ 4 % 2 ^ 3 = k by omega,
    show (0xF000 + k * 16 + rn.num) % 65536 / 2 ^ 0 % 2 ^ 4 = rn.num by omega,
    if_pos ⟨rfl, hsize⟩, hread]
  simp [meaning]

theorem roundTrips_vpst {count : Nat} (h : assembleVpst count = .ok word) :
    RoundTrips (.vpst count) word := by
  unfold assembleVpst at h
  split at h
  · obtain rfl := Except.ok.inj h
    obtain rfl | rfl | rfl | rfl : count = 1 ∨ count = 2 ∨ count = 3 ∨ count = 4 := by omega
    · exact ⟨rfl, rfl⟩
    · exact ⟨rfl, rfl⟩
    · exact ⟨rfl, rfl⟩
    · exact ⟨rfl, rfl⟩
  · cases h

end Instruction

end HeliumKernels
