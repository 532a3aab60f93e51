/-
  HeliumKernels.Proofs.Encoding.Constant

  The field that `encode?` chooses for a value is a twelve-bit field, and
  `expand` reads the value back from it.  The search may stop at any of five
  patterns; each has its own reading lemma.  In the other direction the search
  finds every value that some field stands for, and finds it at that field.
-/
import HeliumKernels.Instruction.Constant
import Mathlib

namespace HeliumKernels

namespace ModifiedConstant

theorem rotated?_eq_some_iff {n rotation field : Nat} :
    rotated? n rotation = some field ↔
      (n % 2 ^ (32 - rotation) = 0 ∧ 128 ≤ n / 2 ^ (32 - rotation) ∧
        n / 2 ^ (32 - rotation) < 256) ∧
      rotation * 128 + (n / 2 ^ (32 - rotation) - 128) = field := by
  rw [rotated?, Nat.one_shiftLeft]
  simp only [Option.ite_none_right_eq_some, Option.some.injEq]

/-- A rotated byte stands for the number it was found for. -/
theorem expand_of_rotated? {n rotation field : Nat} (h : rotated? n rotation = some field)
    (hlow : 8 ≤ rotation) (hhigh : rotation < 32) :
    field < 4096 ∧ expand field = UInt32.ofNat n := by
  obtain ⟨⟨hmod, htop, hbyte⟩, rfl⟩ := rotated?_eq_some_iff.mp h
  generalize hq : n / 2 ^ (32 - rotation) = q at *
  have hn : q * 2 ^ (32 - rotation) = n := by
    rw [← hq]
    exact Nat.div_mul_cancel (Nat.dvd_of_mod_eq_zero hmod)
  have hrot : (rotation * 128 + (q - 128)) / 128 % 32 = rotation := by omega
  have hq' : 128 + (rotation * 128 + (q - 128)) % 128 = q := by omega
  refine ⟨by omega, ?_⟩
  unfold expand
  rw [if_neg (by omega), hrot, hq', Nat.shiftLeft_eq, hn]

/-- Fields of the unrotated patterns stand for their byte times the pattern. -/
theorem expand_pattern {byte : Nat} (hbyte : byte < 256) :
    expand byte = UInt32.ofNat byte ∧
    expand (0x100 + byte) = UInt32.ofNat (byte * 0x10001) ∧
    expand (0x200 + byte) = UInt32.ofNat (byte * 0x1000100) ∧
    expand (0x300 + byte) = UInt32.ofNat (byte * 0x1010101) := by
  have key : ∀ pattern < 4, (pattern * 256 + byte) / 1024 % 4 = 0 ∧
      (pattern * 256 + byte) / 256 % 4 = pattern ∧ (pattern * 256 + byte) % 256 = byte := by
    intro pattern hpattern
    omega
  obtain ⟨h0, h0', h0''⟩ := key 0 (by decide)
  obtain ⟨h1, h1', h1''⟩ := key 1 (by decide)
  obtain ⟨h2, h2', h2''⟩ := key 2 (by decide)
  obtain ⟨h3, h3', h3''⟩ := key 3 (by decide)
  simp only [Nat.zero_mul, Nat.zero_add, Nat.one_mul, Nat.reduceMul] at *
  refine ⟨?_, ?_, ?_, ?_⟩
  · simp only [expand, h0, h0', h0'', ↓reduceIte]
  · simp only [expand, h1, h1', h1'', ↓reduceIte]
  · simp only [expand, h2, h2', h2'', ↓reduceIte]
  · simp only [expand, h3, h3', h3'', ↓reduceIte]

/-- The field chosen for a value has twelve bits and stands for it. -/
theorem expand_of_encode? {value : UInt32} {field : Nat} (h : encode? value = some field) :
    field < 4096 ∧ expand field = value := by
  have hself : UInt32.ofNat value.toNat = value := UInt32.ofNat_toNat
  unfold encode? at h
  simp only at h
  split at h
  · obtain rfl := Option.some.inj h
    refine ⟨by omega, ?_⟩
    rw [(expand_pattern (by omega)).1, hself]
  split at h
  · rename_i hpattern
    obtain rfl := Option.some.inj h
    refine ⟨by omega, ?_⟩
    rw [(expand_pattern (by omega)).2.1, ← hpattern, hself]
  split at h
  · rename_i hpattern
    obtain rfl := Option.some.inj h
    refine ⟨by omega, ?_⟩
    rw [(expand_pattern (by omega)).2.2.1, ← hpattern, hself]
  split at h
  · rename_i hpattern
    obtain rfl := Option.some.inj h
    refine ⟨by omega, ?_⟩
    rw [(expand_pattern (by omega)).2.2.2, ← hpattern, hself]
  · obtain ⟨rotation, hmem, hrot⟩ := List.exists_of_findSome?_eq_some h
    rw [List.mem_range'_1] at hmem
    obtain ⟨hfield, hexpand⟩ := expand_of_rotated? hrot hmem.1 (by omega)
    exact ⟨hfield, hexpand.trans hself⟩

/-! ## Every field but the spare zeros is found again

A field is a pattern number with a byte, or a rotation with the seven low bits
of a byte whose top bit is set.  Two facts make the search land on the field it
started from: the size of a rotated byte fixes its rotation, and no rotated
byte is one of the replicated patterns.
-/

/-- A twelve-bit field is one of the four byte patterns or a rotation. -/
theorem field_cases {field : Nat} (h : field < 0x1000) :
    (∃ pattern < 4, ∃ byte < 256, field = pattern * 0x100 + byte) ∨
    ∃ rotation, 8 ≤ rotation ∧ rotation < 32 ∧ ∃ low < 128, field = rotation * 128 + low := by
  by_cases hpattern : field < 0x400
  · exact .inl ⟨field / 256, by omega, field % 256, by omega, by omega⟩
  · exact .inr ⟨field / 128, by omega, by omega, field % 128, by omega, by omega⟩

/-- Fields of the rotated pattern stand for their byte moved left. -/
theorem expand_rotation {rotation low : Nat} (hlow : 8 ≤ rotation) (hhigh : rotation < 32)
    (h : low < 128) :
    expand (rotation * 128 + low) = UInt32.ofNat ((128 + low) * 2 ^ (32 - rotation)) := by
  have hrotation : (rotation * 128 + low) / 128 % 32 = rotation := by omega
  have hbyte : (rotation * 128 + low) % 128 = low := by omega
  unfold expand
  rw [if_neg (by omega), hrotation, hbyte, Nat.shiftLeft_eq]

/-- A byte with its top bit set is found at its own rotation. -/
theorem rotated?_shifted {rotation low : Nat} (h : low < 128) :
    rotated? ((128 + low) * 2 ^ (32 - rotation)) rotation = some (rotation * 128 + low) := by
  have hdiv : (128 + low) * 2 ^ (32 - rotation) / 2 ^ (32 - rotation) = 128 + low :=
    Nat.mul_div_cancel _ (Nat.two_pow_pos _)
  have hmod : (128 + low) * 2 ^ (32 - rotation) % 2 ^ (32 - rotation) = 0 := Nat.mul_mod_left _ _
  rw [rotated?_eq_some_iff, hdiv, hmod]
  omega

/-- A number found at a rotation lies in the octave of that rotation. -/
theorem octave_of_rotated? {n rotation field : Nat} (h : rotated? n rotation = some field)
    (hhigh : rotation < 32) : 2 ^ (39 - rotation) ≤ n ∧ n < 2 ^ (39 - rotation + 1) := by
  obtain ⟨⟨-, htop, hbyte⟩, -⟩ := rotated?_eq_some_iff.mp h
  have hbottom : 2 ^ (39 - rotation) = 128 * 2 ^ (32 - rotation) := by
    rw [show 39 - rotation = 7 + (32 - rotation) by omega, Nat.pow_add]
  constructor
  · rw [hbottom]
    exact (Nat.le_div_iff_mul_le (Nat.two_pow_pos _)).mp htop
  · rw [Nat.pow_succ, hbottom, Nat.mul_right_comm]
    exact (Nat.div_lt_iff_lt_mul (Nat.two_pow_pos _)).mp hbyte

/-- No number is found at two rotations. -/
theorem rotation_unique {n rotation rotation' field field' : Nat}
    (h : rotated? n rotation = some field) (h' : rotated? n rotation' = some field')
    (hhigh : rotation < 32) (hhigh' : rotation' < 32) : rotation = rotation' := by
  obtain ⟨hle, hlt⟩ := octave_of_rotated? h hhigh
  obtain ⟨hle', hlt'⟩ := octave_of_rotated? h' hhigh'
  have hup : 39 - rotation < 39 - rotation' + 1 :=
    (Nat.pow_lt_pow_iff_right (by decide)).mp (hle.trans_lt hlt')
  have hdown : 39 - rotation' < 39 - rotation + 1 :=
    (Nat.pow_lt_pow_iff_right (by decide)).mp (hle'.trans_lt hlt)
  omega

/-- A byte moved left past bit `shift + 8` is a multiple of `2 ^ shift`. -/
theorem dvd_of_shifted {byte places shift : Nat} (hbyte : byte < 256)
    (hlarge : 2 ^ (shift + 7) ≤ byte * 2 ^ places) : 2 ^ shift ∣ byte * 2 ^ places := by
  -- with fewer places the product would stay below `2 ^ (shift + 7)`
  have hplaces : shift ≤ places := by
    by_contra hfew
    have hpow : 2 ^ places * 2 ≤ 2 ^ shift := by
      rw [← Nat.pow_succ]
      exact Nat.pow_le_pow_right (by decide) (by omega)
    have hunit : 0 < 2 ^ places := Nat.two_pow_pos _
    rw [Nat.pow_add] at hlarge
    nlinarith
  exact (Nat.pow_dvd_pow 2 hplaces).trans (Nat.dvd_mul_left _ _)

/-- A byte moved left by one place or more is none of the replicated patterns:
    the lowest copy in such a pattern lies too far below the highest. -/
theorem shifted_ne_pattern {byte places b : Nat} (hbyte : byte < 256) (hpos : 0 < byte)
    (hb : b < 256) :
    byte * 2 ^ places ≠ b * 0x10001 ∧ byte * 2 ^ places ≠ b * 0x1000100 ∧
      byte * 2 ^ places ≠ b * 0x1010101 := by
  have hne : 0 < byte * 2 ^ places := Nat.mul_pos hpos (Nat.two_pow_pos _)
  refine ⟨fun h => ?_, fun h => ?_, fun h => ?_⟩
  · have hdvd : 2 ^ 9 ∣ byte * 2 ^ places := dvd_of_shifted hbyte (by omega)
    omega
  · have hdvd : 2 ^ 17 ∣ byte * 2 ^ places := dvd_of_shifted hbyte (by omega)
    omega
  · have hdvd : 2 ^ 17 ∣ byte * 2 ^ places := dvd_of_shifted hbyte (by omega)
    omega

/-- The search finds a rotated byte at its own field. -/
theorem encode?_rotation {rotation low : Nat} (hlow : 8 ≤ rotation) (hhigh : rotation < 32)
    (h : low < 128) : encode? (expand (rotation * 128 + low)) = some (rotation * 128 + low) := by
  have hfound : rotated? ((128 + low) * 2 ^ (32 - rotation)) rotation = _ := rotated?_shifted h
  have hne : ∀ b < 256, (128 + low) * 2 ^ (32 - rotation) ≠ b * 0x10001 ∧
      (128 + low) * 2 ^ (32 - rotation) ≠ b * 0x1000100 ∧
      (128 + low) * 2 ^ (32 - rotation) ≠ b * 0x1010101 := by
    intro b hb
    exact shifted_ne_pattern (by omega) (by omega) hb
  rw [expand_rotation hlow hhigh h]
  generalize (128 + low) * 2 ^ (32 - rotation) = n at *
  obtain ⟨hle, hlt⟩ := octave_of_rotated? hfound hhigh
  have hbig : 2 ^ 8 ≤ n := (Nat.pow_le_pow_right (by decide) (by omega)).trans hle
  have hword : n < 2 ^ 32 := hlt.trans_le (Nat.pow_le_pow_right (by decide) (by omega))
  unfold encode?
  simp only [UInt32.toNat_ofNat_of_lt' hword]
  rw [if_neg (by omega), if_neg (hne _ (by omega)).1, if_neg (hne _ (by omega)).2.1,
    if_neg (hne _ (by omega)).2.2]
  -- some rotation is found, and it can only be this one
  cases hsearch : (List.range' 8 24).findSome? (rotated? n) with
  | none =>
    have hmiss := List.findSome?_eq_none_iff.mp hsearch rotation
      (List.mem_range'_1.mpr ⟨hlow, by omega⟩)
    rw [hfound] at hmiss
    cases hmiss
  | some field =>
    obtain ⟨rotation', hmem, hfound'⟩ := List.exists_of_findSome?_eq_some hsearch
    rw [List.mem_range'_1] at hmem
    obtain rfl := rotation_unique hfound hfound' hhigh (by omega)
    rw [← hfound', hfound]

/-- The search finds a byte pattern at its own field; the zero byte's four
    fields all stand for zero, which is found at the first. -/
theorem encode?_pattern {pattern byte : Nat} (hpattern : pattern < 4) (hbyte : byte < 256) :
    encode? (expand (pattern * 0x100 + byte)) =
      some (if byte = 0 then 0 else pattern * 0x100 + byte) := by
  have hnat : ∀ unit ≤ 0x1010101, (UInt32.ofNat (byte * unit)).toNat = byte * unit := by
    intro unit hunit
    apply UInt32.toNat_ofNat_of_lt'
    change byte * unit < 2 ^ 32
    nlinarith
  obtain ⟨h0, h1, h2, h3⟩ := expand_pattern hbyte
  by_cases hzero : byte = 0
  · subst hzero
    interval_cases pattern <;> simp [h0, h1, h2, h3, encode?]
  · rw [if_neg hzero]
    interval_cases pattern
    · rw [Nat.zero_mul, Nat.zero_add, h0, ← Nat.mul_one byte, encode?]
      simp only [hnat 1 (by decide)]
      rw [if_pos (by omega)]
    · rw [Nat.one_mul, h1, encode?]
      have hb0 : byte * 0x10001 % 256 = byte := by omega
      simp only [hnat 0x10001 (by decide), hb0]
      rw [if_neg (by omega), if_pos trivial]
    · rw [h2, encode?]
      have hb0 : byte * 0x1000100 % 256 = 0 := by omega
      have hb1 : byte * 0x1000100 / 256 % 256 = byte := by omega
      simp only [hnat 0x1000100 (by decide), hb0, hb1]
      rw [if_neg (by omega), if_neg (by omega), if_pos trivial]
    · rw [h3, encode?]
      have hb0 : byte * 0x1010101 % 256 = byte := by omega
      have hb1 : byte * 0x1010101 / 256 % 256 = byte := by omega
      simp only [hnat 0x1010101 (by decide), hb0, hb1]
      rw [if_neg (by omega), if_neg (by omega), if_neg (by omega), if_pos trivial]

/-- The field found for what a field stands for: the field itself, apart from
    the three spare spellings of zero. -/
theorem encode?_expand {field : Nat} (h : field < 0x1000) :
    encode? (expand field) = some (if field ∈ [0x100, 0x200, 0x300] then 0 else field) := by
  rcases field_cases h with ⟨pattern, hpattern, byte, hbyte, rfl⟩ | ⟨rotation, hlow, hhigh, low,
    hbits, rfl⟩
  · rw [encode?_pattern hpattern hbyte]
    congr 1
    simp only [List.mem_cons, List.not_mem_nil, or_false]
    split <;> split <;> omega
  · rw [encode?_rotation hlow hhigh hbits, if_neg]
    simp only [List.mem_cons, List.not_mem_nil, or_false]
    omega

/-- `encode?` is the partial inverse of `expand`: what it finds is a twelve-bit
    field that stands for the value, it finds one whenever there is one, and
    it finds the field it started from unless that is a spare spelling of
    zero. -/
theorem encode?_partial_inverse :
    (∀ value field, encode? value = some field → field < 0x1000 ∧ expand field = value) ∧
    (∀ value, encode? value = none ↔ ∀ field < 0x1000, expand field ≠ value) ∧
    ∀ field < 0x1000, encode? (expand field) =
      some (if field ∈ [0x100, 0x200, 0x300] then 0 else field) := by
  refine ⟨fun value field => expand_of_encode?, fun value => ⟨?_, ?_⟩, fun field => encode?_expand⟩
  · rintro hnone field hfield rfl
    rw [encode?_expand hfield] at hnone
    cases hnone
  · intro hall
    by_contra hsome
    obtain ⟨field, hfound⟩ := Option.ne_none_iff_exists'.mp hsome
    obtain ⟨hfield, hexpand⟩ := expand_of_encode? hfound
    exact hall field hfield hexpand

/-- A rotated byte, a value with no field, and a spare spelling of zero. -/
theorem encode?_partial_inverse_cases :
    (0xABC < 0x1000 ∧ expand 0xABC = 0x5E000) ∧
    (∀ field < 0x1000, expand field ≠ 0x12345678) ∧
    encode? (expand 0x200) = some 0 := by
  obtain ⟨hsound, hnone, hfield⟩ := encode?_partial_inverse
  refine ⟨hsound 0x5E000 0xABC (by decide), (hnone 0x12345678).mp (by decide), ?_⟩
  exact hfield 0x200 (by decide)

end ModifiedConstant

namespace Splat

/-- The byte and position found for a splat make up the value. -/
theorem eq_of_split? {value : UInt32} {mode byte : Nat} (h : split? value = some (mode, byte)) :
    byte < 256 ∧ ∃ position < 4, mode = 2 * position ∧
      byte <<< (8 * position) = value.toNat := by
  obtain ⟨position, hmem, hfound⟩ := List.exists_of_findSome?_eq_some h
  simp only [Option.ite_none_right_eq_some, Option.some.injEq, Prod.mk.injEq] at hfound
  obtain ⟨hvalue, hmode, rfl⟩ := hfound
  exact ⟨Nat.mod_lt _ (by decide), position, List.mem_range.mp hmem, hmode.symm, hvalue⟩

end Splat

end HeliumKernels
