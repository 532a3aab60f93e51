/-
  HeliumKernels.Proofs.Encoding.Operand

  What the checks of an assembler step say about its operands once they have
  passed, and how a word put together from fields is read.  `Word.reading`
  is the decoder's view of one word: it does not depend on what follows.
-/
import HeliumKernels.Instruction.Encode
import HeliumKernels.Operation.Decode
import HeliumKernels.Proofs.Encoding.Constant

namespace HeliumKernels

/-! ## Checks in sequence -/

section

variable {ε α β : Type} {b : β}

/-- A computation that goes on after a check succeeds only if the check does. -/
theorem bind_eq_ok {x : Except ε α} {f : α → Except ε β} :
    (x >>= f) = .ok b ↔ ∃ a, x = .ok a ∧ f a = .ok b := by
  cases x <;> simp [bind, Except.bind]

theorem bind_eq_error {x : Except ε α} {f : α → Except ε β} {e : ε} :
    (x >>= f) = .error e ↔ x = .error e ∨ ∃ a, x = .ok a ∧ f a = .error e := by
  cases x <;> simp [bind, Except.bind]

/-- A computation behind a guard succeeds only if the guard is not taken. -/
theorem guard_eq_ok {c : Prop} [Decidable c] {e : ε} {f : α → Except ε β} {x : Except ε β} :
    (if c then throw e >>= f else x) = .ok b ↔ ¬c ∧ x = .ok b := by
  by_cases h : c
  · simp [h, throw, throwThe, MonadExceptOf.throw, bind, Except.bind]
  · simp [h]

theorem pure_eq_ok {a : β} : (pure a : Except ε β) = .ok b ↔ a = b := by
  simp [pure, Except.pure]

end

/-! ## Operands that passed -/

namespace Operand

theorem low_eq_ok {r : Reg} {n : Nat} : low r = .ok n ↔ r.num < 8 ∧ r.num = n := by
  unfold low Reg.isLow
  split <;> rename_i h <;> simp only [decide_eq_true_eq] at h <;> simp [h]

theorem notPc_eq_ok {r : Reg} {role : String} {n : Nat} :
    notPc r role = .ok n ↔ r ≠ .pc ∧ r.num = n := by
  unfold notPc
  split <;> rename_i h <;> simp [h]

theorem general_eq_ok {r : Reg} {role : String} {n : Nat} :
    general r role = .ok n ↔ (r ≠ .sp ∧ r ≠ .pc) ∧ r.num = n := by
  unfold general
  split <;> rename_i h
  · rcases h with h | h <;> simp [h]
  · rw [not_or] at h
    simp [h]

theorem unsigned_eq_ok {value high n : Nat} :
    unsigned value high = .ok n ↔ value ≤ high ∧ value = n := by
  unfold unsigned
  split <;> rename_i h <;> simp [h]

theorem signed_eq_ok {value low high x : Int} :
    signed value low high = .ok x ↔ (low ≤ value ∧ value ≤ high) ∧ value = x := by
  unfold signed
  split <;> rename_i h <;> simp [h]

theorem aligned_eq_ok {value x : Int} {align : Nat} :
    aligned value align = .ok x ↔ value % align = 0 ∧ value = x := by
  unfold aligned
  split <;> rename_i h <;> simp [h]

theorem modified_eq_ok {value : UInt32} {field : Nat} :
    modified value = .ok field ↔ ModifiedConstant.encode? value = some field := by
  unfold modified
  split <;> rename_i h <;> simp [h]

theorem loopOffset_eq_ok {offset : Int} {field : Nat} :
    loopOffset offset = .ok field ↔
      (offset % 2 = 0 ∧ 0 ≤ offset ∧ offset ≤ Instruction.loopRange) ∧
        bits offset 1 1 * 2048 + bits offset 2 10 * 2 = field := by
  unfold loopOffset
  split <;> rename_i hodd
  · simp [hodd]
  · split <;> rename_i hrange <;> simp only [ne_eq, Decidable.not_not] at hodd <;>
      simp [hodd, hrange]

theorem bits_natCast (x : Int) (low length : Nat) :
    (bits x low length : Int) = x / 2 ^ low % 2 ^ length := by
  rw [bits, Int.shiftRight_eq_div_pow, Nat.one_shiftLeft, Int.natCast_pow, Int.natCast_pow]
  exact Int.toNat_of_nonneg (Int.emod_nonneg _ (Int.ne_of_gt (Int.pow_pos (by decide))))

theorem bits_lt (x : Int) (low length : Nat) : bits x low length < 2 ^ length := by
  apply Int.ofNat_lt.mp
  rw [bits_natCast, Int.natCast_pow]
  exact Int.emod_lt_of_pos _ (Int.pow_pos (by decide))

end Operand

/-! ## Fields of a half-word -/

namespace HalfWord

theorem field_eq (hw : UInt16) (low length : Nat) :
    field hw low length = hw.toNat / 2 ^ low % 2 ^ length := by
  rw [field, Nat.shiftRight_eq_div_pow, Nat.one_shiftLeft]

theorem field_ofNat (n low length : Nat) :
    field (UInt16.ofNat n) low length = n % 65536 / 2 ^ low % 2 ^ length := by
  rw [field_eq, UInt16.toNat_ofNat']

theorem ofNat_eq_iff {n : Nat} {hw : UInt16} : UInt16.ofNat n = hw ↔ n % 65536 = hw.toNat := by
  rw [← UInt16.toNat_inj, UInt16.toNat_ofNat']

end HalfWord

namespace Reg

theorem num_ne_pc {r : Reg} (h : r ≠ .pc) : r.num < 15 := by
  cases r <;> first | decide | exact absurd rfl h

theorem ofField_ne_pc {n : Nat} (h : n < 15) : ofField n ≠ .pc := by
  intro hpc
  have hall : ∀ k < 15, ofField k ≠ .pc := by decide
  exact hall n h hpc

theorem num_general {r : Reg} (h : r ≠ .sp ∧ r ≠ .pc) : r.num < 15 ∧ r.num ≠ 13 := by
  cases r <;> first | decide | exact absurd rfl h.1 | exact absurd rfl h.2

end Reg

/-! ## Reading a word -/

namespace Word

open Decode HalfWord

/-- The operation a word is read as, whatever follows it. -/
def reading : Word → Option Operation
  | narrow hw => if isWide hw then none else narrow? hw
  | wide hw1 hw2 => if isWide hw1 then wide? hw1 hw2 else none

/-- A word that has a reading is decoded to it, at its own width. -/
theorem decode_halfWords {word : Word} {op : Operation} (h : word.reading = some op)
    (rest : List UInt16) : decode (word.halfWords ++ rest) = .ok ⟨op, word.width⟩ := by
  cases word with
  | narrow hw =>
    simp only [reading, Option.ite_none_left_eq_some] at h
    simp only [decode, halfWords, List.cons_append, List.getElem?_cons_zero, pair, h.1, h.2, width]
    rfl
  | wide hw1 hw2 =>
    simp only [reading, Option.ite_none_right_eq_some] at h
    simp only [decode, halfWords, List.cons_append, List.getElem?_cons_zero, List.getElem?_cons_succ,
      List.nil_append, pair, h.1, h.2, ↓reduceIte, width]

theorem isWide_ofNat {n : Nat} (h : n < 65536) : isWide (UInt16.ofNat n) = decide (0xE800 ≤ n) := by
  simp only [isWide, field_ofNat, decide_eq_decide]
  omega

theorem reading_ofFields {n : Nat} (h : n < 0xE800) :
    (ofFields n).reading = narrow? (UInt16.ofNat n) := by
  simp only [reading, ofFields, isWide_ofNat (by omega : n < 65536), decide_eq_true_eq]
  rw [if_neg (by omega)]

/-- The five top bits of a wide word tell how it is read. -/
theorem reading_ofFieldPair {n1 n2 : Nat} (top : Nat) (hwide : 29 ≤ top) (hlow : 2048 * top ≤ n1)
    (hhigh : n1 < 2048 * (top + 1)) (hn1 : n1 < 65536) :
    (ofFieldPair n1 n2).reading =
      if top = 29 then wide29? (UInt16.ofNat n1) (UInt16.ofNat n2)
      else if top = 30 then wide30? (UInt16.ofNat n1) (UInt16.ofNat n2)
      else wide31? (UInt16.ofNat n1) (UInt16.ofNat n2) := by
  simp only [reading, ofFieldPair, isWide_ofNat hn1, decide_eq_true_eq, wide?, field_ofNat]
  rw [if_pos (by omega), show n1 % 65536 / 2 ^ 11 % 2 ^ 5 = top by omega]
  obtain rfl | rfl | rfl : top = 29 ∨ top = 30 ∨ top = 31 := by omega
  all_goals rfl

variable {n1 n2 : Nat}

theorem reading_wide29 (hlow : 0xE800 ≤ n1) (hhigh : n1 < 0xF000) :
    (ofFieldPair n1 n2).reading = wide29? (UInt16.ofNat n1) (UInt16.ofNat n2) :=
  reading_ofFieldPair 29 (by decide) hlow hhigh (by omega)

theorem reading_wide30 (hlow : 0xF000 ≤ n1) (hhigh : n1 < 0xF800) :
    (ofFieldPair n1 n2).reading = wide30? (UInt16.ofNat n1) (UInt16.ofNat n2) :=
  reading_ofFieldPair 30 (by decide) hlow hhigh (by omega)

theorem reading_wide31 (hlow : 0xF800 ≤ n1) (hhigh : n1 < 0x10000) :
    (ofFieldPair n1 n2).reading = wide31? (UInt16.ofNat n1) (UInt16.ofNat n2) :=
  reading_ofFieldPair 31 (by decide) hlow hhigh hhigh

end Word

end HeliumKernels
