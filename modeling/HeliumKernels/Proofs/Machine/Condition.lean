/-
  HeliumKernels.Proofs.Machine.Condition

  What the flags say about the operands that set them.  A sum or difference
  is computed modulo `2 ^ 32`; carry and overflow tell whether the exact
  result, of unsigned and of signed numbers, is another one.  From the flags
  of a difference every condition reads off how the operands compare.
-/
import HeliumKernels.Binary32.Fused
import HeliumKernels.Proofs.Machine.Execution

namespace HeliumKernels

/-! ## Words as signed numbers -/

/-- A word as a signed number. -/
def signedValue (x : UInt32) : Int :=
  x.toInt32.toInt

/-- Numbers that are the signed reading of a word. -/
def IsSigned (n : Int) : Prop :=
  -2 ^ 31 ≤ n ∧ n < 2 ^ 31

instance (n : Int) : Decidable (IsSigned n) :=
  inferInstanceAs (Decidable (_ ∧ _))

theorem signedValue_cases (x : UInt32) :
    x.toNat < 2 ^ 31 ∧ signedValue x = x.toNat ∨
      2 ^ 31 ≤ x.toNat ∧ signedValue x = x.toNat - 2 ^ 32 := by
  have hcond : signedValue x = _ := BitVec.toInt_eq_toNat_cond x.toBitVec
  rw [UInt32.toNat_toBitVec] at hcond
  split at hcond <;> omega

theorem isSigned_signedValue (x : UInt32) : IsSigned (signedValue x) := by
  have hx := x.toNat_lt
  have := signedValue_cases x
  unfold IsSigned
  omega

theorem signedValue_inj {x y : UInt32} : signedValue x = signedValue y ↔ x = y :=
  BitVec.toInt_inj.trans UInt32.toBitVec_inj

theorem toNat_complement (y : UInt32) : (~~~y).toNat = 2 ^ 32 - 1 - y.toNat :=
  BitVec.toNat_not

theorem signedValue_not (y : UInt32) : signedValue (~~~y) = -signedValue y - 1 := by
  have hy := y.toNat_lt
  have hnot := toNat_complement y
  have := signedValue_cases y
  have := signedValue_cases (~~~y)
  omega

/-- A number is no less than another if their difference is not negative, or is negative for
    leaving the range. -/
theorem signedValue_le_iff {x y : UInt32} :
    signedValue y ≤ signedValue x ↔
      (signedValue (x - y) < 0 ↔ ¬IsSigned (signedValue x - signedValue y)) := by
  have hsub : signedValue (x - y) = (signedValue x - signedValue y).bmod (2 ^ 32) :=
    BitVec.toInt_sub
  have hx := isSigned_signedValue x
  have hy := isSigned_signedValue y
  unfold IsSigned at *
  -- the difference wraps at most once, and then its sign is the wrong one
  rw [Int.bmod_def] at hsub
  split at hsub <;> omega

/-- What a condition says about two words that were compared. -/
def Condition.Says (x y : UInt32) : Condition → Prop
  | .eq => x = y
  | .ne => x ≠ y
  | .cs => y ≤ x
  | .cc => x < y
  | .mi => signedValue (x - y) < 0
  | .pl => 0 ≤ signedValue (x - y)
  | .vs => ¬IsSigned (signedValue x - signedValue y)
  | .vc => IsSigned (signedValue x - signedValue y)
  | .hi => y < x
  | .ls => x ≤ y
  | .ge => signedValue y ≤ signedValue x
  | .lt => signedValue x < signedValue y
  | .gt => signedValue y < signedValue x
  | .le => signedValue x ≤ signedValue y
  | .al => True

namespace AddSub

/-- The exact sum or difference. -/
def exact : AddSub → Int → Int → Int
  | .add, x, y => x + y
  | .sub, x, y => x - y

/-- A sum leaves the range of unsigned words, a difference stays in it. -/
def Carries : AddSub → UInt32 → UInt32 → Prop
  | .add, x, y => 2 ^ 32 ≤ x.toNat + y.toNat
  | .sub, x, y => y ≤ x

end AddSub

namespace Machine

open Run

/-! ## Carry and overflow -/

theorem isNegative_eq (x : UInt32) : isNegative x = decide (signedValue x < 0) := by
  have hx := x.toNat_lt
  have := signedValue_cases x
  have hle : 0x80000000 ≤ x ↔ 2 ^ 31 ≤ x.toNat := UInt32.le_iff_toNat_le
  rw [isNegative, decide_eq_decide, hle]
  omega

theorem toNat_addWithCarry (x y : UInt32) (carry : Bool) :
    (addWithCarry x y carry).1.toNat = (x.toNat + y.toNat + carry.toNat) % 2 ^ 32 := by
  cases carry <;>
    simp only [addWithCarry, Bool.false_eq_true, ↓reduceIte, UInt32.toNat_add, UInt32.reduceToNat,
      Bool.toNat_true, Bool.toNat_false] <;>
    omega

/-- Overflow says whether the signed sum left its range. -/
theorem overflow_addWithCarry (x y : UInt32) (carry : Bool) :
    (addWithCarry x y carry).2.2 =
      decide (¬IsSigned (signedValue x + signedValue y + carry.toNat)) := by
  have hx := x.toNat_lt
  have hy := y.toNat_lt
  have hcarry := carry.toNat_le
  have hresult := toNat_addWithCarry x y carry
  generalize hr : (addWithCarry x y carry).1 = r at hresult
  -- two operands of one sign and a result of the other
  have hv : (addWithCarry x y carry).2.2 =
      (isNegative x == isNegative y && isNegative r != isNegative x) := by
    rw [← hr]
    rfl
  have := signedValue_cases x
  have := signedValue_cases y
  have := signedValue_cases r
  rw [hv, Bool.eq_iff_iff, decide_eq_true_eq, IsSigned]
  simp only [isNegative_eq, Bool.and_eq_true, beq_iff_eq, bne_iff_ne, ne_eq, decide_eq_decide]
  omega

theorem carry_addSub (op : AddSub) (x y : UInt32) :
    (addSub op x y).2.1 = true ↔ op.Carries x y := by
  cases op with
  | add =>
    rw [addSub, carry_addWithCarry, decide_eq_true_eq]
    rfl
  | sub =>
    have hy := y.toNat_lt
    rw [addSub, carry_addWithCarry, decide_eq_true_eq, toNat_complement, Bool.toNat_true,
      AddSub.Carries, UInt32.le_iff_toNat_le]
    omega

theorem overflow_addSub (op : AddSub) (x y : UInt32) :
    (addSub op x y).2.2 = true ↔ ¬IsSigned (op.exact (signedValue x) (signedValue y)) := by
  cases op with
  | add =>
    rw [addSub, overflow_addWithCarry, decide_eq_true_eq, Bool.toNat_false, Int.natCast_zero,
      Int.add_zero]
    rfl
  | sub =>
    -- a difference is computed as the sum with the complement and one
    have hexact : signedValue x + signedValue (~~~y) + true.toNat =
        signedValue x - signedValue y := by
      rw [signedValue_not, Bool.toNat_true]
      omega
    rw [addSub, overflow_addWithCarry, decide_eq_true_eq, hexact]
    rfl

/-! ## Conditions -/

/-- The flags of a difference. -/
theorem arithmeticFlags_sub (x y : UInt32) (flags : Flags) :
    arithmeticFlags .sub x y true flags =
      ⟨decide (signedValue (x - y) < 0), decide (x = y), decide (y ≤ x),
        decide (¬IsSigned (signedValue x - signedValue y))⟩ := by
  have hc : (addSub .sub x y).2.1 = decide (y ≤ x) := by
    rw [Bool.eq_iff_iff, carry_addSub, decide_eq_true_eq]
    rfl
  have hv : (addSub .sub x y).2.2 = decide (¬IsSigned (signedValue x - signedValue y)) := by
    rw [Bool.eq_iff_iff, overflow_addSub, decide_eq_true_eq]
    rfl
  have hz : ((x - y) == 0) = decide (x = y) := by
    rw [Bool.eq_iff_iff, beq_iff_eq, decide_eq_true_eq, sub_eq_zero]
  have hflags : arithmeticFlags .sub x y true flags =
      ⟨isNegative (addSub .sub x y).1, (addSub .sub x y).1 == 0, (addSub .sub x y).2.1,
        (addSub .sub x y).2.2⟩ := rfl
  rw [hflags, addSub_sub, isNegative_eq, hz, hc, hv]

/-- After a difference every condition says how the operands compare. -/
theorem holds_arithmeticFlags_sub (x y : UInt32) (flags : Flags) (cond : Condition) :
    (arithmeticFlags .sub x y true flags).holds cond = true ↔ cond.Says x y := by
  rw [arithmeticFlags_sub]
  cases cond <;>
    simp only [Flags.holds, Condition.Says, Bool.and_eq_true, Bool.or_eq_true, Bool.not_eq_true',
      decide_eq_true_eq, decide_eq_false_iff_not, beq_iff_eq, bne_iff_ne, ne_eq, decide_eq_decide,
      Decidable.not_not, ← signedValue_le_iff]
  -- what is left is how the order and equality of the operands combine
  case cc => exact UInt32.not_le
  case pl => exact Int.not_lt
  case hi =>
    rw [UInt32.le_iff_toNat_le, UInt32.lt_iff_toNat_lt, ← UInt32.toNat_inj]
    omega
  case ls =>
    rw [UInt32.le_iff_toNat_le, UInt32.le_iff_toNat_le, ← UInt32.toNat_inj]
    omega
  case lt => exact Int.not_le
  case gt =>
    rw [← signedValue_inj]
    omega
  case le =>
    rw [← signedValue_inj]
    omega

/-! ## Operations that set the flags -/

/-- Operands of an operation that sets all flags.  A comparison is a difference that is
    dropped. -/
def flagOperands? (m : Machine) (pc : UInt32) : Operation → Option (AddSub × UInt32 × UInt32)
  | .cmpImm rn imm => some (.sub, m.read pc rn, imm)
  | .cmpReg rn rm => some (.sub, m.read pc rn, m.read pc rm)
  | .addImm _ rn imm true => some (.add, m.read pc rn, imm)
  | .subImm _ rn imm true => some (.sub, m.read pc rn, imm)
  | .addReg _ rn rm shift true =>
    some (.add, m.read pc rn, m.read pc rm <<< UInt32.ofNat shift)
  | .subReg _ rn rm shift true =>
    some (.sub, m.read pc rn, m.read pc rm <<< UInt32.ofNat shift)
  | _ => none

/-- The machine executes the operation at `pc`, and is in the second state afterwards. -/
def Executes (mulAdd : MulAdd) (program : Program) (pc : UInt32) (op : Operation)
    (m m' : Machine) : Prop :=
  ∃ width next, fetch? program pc = some (.ok ⟨op, width⟩) ∧
    step mulAdd program pc m = .ok next m'

variable {mulAdd : MulAdd} {program : Program} {pc next : UInt32} {op : Operation}
  {m m' : Machine} {mask : LaneMask} {width : Width} {kind : AddSub} {x y : UInt32}

theorem isVector_of_flagOperands? (h : m.flagOperands? pc op = some (kind, x, y)) :
    op.isVector = false := by
  unfold flagOperands? at h
  split at h <;> first | rfl | cases h

/-- Such an operation goes on to the next and leaves the flags of its operands. -/
theorem exists_execute_of_flagOperands? (h : m.flagOperands? pc op = some (kind, x, y))
    (mulAdd : MulAdd) (next : UInt32) (mask : LaneMask) :
    ∃ m', execute mulAdd pc next mask op m = .ok next m' ∧
      m'.flags = arithmeticFlags kind x y true m.flags := by
  unfold flagOperands? at h
  split at h
  -- the last case is that of the operations without such operands
  case h_7 => cases h
  all_goals
    obtain ⟨rfl, rfl, rfl⟩ : _ ∧ _ ∧ _ := by simpa using h
    exact ⟨_, rfl, rfl⟩

/-- In a predication block an operation that is not a vector operation is refused. -/
theorem laneMask_scalar (hop : op.isVector = false) {m₁ : Machine}
    (h : laneMask op pc m = .ok mask m₁) : m₁ = m := by
  by_cases hblock : m.vptRemaining = 0
  · rw [laneMask_of_scalar hblock hop] at h
    injection h with _ heq
    exact heq.symm
  · have hpending : 0 < m.vptRemaining := Nat.pos_of_ne_zero hblock
    -- a pending block ends in an error, whatever the operation is called
    simp only [laneMask, bind, EStateM.bind, get, getThe, MonadStateOf.get, EStateM.get, hblock,
      decide_false, Bool.false_and, Bool.false_eq_true, ↓reduceIte, hpending, hop, Bool.not_false,
      fail] at h
    generalize op.text = text at h
    cases text <;> cases h

theorem Executes.flags_eq (h : Executes mulAdd program pc op m m')
    (hop : m.flagOperands? pc op = some (kind, x, y)) :
    m'.flags = arithmeticFlags kind x y true m.flags := by
  obtain ⟨width, next, hfetch, hstep⟩ := h
  simp only [step, hfetch] at hstep
  obtain ⟨mask, m₁, hmask, hstep⟩ := bind_ok_iff.mp hstep
  obtain ⟨behind, m₂, hadvance, hexecute⟩ := bind_ok_iff.mp hstep
  obtain rfl := laneMask_scalar (isVector_of_flagOperands? hop) hmask
  -- what comes before the operation leaves the state, and with it the operands, alone
  have hsame : m₂ = m₁ := by
    unfold advance at hadvance
    split at hadvance <;> cases hadvance
    rfl
  subst hsame
  obtain ⟨m₃, hresult, hflags⟩ := exists_execute_of_flagOperands? hop mulAdd behind mask
  cases hresult.symm.trans hexecute
  exact hflags

/-- It is executed wherever no block is pending. -/
theorem exists_executes (hop : m.flagOperands? pc op = some (kind, x, y))
    (hfetch : fetch? program pc = some (.ok ⟨op, width⟩)) (hblock : m.vptRemaining = 0)
    (hpc : pc.toNat + (byteWidth width).toNat < 2 ^ 32) (mulAdd : MulAdd) :
    ∃ m', Executes mulAdd program pc op m m' := by
  obtain ⟨m', hexecute, -⟩ := exists_execute_of_flagOperands? hop mulAdd (pc + byteWidth width)
    LaneMask.all
  refine ⟨m', width, pc + byteWidth width, hfetch, ?_⟩
  rw [step_of_fetch hfetch hpc,
    bind_of_ok (laneMask_of_scalar hblock (isVector_of_flagOperands? hop) pc), hexecute]

/-- After a comparison every condition is the comparison that it names, of unsigned or of signed
    numbers; and after every operation that sets the flags carry and overflow tell whether the
    exact result is out of range.  Without a pending block such an operation is executed. -/
theorem flags_tell (mulAdd : MulAdd) (program : Program) (pc : UInt32) (op : Operation)
    (m : Machine) (kind : AddSub) (x y : UInt32)
    (hop : m.flagOperands? pc op = some (kind, x, y)) :
    (∀ m', Executes mulAdd program pc op m m' →
      (kind = .sub → ∀ cond, m'.flags.holds cond = true ↔ cond.Says x y) ∧
      (m'.flags.c = true ↔ kind.Carries x y) ∧
      (m'.flags.v = true ↔ ¬IsSigned (kind.exact (signedValue x) (signedValue y)))) ∧
    ∀ width, fetch? program pc = some (.ok ⟨op, width⟩) → m.vptRemaining = 0 →
      pc.toNat + (byteWidth width).toNat < 2 ^ 32 →
      ∃ m', Executes mulAdd program pc op m m' := by
  refine ⟨fun m' hexecutes => ?_, fun width hfetch hblock hpc =>
    exists_executes hop hfetch hblock hpc mulAdd⟩
  rw [hexecutes.flags_eq hop]
  refine ⟨?_, carry_addSub kind x y, overflow_addSub kind x y⟩
  rintro rfl cond
  exact holds_arithmeticFlags_sub x y m.flags cond

/-- The least signed number compared with one: less, although the difference is positive, and
    higher as an unsigned number. -/
theorem flags_tell_least :
    ∃ m', Executes Binary32.mulAdd (Program.ofCode #[0x4288]) codeBase (.cmpReg .r0 .r1)
        ((fresh.setReg .r0 0x80000000).setReg .r1 1) m' ∧
      m'.flags.holds .lt = true ∧ m'.flags.holds .vs = true ∧ m'.flags.holds .pl = true ∧
      m'.flags.holds .hi = true ∧ m'.flags.c = true := by
  obtain ⟨htell, hexecuted⟩ := flags_tell Binary32.mulAdd (Program.ofCode #[0x4288]) codeBase
    (.cmpReg .r0 .r1) ((fresh.setReg .r0 0x80000000).setReg .r1 1) .sub 0x80000000 1 rfl
  obtain ⟨m', hexecutes⟩ := hexecuted .narrow rfl rfl (by decide)
  obtain ⟨hmeaning, hcarry, -⟩ := htell m' hexecutes
  refine ⟨m', hexecutes, (hmeaning rfl .lt).mpr ?_, (hmeaning rfl .vs).mpr ?_,
    (hmeaning rfl .pl).mpr ?_, (hmeaning rfl .hi).mpr ?_, hcarry.mpr ?_⟩
  · show signedValue _ < signedValue _
    decide
  · show ¬IsSigned _
    decide
  · show 0 ≤ signedValue _
    decide
  · show (1 : UInt32) < 0x80000000
    decide
  · show (1 : UInt32) ≤ 0x80000000
    decide

end Machine

end HeliumKernels
