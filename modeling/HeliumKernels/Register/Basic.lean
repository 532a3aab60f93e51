/-
  HeliumKernels.Register.Basic

  Names of the register files: sixteen scalar registers, eight vector
  registers of four 32-bit lanes, and the single precision registers that
  alias the vector lanes.  `num` and `ofField` go between a register and the
  bits of an instruction field.
-/

namespace HeliumKernels

/-- Scalar register. -/
inductive Reg where
  | r0 | r1 | r2 | r3 | r4 | r5 | r6 | r7
  | r8 | r9 | r10 | r11 | r12 | sp | lr | pc
deriving DecidableEq, Repr, Inhabited

namespace Reg

/-- All scalar registers by increasing number. -/
def all : List Reg :=
  [r0, r1, r2, r3, r4, r5, r6, r7, r8, r9, r10, r11, r12, sp, lr, pc]

/-- Architectural number, 0 to 15. -/
def num : Reg → Nat
  | r0 => 0 | r1 => 1 | r2 => 2 | r3 => 3
  | r4 => 4 | r5 => 5 | r6 => 6 | r7 => 7
  | r8 => 8 | r9 => 9 | r10 => 10 | r11 => 11
  | r12 => 12 | sp => 13 | lr => 14 | pc => 15

/-- Register with the given number. -/
def ofNum? : Nat → Option Reg
  | 0 => some r0 | 1 => some r1 | 2 => some r2 | 3 => some r3
  | 4 => some r4 | 5 => some r5 | 6 => some r6 | 7 => some r7
  | 8 => some r8 | 9 => some r9 | 10 => some r10 | 11 => some r11
  | 12 => some r12 | 13 => some sp | 14 => some lr | 15 => some pc
  | _ => none

/-- Register named by the low four bits of an instruction field. -/
def ofField (bits : Nat) : Reg :=
  (ofNum? (bits % 16)).getD r0

/-- Whether a three-bit field of a 16-bit instruction can name the register. -/
def isLow (r : Reg) : Bool :=
  r.num < 8

/-- Assembly name. -/
def text : Reg → String
  | sp => "sp"
  | lr => "lr"
  | pc => "pc"
  | r => s!"r{r.num}"

/-- Capitalised name, as plans print it. -/
def label : Reg → String
  | sp => "Sp"
  | lr => "Lr"
  | pc => "Pc"
  | r => s!"R{r.num}"

theorem num_lt (r : Reg) : r.num < 16 := by
  cases r <;> decide

@[simp] theorem ofField_num (r : Reg) : ofField r.num = r := by
  cases r <;> rfl

theorem num_injective {r s : Reg} (h : r.num = s.num) : r = s := by
  have := congrArg ofField h
  simpa using this

theorem mem_all (r : Reg) : r ∈ all := by
  cases r <;> decide

end Reg

/-- Vector register of four 32-bit lanes. -/
abbrev QReg := Fin 8

namespace QReg

/-- Vector register with the given number. -/
def ofNum? (n : Nat) : Option QReg :=
  if h : n < 8 then some ⟨n, h⟩ else none

/-- Vector register named by the low three bits of an instruction field. -/
def ofField (bits : Nat) : QReg :=
  ⟨bits % 8, Nat.mod_lt _ (by decide)⟩

/-- Assembly name. -/
def text (q : QReg) : String :=
  s!"q{q.val}"

@[simp] theorem ofField_val (q : QReg) : ofField q.val = q :=
  Fin.ext (Nat.mod_eq_of_lt q.isLt)

end QReg

/-- Single precision register.  The first thirty-two alias the vector lanes:
    number `4q + l` is lane `l` of vector register `q`. -/
abbrev SReg := Fin 32

namespace SReg

/-- Single precision register with the given number. -/
def ofNum? (n : Nat) : Option SReg :=
  if h : n < 32 then some ⟨n, h⟩ else none

/-- Single precision register named by the low five bits of a field. -/
def ofField (bits : Nat) : SReg :=
  ⟨bits % 32, Nat.mod_lt _ (by decide)⟩

/-- Assembly name. -/
def text (s : SReg) : String :=
  s!"s{s.val}"

@[simp] theorem ofField_val (s : SReg) : ofField s.val = s :=
  Fin.ext (Nat.mod_eq_of_lt s.isLt)

end SReg

end HeliumKernels
