/-
  HeliumKernels.Trap

  Arithmetic with a range.  Sizes, displacements and addresses live in fixed
  ranges; a result that leaves its range is not wrapped but ends the request
  with a `Trap`.  The `Checked` operations say so at every place where it can
  happen.
-/

namespace HeliumKernels

/-- Why a request ends without an answer of its own. -/
inductive Trap where
  /-- A sum, difference or product left the range of its type. -/
  | overflow
  /-- A remainder by zero. -/
  | divisionByZero
  /-- There are fewer elements than the request addresses. -/
  | outOfBounds
  /-- A directive names a label that nothing has defined. -/
  | undefinedLabel
  /-- A name that is to end at its first zero byte holds one. -/
  | zeroInName
deriving DecidableEq, Repr

namespace Checked

/-- `n`, if it is below `limit`. -/
def below (limit n : Nat) : Except Trap Nat :=
  if n < limit then .ok n else .error .overflow

/-- Sum of two unsigned 32-bit numbers. -/
def add (a b : Nat) : Except Trap Nat :=
  below 0x100000000 (a + b)

/-- Product of two unsigned 32-bit numbers. -/
def mul (a b : Nat) : Except Trap Nat :=
  below 0x100000000 (a * b)

/-- Difference of two unsigned numbers. -/
def sub (a b : Nat) : Except Trap Nat :=
  if b ≤ a then .ok (a - b) else .error .overflow

/-- Remainder of two unsigned numbers. -/
def mod (a b : Nat) : Except Trap Nat :=
  if b = 0 then .error .divisionByZero else .ok (a % b)

/-- `count`, if that many elements of `size` bytes fit one allocation, whose bytes
    are counted by a signed 64-bit number. -/
def allocation (size count : Nat) : Except Trap Nat :=
  if size * count < 0x8000000000000000 then .ok count else .error .overflow

/-- `x`, if it is a signed 32-bit number. -/
def int32 (x : Int) : Except Trap Int :=
  if -0x80000000 ≤ x ∧ x < 0x80000000 then .ok x else .error .overflow

theorem below_eq_ok_iff {limit n m : Nat} : below limit n = .ok m ↔ n < limit ∧ n = m := by
  unfold below
  split
  · simp_all
  · simp only [reduceCtorEq, false_iff]
    omega

theorem sub_eq_ok_iff {a b m : Nat} : sub a b = .ok m ↔ b ≤ a ∧ a - b = m := by
  unfold sub
  split
  · simp_all
  · simp only [reduceCtorEq, false_iff]
    omega

end Checked

end HeliumKernels
