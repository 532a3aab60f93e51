/-
  HeliumKernels.Instruction.Word

  Encoded instructions: one half-word, or two of which the first carries the
  opcode.  `HalfWord.field` reads a bit field as a number.
-/
import HeliumKernels.Instruction.Basic
import HeliumKernels.Numeral

namespace HeliumKernels

namespace HalfWord

/-- The `length` bits of `hw` from bit `low` upward. -/
@[inline] def field (hw : UInt16) (low length : Nat) : Nat :=
  (hw.toNat >>> low) % (1 <<< length)

end HalfWord

/-- An encoded instruction. -/
inductive Word where
  | narrow (hw : UInt16)
  | wide (hw1 hw2 : UInt16)
deriving DecidableEq, Repr

namespace Word

/-- The narrow word whose fields add up to `n`. -/
def ofFields (n : Nat) : Word :=
  .narrow (UInt16.ofNat n)

/-- The wide word whose half-words' fields add up to `n1` and `n2`. -/
def ofFieldPair (n1 n2 : Nat) : Word :=
  .wide (UInt16.ofNat n1) (UInt16.ofNat n2)

/-- The no-op of a width. -/
def nop : Width → Word
  | .narrow => .narrow 0xBF00
  | .wide => .wide 0xF3AF 0x8000

/-- Width of the word. -/
def width : Word → Width
  | narrow _ => .narrow
  | wide _ _ => .wide

/-- Half-words in storage order. -/
def halfWords : Word → List UInt16
  | narrow hw => [hw]
  | wide hw1 hw2 => [hw1, hw2]

/-- Whether the word is a no-op. -/
def isNop (w : Word) : Bool :=
  w == nop w.width

/-- Half-words in hexadecimal. -/
def text (w : Word) : String :=
  Numeral.halfWords w.halfWords

theorem length_halfWords (w : Word) : w.halfWords.length = w.width.halfWords := by
  cases w <;> rfl

@[simp] theorem width_nop (width : Width) : (nop width).width = width := by
  cases width <;> rfl

end Word

end HeliumKernels
