/-
  HeliumKernels.Numeral

  Number texts: hexadecimal of a fixed least width and right-aligned decimals.
-/

namespace HeliumKernels.Numeral

/-- Lower-case hexadecimal digits of `n`, zero-padded to at least `width`. -/
def hex (width n : Nat) : String :=
  String.ofList ((Nat.toDigits 16 n).leftpad width '0')

/-- Hexadecimal with the `0x` mark and no padding. -/
def marked (n : Nat) : String :=
  "0x" ++ hex 1 n

/-- A 32-bit word with the `0x` mark and all eight digits. -/
def word (n : UInt32) : String :=
  "0x" ++ hex 8 n.toNat

/-- Decimal digits of `n`, right-aligned in at least `width` columns. -/
def aligned (width n : Nat) : String :=
  String.ofList ((Nat.toDigits 10 n).leftpad width ' ')

/-- Half-words as four hexadecimal digits each, separated by one blank. -/
def halfWords (code : List UInt16) : String :=
  " ".intercalate (code.map fun hw => hex 4 hw.toNat)

end HeliumKernels.Numeral
