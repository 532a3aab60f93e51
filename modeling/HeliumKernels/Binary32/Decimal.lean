/-
  HeliumKernels.Binary32.Decimal

  Decimal texts of single precision numbers: an optional sign, then digits
  with at most one point and an optional exponent, or one of the words for
  infinity and for what is not a number, in any case.  A text stands for the
  nearest number, ties going to the even one.
-/
import HeliumKernels.Binary32
import HeliumKernels.Integer

namespace HeliumKernels.Binary32

/-- Why a text is no number. -/
inductive DecimalError where
  | empty
  | invalid
deriving DecidableEq, Repr

namespace Decimal

/-- Bound from which on further digits of an exponent do not count; beyond it
    every number is zero or infinite. -/
def exponentLimit : Nat := 65536

/-- Magnitude of an exponent. -/
def exponentOfDigits (digits : List Nat) : Nat :=
  digits.foldl (fun n d => if n < exponentLimit then 10 * n + d else n) 0

/-- Exponent behind its mark. -/
def exponent? (text : List Char) : Option Int := do
  let (negative, rest) := Integer.splitSign true text
  let n : Int := exponentOfDigits (← Integer.digits? rest)
  return if negative then -n else n

/-- Digits before and behind the point, and the exponent. -/
structure Parts where
  whole : List Nat
  fraction : List Nat
  exponent : Int

/-- The rest of a text behind its mantissa is empty or an exponent. -/
def trailer? : List Char → Option Int
  | [] => some 0
  | c :: rest => if c = 'e' ∨ c = 'E' then exponent? rest else none

/-- Parts of an unsigned number. -/
def parts? (text : List Char) : Option Parts := do
  let whole := text.takeWhile Char.isDigit
  let rest := text.dropWhile Char.isDigit
  let (fraction, rest) := match rest with
    | '.' :: rest => (rest.takeWhile Char.isDigit, rest.dropWhile Char.isDigit)
    | rest => ([], rest)
  if whole.isEmpty ∧ fraction.isEmpty then none
  else
    return { whole := whole.filterMap Integer.digit?
             fraction := fraction.filterMap Integer.digit?
             exponent := ← trailer? rest }

/-- Nearest number to a mantissa and a power of ten. -/
def Parts.value (negative : Bool) (p : Parts) : UInt32 :=
  let mantissa := Integer.ofDigits (p.whole ++ p.fraction)
  let exponent := p.exponent - p.fraction.length
  roundRatio negative (mantissa * Nat.pow 10 exponent.toNat) (Nat.pow 10 (-exponent).toNat)

/-- Infinity and what is not a number, by their words. -/
def word? (negative : Bool) (text : List Char) : Option UInt32 :=
  match String.ofList (text.map Char.toLower) with
  | "inf" | "infinity" => some (infinity negative)
  | "nan" => some (ofMagnitude negative nan)
  | _ => none

end Decimal

/-- Read a decimal text. -/
def parse (text : String) : Except DecimalError UInt32 :=
  if text.isEmpty then .error .empty
  else
    let (negative, rest) := Integer.splitSign true text.toList
    match Decimal.parts? rest with
    | some parts => .ok (parts.value negative)
    | none =>
      match Decimal.word? negative rest with
      | some bits => .ok bits
      | none => .error .invalid

end HeliumKernels.Binary32
