/-
  HeliumKernels.Integer

  Decimal texts of integers in a range.  A sign may stand in front where the
  range has numbers of that sign; the digits are ASCII, and there is at least
  one.
-/

namespace HeliumKernels

/-- Why a text is no integer of the range. -/
inductive IntegerError where
  | empty
  | invalidDigit
  | positiveOverflow
  | negativeOverflow
deriving DecidableEq, Repr

namespace Integer

/-- Value of an ASCII digit. -/
def digit? (c : Char) : Option Nat :=
  if c.isDigit then some (c.toNat - '0'.toNat) else none

/-- Number with the given digits. -/
def ofDigits (digits : List Nat) : Nat :=
  digits.foldl (fun n d => 10 * n + d) 0

/-- Sign and digits of a text; without a minus sign in the alphabet, a minus is
    no digit. -/
def splitSign (signed : Bool) : List Char → Bool × List Char
  | '+' :: rest => (false, rest)
  | '-' :: rest => if signed then (true, rest) else (false, '-' :: rest)
  | text => (false, text)

/-- Digits of a text, all of them ASCII digits. -/
def digits? (text : List Char) : Option (List Nat) :=
  if text.isEmpty then none else text.mapM digit?

/-- Continue a number below or at `limit` with the digits of a text.  The
    first character that is no digit or leads beyond the limit decides. -/
def continueWith (limit : Nat) (overflow : IntegerError) :
    Nat → List Char → Except IntegerError Nat
  | n, [] => .ok n
  | n, c :: rest =>
    match digit? c with
    | none => .error .invalidDigit
    | some d =>
      if limit < 10 * n + d then .error overflow
      else continueWith limit overflow (10 * n + d) rest

/-- Read an integer from `-low` to `high`. -/
def parse (low high : Nat) (text : String) : Except IntegerError Int :=
  if text.isEmpty then .error .empty
  else
    let (negative, rest) := splitSign (0 < low) text.toList
    if rest.isEmpty then .error .invalidDigit
    else if negative then do
      let n ← continueWith low .negativeOverflow 0 rest
      return -n
    else do
      let n ← continueWith high .positiveOverflow 0 rest
      return n

/-- Read a signed 32-bit integer. -/
def parseInt32 : String → Except IntegerError Int :=
  parse 0x80000000 0x7FFFFFFF

/-- Read an unsigned 32-bit number; a minus sign may stand before a zero. -/
def parseWord? (text : String) : Option Nat :=
  match parse 0x8000000000000000 0x7FFFFFFFFFFFFFFF text with
  | .ok n => if 0 ≤ n ∧ n < 0x100000000 then some n.toNat else none
  | .error _ => none

/-- Read an unsigned 64-bit number. -/
def parseSize? (text : String) : Option Nat :=
  match parse 0 0xFFFFFFFFFFFFFFFF text with
  | .ok n => some n.toNat
  | .error _ => none

end Integer

end HeliumKernels
