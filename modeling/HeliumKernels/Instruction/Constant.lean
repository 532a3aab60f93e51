/-
  HeliumKernels.Instruction.Constant

  The two constant schemes of the instruction set.  A modified constant is a
  12-bit field that stands for a byte, one of two replicated patterns, a full
  splat, or a byte with its top bit set moved left by at most 24 places.  A
  splat is a single byte in one of the four byte positions of a lane.
  `encode?` and `expand` are the two directions of the first scheme.
-/

namespace HeliumKernels

namespace ModifiedConstant

/-- Field of the byte that stands `32 - rotation` places above bit zero, if
    `n` is such a byte with its top bit set. -/
def rotated? (n rotation : Nat) : Option Nat :=
  let unit := 1 <<< (32 - rotation)
  if n % unit = 0 ∧ 128 ≤ n / unit ∧ n / unit < 256 then
    some (rotation * 128 + (n / unit - 128))
  else
    none

/-- The 12-bit field that stands for `value`, if there is one.  Patterns are
    tried in the order byte, `00XY00XY`, `XY00XY00`, `XYXYXYXY`, rotation. -/
def encode? (value : UInt32) : Option Nat :=
  let n := value.toNat
  let b0 := n % 256
  let b1 := n / 256 % 256
  if n < 256 then some n
  else if n = b0 * 0x10001 then some (0x100 + b0)
  else if n = b1 * 0x1000100 then some (0x200 + b1)
  else if n = b0 * 0x1010101 then some (0x300 + b0)
  else (List.range' 8 24).findSome? (rotated? n)

/-- Whether some field stands for `value`. -/
def isEncodable (value : UInt32) : Bool :=
  (encode? value).isSome

/-- The value a 12-bit field stands for. -/
def expand (field : Nat) : UInt32 :=
  let byte := field % 256
  if field / 1024 % 4 = 0 then
    match field / 256 % 4 with
    | 0 => UInt32.ofNat byte
    | 1 => UInt32.ofNat (byte * 0x10001)
    | 2 => UInt32.ofNat (byte * 0x1000100)
    | _ => UInt32.ofNat (byte * 0x1010101)
  else
    UInt32.ofNat ((128 + field % 128) <<< (32 - field / 128 % 32))

end ModifiedConstant

namespace Splat

/-- Twice the byte position and the byte, if `value` is a single byte in that
    position; the lowest position wins. -/
def split? (value : UInt32) : Option (Nat × Nat) :=
  (List.range 4).findSome? fun position =>
    let byte := (value.toNat >>> (8 * position)) % 256
    if byte <<< (8 * position) = value.toNat then some (2 * position, byte) else none

end Splat

end HeliumKernels
