/-
  HeliumKernels.Bytes

  Little-endian bytes of numbers, used for memory contents and object files.
-/

namespace HeliumKernels.Bytes

/-- The `width` little-endian bytes of `n`; higher bytes are dropped. -/
def little : Nat → Nat → List UInt8
  | 0, _ => []
  | width + 1, n => UInt8.ofNat n :: little width (n / 256)

/-- The number with the given little-endian bytes. -/
def toNat : List UInt8 → Nat
  | [] => 0
  | b :: rest => b.toNat + 256 * toNat rest

/-- Append the bytes of a word. -/
def pushWord (bytes : ByteArray) (word : UInt32) : ByteArray :=
  (((bytes.push word.toUInt8).push (word / 0x100).toUInt8).push
    (word / 0x10000).toUInt8).push (word / 0x1000000).toUInt8

/-- Bytes of words in storage order. -/
def ofWords (words : Array UInt32) : ByteArray :=
  words.foldl pushWord .empty

/-- `size` zero bytes. -/
def zeros (size : Nat) : ByteArray :=
  ⟨Array.replicate size 0⟩

/-- Bytes of a text. -/
def ofText (text : String) : List UInt8 :=
  text.toUTF8.data.toList

/-- Bytes of half-words in storage order. -/
def ofHalfWords (code : List UInt16) : List UInt8 :=
  code.flatMap fun hw => little 2 hw.toNat

@[simp] theorem size_zeros (size : Nat) : (zeros size).size = size :=
  Array.size_replicate

@[simp] theorem size_pushWord (bytes : ByteArray) (word : UInt32) :
    (pushWord bytes word).size = bytes.size + 4 := by
  simp only [pushWord, ByteArray.size_push]

@[simp] theorem size_ofWords (words : Array UInt32) : (ofWords words).size = 4 * words.size := by
  have key : ∀ (xs : List UInt32) (bytes : ByteArray),
      (xs.foldl pushWord bytes).size = bytes.size + 4 * xs.length := by
    intro xs
    induction xs with
    | nil => simp
    | cons x xs ih =>
      intro bytes
      simp only [List.foldl_cons, ih, size_pushWord, List.length_cons]
      omega
  rw [ofWords, ← Array.foldl_toList, key, ByteArray.size_empty, Array.length_toList, Nat.zero_add]

@[simp] theorem length_little (width n : Nat) : (little width n).length = width := by
  induction width generalizing n with
  | zero => rfl
  | succ width ih => simp only [little, List.length_cons, ih]

end HeliumKernels.Bytes
