/-
  HeliumKernels.Machine.Memory

  Little-endian memory made of mapped regions.  An access outside every
  region, or a misaligned one, is an error rather than a value, so that a
  kernel that strays is noticed.
-/
import HeliumKernels.Bytes
import HeliumKernels.Numeral

namespace HeliumKernels

/-- Why a memory operation fails. -/
inductive MemoryError where
  | unmapped (address : UInt32) (size : Nat) (access : String)
  | unaligned (address : UInt32) (size : Nat)
  | readOnly (address : UInt32)
  | overlap (base : UInt32) (size : Nat)
deriving DecidableEq, Repr

/-- Wording of each cause. -/
def MemoryError.message : MemoryError → String
  | unmapped address size access =>
    s!"{access} of {size} bytes at unmapped address {Numeral.word address}"
  | unaligned address size => s!"unaligned {size}-byte access at {Numeral.word address}"
  | readOnly address => s!"write to read-only memory at {Numeral.word address}"
  | overlap base size => s!"region of {size} bytes at {Numeral.word base} overlaps mapped memory"

/-- Bytes mapped at an address. -/
structure Region where
  base : UInt32
  bytes : ByteArray
  writable : Bool

namespace Region

/-- First address behind the region. -/
@[inline] def limit (r : Region) : Nat :=
  r.base.toNat + r.bytes.size

/-- Whether the region holds the whole word at `address`. -/
@[inline] def covers (r : Region) (address : UInt32) : Bool :=
  r.base.toNat ≤ address.toNat && address.toNat + 4 ≤ r.limit

/-- Byte at an offset, zero behind the end. -/
@[inline] def byte (r : Region) (offset : Nat) : UInt8 :=
  if h : offset < r.bytes.size then r.bytes[offset] else 0

/-- Replace the byte at an offset. -/
@[inline] def setByte (r : Region) (offset : Nat) (value : UInt8) : Region :=
  { r with bytes := if h : offset < r.bytes.size then r.bytes.set offset value h else r.bytes }

/-- Word at `address`. -/
def word (r : Region) (address : UInt32) : UInt32 :=
  let offset := address.toNat - r.base.toNat
  (r.byte offset).toUInt32 + (r.byte (offset + 1)).toUInt32 * 0x100 +
    (r.byte (offset + 2)).toUInt32 * 0x10000 + (r.byte (offset + 3)).toUInt32 * 0x1000000

/-- Replace the word at `address`. -/
def setWord (r : Region) (address value : UInt32) : Region :=
  let offset := address.toNat - r.base.toNat
  (((r.setByte offset value.toUInt8).setByte (offset + 1) (value / 0x100).toUInt8).setByte
    (offset + 2) (value / 0x10000).toUInt8).setByte (offset + 3) (value / 0x1000000).toUInt8

/-! ### Reading what was written -/

@[simp] theorem base_setByte (r : Region) (offset : Nat) (value : UInt8) :
    (r.setByte offset value).base = r.base := rfl

@[simp] theorem base_setWord (r : Region) (address value : UInt32) :
    (r.setWord address value).base = r.base := by
  simp only [setWord, base_setByte]

@[simp] theorem size_setByte (r : Region) (offset : Nat) (value : UInt8) :
    (r.setByte offset value).bytes.size = r.bytes.size := by
  unfold setByte
  split
  · exact Array.size_set _
  · rfl

theorem byte_setByte_self (r : Region) {offset : Nat} (value : UInt8)
    (h : offset < r.bytes.size) : (r.setByte offset value).byte offset = value := by
  unfold byte
  rw [dif_pos (by simpa using h)]
  unfold setByte
  simp only [h, ↓reduceDIte]
  exact Array.getElem_set_self _

theorem byte_setByte_of_ne (r : Region) {i j : Nat} (value : UInt8) (h : i ≠ j) :
    (r.setByte i value).byte j = r.byte j := by
  unfold byte
  simp only [size_setByte]
  split
  · unfold setByte
    split
    · exact Array.getElem_set_ne _ _ h
    · rfl
  · rfl

theorem covers_iff (r : Region) (address : UInt32) :
    r.covers address = true ↔ r.base.toNat ≤ address.toNat ∧ address.toNat + 4 ≤ r.limit := by
  simp only [covers, Bool.and_eq_true, decide_eq_true_eq]

/-- A word that was written is read back. -/
theorem word_setWord_self (r : Region) (address value : UInt32) (h : r.covers address = true) :
    (r.setWord address value).word address = value := by
  rw [covers_iff, limit] at h
  have hlt := value.toNat_lt
  apply UInt32.toNat.inj
  unfold word
  rw [base_setWord]
  unfold setWord
  generalize hoff : address.toNat - r.base.toNat = offset
  have hsize : offset + 4 ≤ r.bytes.size := by omega
  simp only []
  rw [byte_setByte_of_ne _ _ (by omega : offset + 3 ≠ offset),
    byte_setByte_of_ne _ _ (by omega : offset + 2 ≠ offset),
    byte_setByte_of_ne _ _ (by omega : offset + 1 ≠ offset),
    byte_setByte_self _ _ (by omega),
    byte_setByte_of_ne _ _ (by omega : offset + 3 ≠ offset + 1),
    byte_setByte_of_ne _ _ (by omega : offset + 2 ≠ offset + 1),
    byte_setByte_self _ _ (by simp only [size_setByte]; omega),
    byte_setByte_of_ne _ _ (by omega : offset + 3 ≠ offset + 2),
    byte_setByte_self _ _ (by simp only [size_setByte]; omega),
    byte_setByte_self _ _ (by simp only [size_setByte]; omega)]
  simp only [UInt32.toNat_add, UInt32.toNat_mul, UInt8.toNat_toUInt32, UInt32.toNat_toUInt8,
    UInt32.toNat_div, UInt32.reduceToNat]
  omega

end Region

/-- Mapped regions in the order of mapping. -/
structure Memory where
  regions : List Region

namespace Memory

/-- Memory without regions. -/
def empty : Memory := ⟨[]⟩

/-- Memory of a single region. -/
def ofRegion (region : Region) : Memory := ⟨[region]⟩

/-- Whether a region from `base` to `limit` meets a mapped one. -/
def meets (m : Memory) (base limit : Nat) : Bool :=
  m.regions.any fun r => base < r.limit && r.base.toNat < limit

/-- Whether `size` bytes at `base` end within the address space and meet no
    mapped region. -/
def hasRoom (m : Memory) (base : UInt32) (size : Nat) : Bool :=
  base.toNat + size ≤ 0x100000000 && !m.meets base.toNat (base.toNat + size)

/-- Map a region where there is room for it. -/
def map (m : Memory) (region : Region) : Except MemoryError Memory :=
  if m.hasRoom region.base region.bytes.size then .ok ⟨m.regions ++ [region]⟩
  else .error (.overlap region.base region.bytes.size)

/-- Map `size` zero bytes, which are made only if there is room for them. -/
def mapZeros (m : Memory) (base : UInt32) (size : Nat) (writable : Bool) :
    Except MemoryError Memory :=
  if m.hasRoom base size then .ok ⟨m.regions ++ [⟨base, Bytes.zeros size, writable⟩]⟩
  else .error (.overlap base size)

theorem mapZeros_eq_map (m : Memory) (base : UInt32) (size : Nat) (writable : Bool) :
    m.mapZeros base size writable = m.map ⟨base, Bytes.zeros size, writable⟩ := by
  simp only [mapZeros, map, Bytes.size_zeros]

/-- Map words, whose bytes are made only if there is room for them. -/
def mapWords (m : Memory) (base : UInt32) (words : Array UInt32) (writable : Bool) :
    Except MemoryError Memory :=
  if m.hasRoom base (4 * words.size) then
    .ok ⟨m.regions ++ [⟨base, Bytes.ofWords words, writable⟩]⟩
  else .error (.overlap base (4 * words.size))

theorem mapWords_eq_map (m : Memory) (base : UInt32) (words : Array UInt32) (writable : Bool) :
    m.mapWords base words writable = m.map ⟨base, Bytes.ofWords words, writable⟩ := by
  simp only [mapWords, map, Bytes.size_ofWords]

/-- Word at `address` in the first region that holds it. -/
def wordIn? (address : UInt32) : List Region → Option UInt32
  | [] => none
  | r :: rest => if r.covers address then some (r.word address) else wordIn? address rest

/-- Word at `address`. -/
@[inline] def read (m : Memory) (address : UInt32) : Except MemoryError UInt32 :=
  if address % 4 ≠ 0 then .error (.unaligned address 4)
  else
    match wordIn? address m.regions with
    | some word => .ok word
    | none => .error (.unmapped address 4 "read")

/-- What the word at an address allows. -/
inductive Permission where
  | none
  | readOnly
  | readWrite
deriving DecidableEq, Repr

/-- Permission of the first region that holds the word at `address`. -/
def permission (address : UInt32) : List Region → Permission
  | [] => .none
  | r :: rest =>
    if r.covers address then (if r.writable then .readWrite else .readOnly)
    else permission address rest

/-- What forbids writing the word at `address`, if anything does. -/
@[inline] def writeError? (m : Memory) (address : UInt32) : Option MemoryError :=
  if address % 4 ≠ 0 then some (.unaligned address 4)
  else
    match permission address m.regions with
    | .none => some (.unmapped address 4 "write")
    | .readOnly => some (.readOnly address)
    | .readWrite => none

/-- Replace the word at `address` in the first region that holds it. -/
def put (address value : UInt32) : List Region → List Region
  | [] => []
  | r :: rest => if r.covers address then r.setWord address value :: rest
    else r :: put address value rest

/-- Write the word at `address`. -/
def write (m : Memory) (address value : UInt32) : Except MemoryError Memory :=
  match m.writeError? address with
  | some e => .error e
  | none => .ok ⟨put address value m.regions⟩

end Memory

end HeliumKernels
