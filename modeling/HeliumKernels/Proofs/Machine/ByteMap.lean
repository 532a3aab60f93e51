/-
  HeliumKernels.Proofs.Machine.ByteMap

  Memory as a partial map from addresses to bytes.  Whatever was mapped and
  written, regions lie apart, so that each byte is in one region at most;
  mapping extends the map of bytes, writing replaces four of them, and a word
  is read from four bytes of one region, the lowest first.  A call that fails
  changes nothing.
-/
import HeliumKernels.Proofs.Machine.Effect
import HeliumKernels.Proofs.Machine.Mapping

namespace HeliumKernels

/-! ## Bytes of a word -/

theorem Bytes.little_injective {v w : UInt32}
    (h : Bytes.little 4 v.toNat = Bytes.little 4 w.toNat) : v = w := by
  have hv := v.toNat_lt
  have hw := w.toNat_lt
  simp only [Bytes.little, List.cons.injEq, ← UInt8.toNat_inj, UInt8.toNat_ofNat'] at h
  apply UInt32.toNat.inj
  omega

theorem Bytes.ofNat_eq {b : UInt8} {n : Nat} (h : n % 256 = b.toNat) : UInt8.ofNat n = b := by
  apply UInt8.toNat.inj
  rw [UInt8.toNat_ofNat']
  exact h

theorem Region.getElem?_toList (r : Region) {offset : Nat} (h : offset < r.bytes.size) :
    r.bytes.data.toList[offset]? = some (r.byte offset) := by
  rw [Region.byte, dif_pos h, Array.getElem?_toList, Array.getElem?_eq_getElem h]
  rfl

theorem Region.little_word (r : Region) (address : UInt32) :
    Bytes.little 4 (r.word address).toNat = (List.range 4).map fun n =>
      r.byte (address.toNat - r.base.toNat + n) := by
  generalize hoffset : address.toNat - r.base.toNat = offset
  have h₀ := (r.byte offset).toNat_lt
  have h₁ := (r.byte (offset + 1)).toNat_lt
  have h₂ := (r.byte (offset + 2)).toNat_lt
  have h₃ := (r.byte (offset + 3)).toNat_lt
  have hword : (r.word address).toNat = (r.byte offset).toNat + 0x100 *
      (r.byte (offset + 1)).toNat + 0x10000 * (r.byte (offset + 2)).toNat +
      0x1000000 * (r.byte (offset + 3)).toNat := by
    simp only [Region.word, hoffset, UInt32.toNat_add, UInt32.toNat_mul, UInt8.toNat_toUInt32,
      UInt32.reduceToNat]
    omega
  rw [hword]
  simp only [Bytes.little, List.range, List.range.loop, List.map_cons, List.map_nil, Nat.add_zero]
  rw [Bytes.ofNat_eq (b := r.byte offset) (by omega),
    Bytes.ofNat_eq (b := r.byte (offset + 1)) (by omega),
    Bytes.ofNat_eq (b := r.byte (offset + 2)) (by omega),
    Bytes.ofNat_eq (b := r.byte (offset + 3)) (by omega)]

theorem Bytes.toList_pushWord (bytes : ByteArray) (word : UInt32) :
    (Bytes.pushWord bytes word).data.toList = bytes.data.toList ++ Bytes.little 4 word.toNat := by
  rw [Region.data_pushWord, Array.toList_append]
  simp only [Bytes.little]
  rw [Bytes.ofNat_eq (b := word.toUInt8) (by simp),
    Bytes.ofNat_eq (b := (word / 0x100).toUInt8) (by simp),
    Bytes.ofNat_eq (b := (word / 0x10000).toUInt8) (by simp [Nat.div_div_eq_div_mul]),
    Bytes.ofNat_eq (b := (word / 0x1000000).toUInt8) (by simp [Nat.div_div_eq_div_mul])]

/-- Words are stored one after the other, each with its lowest byte first. -/
theorem Bytes.toList_ofWords (words : Array UInt32) : (Bytes.ofWords words).data.toList =
    words.toList.flatMap fun word => Bytes.little 4 word.toNat := by
  have hfold : ∀ (xs : List UInt32) (bytes : ByteArray),
      (xs.foldl Bytes.pushWord bytes).data.toList =
        bytes.data.toList ++ xs.flatMap fun word => Bytes.little 4 word.toNat := by
    intro xs
    induction xs with
    | nil => simp
    | cons x xs ih =>
      intro bytes
      rw [List.foldl_cons, ih, Bytes.toList_pushWord, List.flatMap_cons, List.append_assoc]
  rw [Bytes.ofWords, ← Array.foldl_toList, hfold]
  rfl

namespace Memory

variable {m m' : Memory} {r region : Region} {rs rs' : List Region} {a v : UInt32}

/-! ## Reading -/

/-- One region holds all four bytes of the word at an address. -/
def Covers (m : Memory) (a : UInt32) : Prop :=
  ∃ r ∈ m.regions, r.base.toNat ≤ a.toNat ∧ a.toNat + 4 ≤ r.base.toNat + r.bytes.size

theorem byteIn?_eq (a : UInt32) (rs : List Region) :
    byteIn? a rs = (rs.find? fun r => r.base.toNat ≤ a.toNat ∧ a.toNat < r.limit).map
      fun r => r.byte (a.toNat - r.base.toNat) := by
  induction rs with
  | nil => rfl
  | cons r rs ih =>
    rw [byteIn?, ih]
    by_cases hr : r.base.toNat ≤ a.toNat ∧ a.toNat < r.limit
    · rw [if_pos hr, List.find?_cons_of_pos (by simpa using hr)]
      rfl
    · rw [if_neg hr, List.find?_cons_of_neg (by simpa using hr)]

theorem byteIn?_append : byteIn? a (rs ++ rs') = (byteIn? a rs).or (byteIn? a rs') := by
  rw [byteIn?_eq, byteIn?_eq, byteIn?_eq, List.find?_append]
  cases List.find? _ rs <;> rfl

theorem wordIn?_append : wordIn? a (rs ++ rs') = (wordIn? a rs).or (wordIn? a rs') := by
  rw [wordIn?_eq, wordIn?_eq, wordIn?_eq, List.find?_append]
  cases List.find? _ rs <;> rfl

/-- Where regions lie apart, a byte is that of the region that holds it. -/
theorem Apart.byte?_eq (hapart : m.Apart) (hmem : r ∈ m.regions) (hlow : r.base.toNat ≤ a.toNat)
    (hhigh : a.toNat < r.limit) : m.byte? a = some (r.byte (a.toNat - r.base.toNat)) := by
  rw [byte?, byteIn?_eq, find?_of_apart (r := r) (fun r s hapart hr hs => ?_) hapart hmem
    (by simp [hlow, hhigh])]
  · rfl
  · simp only [decide_eq_true_eq] at hr hs
    rcases hapart with h | h <;> omega

theorem toNat_add_lt_four (haligned : a % 4 = 0) {n : Nat} (hn : n < 4) :
    (a + UInt32.ofNat n).toNat = a.toNat + n := by
  have ha := a.toNat_lt
  have hmod : a.toNat % 4 = 0 := by simpa [← UInt32.toNat_inj] using haligned
  rw [UInt32.toNat_add, UInt32.toNat_ofNat']
  omega

/-- The bytes of a word, the lowest first. -/
theorem Apart.byte?_of_covers (hapart : m.Apart) (hmem : r ∈ m.regions)
    (hcovers : r.covers a = true) (haligned : a % 4 = 0) {n : Nat} (hn : n < 4) :
    m.byte? (a + UInt32.ofNat n) = (Bytes.little 4 (r.word a).toNat)[n]? := by
  obtain ⟨hlow, hhigh⟩ := (r.covers_iff a).mp hcovers
  have haddress := toNat_add_lt_four haligned hn
  rw [hapart.byte?_eq hmem (by omega) (by omega), haddress, r.little_word a, List.getElem?_map,
    List.getElem?_range hn, Option.map_some, Nat.sub_add_comm hlow]

/-- A word is read from four bytes of one region. -/
theorem Apart.read_eq_ok_iff (hapart : m.Apart) :
    m.read a = .ok v ↔ a % 4 = 0 ∧ m.Covers a ∧
      ∀ n < 4, m.byte? (a + UInt32.ofNat n) = (Bytes.little 4 v.toNat)[n]? := by
  constructor
  · intro hread
    obtain ⟨haligned, hword⟩ := read_eq_ok.mp hread
    -- the word was found in a region, and that region holds its bytes
    rw [wordIn?_eq] at hword
    obtain ⟨r, hfind, rfl⟩ := Option.map_eq_some_iff.mp hword
    have hmem := List.mem_of_find?_eq_some hfind
    have hcovers : r.covers a = true := List.find?_some (p := (Region.covers · a)) hfind
    exact ⟨haligned, ⟨r, hmem, (r.covers_iff a).mp hcovers⟩,
      fun n hn => hapart.byte?_of_covers hmem hcovers haligned hn⟩
  · rintro ⟨haligned, ⟨r, hmem, hextent⟩, hbytes⟩
    -- a word is determined by its bytes
    have hcovers := (r.covers_iff a).mpr hextent
    have hsame : Bytes.little 4 (r.word a).toNat = Bytes.little 4 v.toNat := by
      apply List.ext_getElem?
      intro n
      by_cases hn : n < 4
      · rw [← hbytes n hn, hapart.byte?_of_covers hmem hcovers haligned hn]
      · rw [List.getElem?_eq_none (by simpa using hn), List.getElem?_eq_none (by simpa using hn)]
    rw [hapart.read_eq hmem haligned hcovers, Bytes.little_injective hsame]

theorem wordIn?_eq_none_iff : wordIn? a m.regions = none ↔ ¬m.Covers a := by
  rw [wordIn?_eq, Option.map_eq_none_iff, List.find?_eq_none, Covers]
  simp only [Region.covers_iff, Region.limit, not_exists, not_and]

/-- Why a word cannot be read. -/
theorem read_eq_error_iff {e : MemoryError} :
    m.read a = .error e ↔ a % 4 ≠ 0 ∧ e = .unaligned a 4 ∨
      a % 4 = 0 ∧ ¬m.Covers a ∧ e = .unmapped a 4 "read" := by
  unfold read
  by_cases haligned : a % 4 = 0
  · rw [if_neg (not_not.mpr haligned), ← wordIn?_eq_none_iff]
    cases wordIn? a m.regions <;> simp [haligned, eq_comm]
  · rw [if_pos haligned]
    simp [haligned, eq_comm]

/-! ## Mapping -/

/-- Words that can be read stay as they are. -/
theorem read_map (h : m.map region = .ok m') (hread : m.read a = .ok v) : m'.read a = .ok v := by
  obtain ⟨-, rfl⟩ := map_eq_ok_iff.mp h
  obtain ⟨haligned, hword⟩ := read_eq_ok.mp hread
  rw [read_eq_ok, wordIn?_append, hword]
  exact ⟨haligned, rfl⟩

/-- Mapping extends the map of bytes. -/
theorem byte?_map (h : m.map region = .ok m') (a : UInt32) :
    m'.byte? a =
      if region.base.toNat ≤ a.toNat ∧ a.toNat < region.limit then
        region.bytes.data.toList[a.toNat - region.base.toNat]?
      else m.byte? a := by
  obtain ⟨hroom, rfl⟩ := map_eq_ok_iff.mp h
  obtain ⟨-, hfree⟩ := hasRoom_iff.mp hroom
  rw [byte?, byteIn?_append]
  split
  · rename_i hinside
    -- no other region holds the byte
    have hnone : byteIn? a m.regions = none := by
      rw [byteIn?_eq, Option.map_eq_none_iff, List.find?_eq_none]
      intro r hr hholds
      have := hfree r hr
      simp only [decide_eq_true_eq] at hholds
      rw [Region.limit] at hinside
      omega
    have hlt : a.toNat - region.base.toNat < region.bytes.size := by
      rw [Region.limit] at hinside
      omega
    rw [hnone, Option.none_or, byteIn?, if_pos hinside, region.getElem?_toList hlt]
  · rename_i houtside
    rw [byteIn?, if_neg houtside, byteIn?, Option.or_none]
    rfl

/-! ## Writing -/

theorem write_eq_ok_iff : m.write a v = .ok m' ↔
    m.Writable a ∧ m' = ⟨put a v m.regions⟩ := by
  unfold write Writable
  cases m.writeError? a <;> simp [eq_comm]

theorem map_extent_put :
    (put a v rs).map (fun r => (r.base.toNat, r.limit)) =
      rs.map fun r => (r.base.toNat, r.limit) := by
  induction rs with
  | nil => rfl
  | cons r rs ih =>
    rw [put]
    split
    · rw [List.map_cons, List.map_cons, Region.base_setWord, Region.limit_setWord]
    · rw [List.map_cons, List.map_cons, ih]

/-- Writing moves no region. -/
theorem Apart.put (hapart : m.Apart) (a v : UInt32) : Apart ⟨put a v m.regions⟩ := by
  -- whether regions lie apart depends on their extents alone
  have hextent : ∀ rs : List Region, rs.Pairwise Region.Apart ↔
      (rs.map fun r => (r.base.toNat, r.limit)).Pairwise fun p q => p.2 ≤ q.1 ∨ q.2 ≤ p.1 := by
    intro rs
    rw [List.pairwise_map]
    rfl
  rw [Apart, hextent, map_extent_put, ← hextent]
  exact hapart

/-- Where regions lie apart, a word can be written if the region that holds it allows that. -/
theorem Apart.writable_iff (hapart : m.Apart) : m.Writable a ↔
    a % 4 = 0 ∧ ∃ r ∈ m.regions, r.writable = true ∧ r.covers a = true := by
  constructor
  · intro h
    obtain ⟨haligned, hpermission⟩ := Memory.writable_iff.mp h
    rw [permission_eq] at hpermission
    split at hpermission
    · cases hpermission
    · rename_i r hfind
      refine ⟨haligned, r, List.mem_of_find?_eq_some hfind, ?_,
        List.find?_some (p := (Region.covers · a)) hfind⟩
      by_contra hwritable
      rw [if_neg hwritable] at hpermission
      cases hpermission
  · rintro ⟨haligned, r, hmem, hwritable, hcovers⟩
    exact hapart.writable hmem haligned hcovers hwritable

/-- Writing replaces the four bytes of a word. -/
theorem Apart.byte?_put (hapart : m.Apart) (hwritable : m.Writable a) (v b : UInt32) :
    Memory.byte? ⟨Memory.put a v m.regions⟩ b =
      if a.toNat ≤ b.toNat ∧ b.toNat < a.toNat + 4 then
        (Bytes.little 4 v.toNat)[b.toNat - a.toNat]?
      else m.byte? b := by
  split
  · rename_i hinside
    -- the word that is read back has these bytes
    obtain ⟨haligned, -, hbytes⟩ := (hapart.put a v).read_eq_ok_iff.mp (read_put_self hwritable)
    have haddress : a + UInt32.ofNat (b.toNat - a.toNat) = b := by
      apply UInt32.toNat.inj
      rw [toNat_add_lt_four haligned (by omega)]
      omega
    have hbyte := hbytes (b.toNat - a.toNat) (by omega)
    rwa [haddress] at hbyte
  · exact byteIn?_put (by omega)

/-! ## Calls -/

/-- A call that changes memory. -/
inductive Call where
  | map (region : Region)
  | mapZeros (base : UInt32) (size : Nat) (writable : Bool)
  | mapWords (base : UInt32) (words : Array UInt32) (writable : Bool)
  | write (address value : UInt32)

namespace Call

/-- Memory after a call, or why the call fails. -/
def apply (m : Memory) : Call → Except MemoryError Memory
  | .map region => m.map region
  | .mapZeros base size writable => m.mapZeros base size writable
  | .mapWords base words writable => m.mapWords base words writable
  | .write address value => m.write address value

/-- Where a call maps bytes, and which. -/
def mapping? : Call → Option (UInt32 × List UInt8)
  | .map region => some (region.base, region.bytes.data.toList)
  | .mapZeros base size _ => some (base, List.replicate size 0)
  | .mapWords base words _ =>
    some (base, words.toList.flatMap fun word => Bytes.little 4 word.toNat)
  | .write .. => none

end Call

/-- Memory after a call that may have failed. -/
def after (m : Memory) (call : Call) : Memory :=
  match call.apply m with
  | .ok m' => m'
  | .error _ => m

/-- Memory that some calls lead to, from none or from a single region. -/
inductive Reached : Memory → Prop where
  | empty : Reached .empty
  | ofRegion (region : Region) : Reached (.ofRegion region)
  | after {m : Memory} (h : Reached m) (call : Call) : Reached (m.after call)

/-- Every call that maps bytes maps one region of them. -/
theorem Call.exists_region {call : Call} {base : UInt32} {bytes : List UInt8}
    (h : call.mapping? = some (base, bytes)) :
    ∃ region : Region, region.base = base ∧ region.bytes.data.toList = bytes ∧
      ∀ m, call.apply m = m.map region := by
  cases call with
  | map region =>
    obtain ⟨rfl, rfl⟩ := Prod.mk.inj (Option.some.inj h)
    exact ⟨region, rfl, rfl, fun _ => rfl⟩
  | mapZeros base size writable =>
    obtain ⟨rfl, rfl⟩ := Prod.mk.inj (Option.some.inj h)
    exact ⟨_, rfl, Array.toList_replicate, fun m => m.mapZeros_eq_map base size writable⟩
  | mapWords base words writable =>
    obtain ⟨rfl, rfl⟩ := Prod.mk.inj (Option.some.inj h)
    exact ⟨_, rfl, Bytes.toList_ofWords words, fun m => m.mapWords_eq_map base words writable⟩
  | write => cases h

theorem Apart.apply (hapart : m.Apart) {call : Call} (h : call.apply m = .ok m') : m'.Apart := by
  cases hmapping : call.mapping? with
  | some mapping =>
    obtain ⟨region, -, -, happly⟩ := Call.exists_region hmapping
    exact hapart.map ((happly m).symm.trans h)
  | none =>
    cases call with
    | write a v =>
      obtain ⟨-, rfl⟩ := write_eq_ok_iff.mp h
      exact hapart.put a v
    | _ => cases hmapping

theorem Reached.apart (h : m.Reached) : m.Apart := by
  induction h with
  | empty => exact List.Pairwise.nil
  | ofRegion region => exact List.pairwise_singleton _ _
  | @after m _ call hapart =>
    rw [Memory.after]
    split
    · rename_i m' happly
      exact hapart.apply happly
    · exact hapart

/-! ## Memory as a map of bytes -/

/-- Memory answers as a partial map from addresses to bytes does. -/
structure RefinesBytes (m : Memory) : Prop where
  /-- No two regions share a byte. -/
  apart : m.Apart
  /-- A call that fails changes nothing. -/
  failed : ∀ call e, Call.apply m call = .error e → m.after call = m
  /-- A word is read from four bytes of one region, the lowest first. -/
  read_ok : ∀ a v, m.read a = .ok v ↔ a % 4 = 0 ∧ m.Covers a ∧
    ∀ n < 4, m.byte? (a + UInt32.ofNat n) = (Bytes.little 4 v.toNat)[n]?
  /-- Every other word is refused. -/
  read_error : ∀ a e, m.read a = .error e ↔ a % 4 ≠ 0 ∧ e = .unaligned a 4 ∨
    a % 4 = 0 ∧ ¬m.Covers a ∧ e = .unmapped a 4 "read"
  /-- A region is mapped if it lies in the address space and apart from all others. -/
  map_ok : ∀ region, (∃ m', m.map region = .ok m') ↔
    region.limit ≤ 2 ^ 32 ∧ ∀ r ∈ m.regions, r.Apart region
  /-- Mapping keeps what can be read and adds the bytes that it is given. -/
  mapped : ∀ call base bytes, Call.mapping? call = some (base, bytes) →
    ∀ m', Call.apply m call = .ok m' →
      (∀ a v, m.read a = .ok v → m'.read a = .ok v) ∧
      (∀ n, n + 4 ≤ bytes.length → (base + UInt32.ofNat n) % 4 = 0 →
        ∃ v, m'.read (base + UInt32.ofNat n) = .ok v ∧
          Bytes.little 4 v.toNat = (bytes.drop n).take 4) ∧
      ∀ a, m'.byte? a =
        if base.toNat ≤ a.toNat ∧ a.toNat < base.toNat + bytes.length then
          bytes[a.toNat - base.toNat]?
        else m.byte? a
  /-- A word is written if a region that allows it holds the word. -/
  write_ok : ∀ a v, (∃ m', m.write a v = .ok m') ↔
    a % 4 = 0 ∧ ∃ r ∈ m.regions, r.writable = true ∧ r.covers a = true
  /-- Writing replaces four bytes, which are read back, and no other word. -/
  written : ∀ a v m', m.write a v = .ok m' →
    m'.read a = .ok v ∧ (∀ b, b ≠ a → m'.read b = m.read b) ∧
    ∀ b, m'.byte? b =
      if a.toNat ≤ b.toNat ∧ b.toNat < a.toNat + 4 then
        (Bytes.little 4 v.toNat)[b.toNat - a.toNat]?
      else m.byte? b
  /-- The machine stores words in this way. -/
  stored : ∀ (machine : Machine) a v, machine.memory = m → Machine.Run.store a v machine =
    match m.write a v with
    | .ok m' => .ok () { machine with memory := m' }
    | .error e => .error (.error (.memory e)) machine

theorem Apart.read_mapped (hapart : m.Apart) (h : m.map region = .ok m') {n : Nat}
    (hn : n + 4 ≤ region.bytes.size) (haligned : (region.base + UInt32.ofNat n) % 4 = 0) :
    ∃ v, m'.read (region.base + UInt32.ofNat n) = .ok v ∧
      Bytes.little 4 v.toNat = (region.bytes.data.toList.drop n).take 4 := by
  obtain ⟨hroom, hregions⟩ := map_eq_ok_iff.mp h
  have hlimit := (hasRoom_iff.mp hroom).1
  -- a region that was mapped ends within the address space, so addresses in it do not wrap
  have haddress : (region.base + UInt32.ofNat n).toNat = region.base.toNat + n := by
    rw [UInt32.toNat_add, UInt32.toNat_ofNat']
    omega
  have hmem : region ∈ m'.regions := hregions ▸ List.mem_append_right _ (List.mem_singleton_self _)
  have hcovers : region.covers (region.base + UInt32.ofNat n) = true := by
    rw [Region.covers_iff, Region.limit, haddress]
    omega
  refine ⟨_, (hapart.map h).read_eq hmem haligned hcovers, ?_⟩
  rw [Region.little_word, haddress, Nat.add_sub_cancel_left]
  apply List.ext_getElem?
  intro k
  by_cases hk : k < 4
  · rw [List.getElem?_map, List.getElem?_range hk, List.getElem?_take_of_lt hk,
      List.getElem?_drop, region.getElem?_toList (by omega), Option.map_some]
  · rw [List.getElem?_eq_none (by simpa using hk), List.getElem?_eq_none (by simp; omega)]

/-- Whatever was mapped and written, memory refines a partial map of bytes. -/
theorem Reached.refinesBytes (h : m.Reached) : m.RefinesBytes where
  apart := h.apart
  failed call e hfail := by rw [Memory.after, hfail]
  read_ok a v := h.apart.read_eq_ok_iff
  read_error a e := read_eq_error_iff
  map_ok region := by
    simp only [map_eq_ok_iff, exists_and_left, exists_eq, and_true]
    exact hasRoom_iff
  mapped call base bytes hmapping m' happly := by
    obtain ⟨region, rfl, rfl, heq⟩ := Call.exists_region hmapping
    have hmap : m.map region = .ok m' := (heq m).symm.trans happly
    exact ⟨fun a v => read_map hmap, fun n hn => h.apart.read_mapped hmap hn, byte?_map hmap⟩
  write_ok a v := by
    simp only [write_eq_ok_iff, exists_and_left, exists_eq, and_true]
    exact h.apart.writable_iff
  written a v m' hwrite := by
    obtain ⟨hwritable, rfl⟩ := write_eq_ok_iff.mp hwrite
    -- alignment keeps the write from touching half of another word
    have hwrites : Writes (· = a) m ⟨put a v m.regions⟩ := .put .refl rfl hwritable
    exact ⟨read_put_self hwritable, fun b hb => hwrites.read_eq hb,
      h.apart.byte?_put hwritable v⟩
  stored machine a v hmemory := by
    subst hmemory
    unfold Machine.Run.store write
    cases machine.memory.writeError? a <;> rfl

/-- A word in the last four bytes of the address space is replaced, and one in a region whose
    base is not aligned is kept. -/
theorem refinesBytes_last :
    let odd : Region := { base := 0x1002, bytes := ⟨#[1, 2, 3, 4, 5, 6]⟩, writable := false }
    let last : Region := { base := 0xFFFFFFFC, bytes := ⟨#[7, 8, 9, 10]⟩, writable := true }
    let m := (ofRegion odd).after (.map last)
    ∃ m', m.write 0xFFFFFFFC 0x44332211 = .ok m' ∧ m'.read 0xFFFFFFFC = .ok 0x44332211 ∧
      m'.read 0x1004 = .ok 0x06050403 ∧ m'.byte? 0xFFFFFFFF = some 0x44 ∧
      m'.read 0x1000 = .error (.unmapped 0x1000 4 "read") := by
  intro odd last m
  have hreached : m.Reached := .after (.ofRegion odd) (.map last)
  have hlast : last ∈ m.regions := .tail odd (.head [])
  obtain ⟨m', hwrite⟩ := (hreached.refinesBytes.write_ok 0xFFFFFFFC 0x44332211).mpr
    ⟨by decide, last, hlast, by decide, by decide⟩
  obtain ⟨hself, hother, hbyte⟩ := hreached.refinesBytes.written _ _ m' hwrite
  refine ⟨m', hwrite, hself, ?_, ?_, ?_⟩
  · rw [hother _ (by decide)]
    cbv
  · rw [hbyte]
    cbv
  · rw [hother _ (by decide)]
    cbv

end Memory

end HeliumKernels
