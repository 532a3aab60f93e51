/-
  HeliumKernels.Proofs.Machine.Mapping

  Mapping regions into memory.  Mapped regions lie apart, so the word at an
  address is that of the one region that holds it, and a region made of words
  holds just these words.
-/
import Mathlib.Data.List.Induction
import HeliumKernels.Machine.Basic
import HeliumKernels.Proofs.Machine.Memory

namespace HeliumKernels

/-! ## Bytes of words -/

namespace Region

variable {base word address : UInt32} {bytes : ByteArray} {writable : Bool}

theorem byte_eq (r : Region) (offset : Nat) : r.byte offset = r.bytes.data[offset]?.getD 0 := by
  unfold byte
  split
  · rename_i h
    rw [Array.getElem?_eq_getElem h]
    rfl
  · rename_i h
    rw [Array.getElem?_eq_none (Nat.le_of_not_lt h)]
    rfl

theorem data_pushWord : (Bytes.pushWord bytes word).data = bytes.data ++
    #[word.toUInt8, (word / 0x100).toUInt8, (word / 0x10000).toUInt8,
      (word / 0x1000000).toUInt8] := by
  apply Array.toList_inj.mp
  simp [Bytes.pushWord]

/-- Bytes before the last word. -/
theorem word_pushWord_of_lt (h : address.toNat - base.toNat + 4 ≤ bytes.size) :
    Region.word ⟨base, Bytes.pushWord bytes word, writable⟩ address =
      Region.word ⟨base, bytes, writable⟩ address := by
  have hsize : bytes.size = bytes.data.size := rfl
  simp only [Region.word, byte_eq, data_pushWord]
  rw [Array.getElem?_append_left (by omega), Array.getElem?_append_left (by omega),
    Array.getElem?_append_left (by omega), Array.getElem?_append_left (by omega)]

/-- The last word. -/
theorem word_pushWord_self (h : address.toNat - base.toNat = bytes.size) :
    Region.word ⟨base, Bytes.pushWord bytes word, writable⟩ address = word := by
  have hsize : bytes.size = bytes.data.size := rfl
  have hlt := word.toNat_lt
  apply UInt32.toNat.inj
  simp only [Region.word, byte_eq, data_pushWord, h, hsize]
  simp only [Array.getElem?_append_right (Nat.le_refl _),
    Array.getElem?_append_right (Nat.le_add_right _ _), Nat.sub_self, Nat.add_sub_cancel_left]
  simp
  omega

/-- A region of words holds them in their order. -/
theorem word_ofWords {words : Array UInt32} (hroom : base.toNat + 4 * words.size ≤ 2 ^ 32) {n : Nat}
    (h : n < words.size) :
    Region.word ⟨base, Bytes.ofWords words, writable⟩ (wordAddress base n) = words[n] := by
  have hlist : ∀ (xs : List UInt32), base.toNat + 4 * xs.length ≤ 2 ^ 32 →
      ∀ n (h : n < xs.length), Region.word ⟨base, xs.foldl Bytes.pushWord .empty, writable⟩
        (wordAddress base n) = xs[n] := by
    intro xs
    induction xs using List.reverseRecOn with
    | nil => exact fun _ n h => absurd h (Nat.not_lt_zero n)
    | append_singleton xs x ih =>
      intro hroom n h
      rw [List.length_append, List.length_singleton] at hroom h
      have hsize : (xs.foldl Bytes.pushWord .empty).size = 4 * xs.length := by
        rw [← List.size_toArray, ← Bytes.size_ofWords, Bytes.ofWords, List.foldl_toArray]
      have haddress := toNat_wordAddress (show base.toNat + 4 * n < 2 ^ 32 by omega)
      rw [List.foldl_append, List.foldl_cons, List.foldl_nil]
      by_cases hn : n < xs.length
      · rw [word_pushWord_of_lt (by omega), List.getElem_append_left hn]
        exact ih (by omega) n hn
      · obtain rfl : n = xs.length := by omega
        rw [word_pushWord_self (by omega), List.getElem_concat_length rfl]
  have := hlist words.toList (by simpa using hroom) n (by simpa using h)
  rwa [Array.foldl_toList, Array.getElem_toList] at this

end Region

/-! ## Regions that lie apart -/

/-- Two regions share no byte. -/
def Region.Apart (r s : Region) : Prop :=
  r.limit ≤ s.base.toNat ∨ s.limit ≤ r.base.toNat

namespace Memory

variable {m : Memory} {r : Region} {rs : List Region} {base address : UInt32}

/-- No two regions share a byte. -/
def Apart (m : Memory) : Prop :=
  m.regions.Pairwise Region.Apart

/-- Where regions lie apart, only one of them has what no two such regions can have. -/
theorem find?_of_apart {p : Region → Bool}
    (hp : ∀ r s, r.Apart s → p r = true → p s = true → False)
    (hapart : rs.Pairwise Region.Apart) (hmem : r ∈ rs) (hr : p r = true) :
    rs.find? p = some r := by
  induction rs with
  | nil => cases hmem
  | cons s rs ih =>
    obtain ⟨hs, hrest⟩ := List.pairwise_cons.mp hapart
    rcases List.mem_cons.mp hmem with rfl | hmem
    · exact List.find?_cons_of_pos hr
    · have hnot : ¬p s = true := fun hs' => hp s r (hs r hmem) hs' hr
      exact (List.find?_cons_of_neg hnot).trans (ih hrest hmem)

/-- A word is in one of them only. -/
theorem find?_covers (hapart : rs.Pairwise Region.Apart) (hmem : r ∈ rs)
    (hcovers : r.covers address = true) : rs.find? (·.covers address) = some r := by
  refine find?_of_apart (fun r s hapart hr hs => ?_) hapart hmem hcovers
  rw [Region.covers_iff] at hr hs
  rcases hapart with h | h <;> omega

theorem Apart.read_eq (hapart : m.Apart) (hmem : r ∈ m.regions) (haligned : address % 4 = 0)
    (hcovers : r.covers address = true) : m.read address = .ok (r.word address) := by
  rw [read_eq_ok, wordIn?_eq, find?_covers hapart hmem hcovers]
  exact ⟨haligned, rfl⟩

theorem Apart.writable (hapart : m.Apart) (hmem : r ∈ m.regions) (haligned : address % 4 = 0)
    (hcovers : r.covers address = true) (hwritable : r.writable = true) : m.Writable address := by
  rw [writable_iff, permission_eq, find?_covers hapart hmem hcovers]
  exact ⟨haligned, if_pos hwritable⟩

/-! ## Mapping -/

theorem hasRoom_iff {size : Nat} : m.hasRoom base size = true ↔ base.toNat + size ≤ 2 ^ 32 ∧
    ∀ r ∈ m.regions, r.limit ≤ base.toNat ∨ base.toNat + size ≤ r.base.toNat := by
  simp only [hasRoom, meets, Bool.and_eq_true, decide_eq_true_eq, Bool.not_eq_true',
    List.any_eq_false, not_and, Nat.not_lt]
  refine and_congr_right fun _ => forall_congr' fun r => imp_congr_right fun _ => ?_
  omega

theorem map_eq_ok_iff {region : Region} {m' : Memory} : m.map region = .ok m' ↔
    m.hasRoom region.base region.bytes.size = true ∧ m' = ⟨m.regions ++ [region]⟩ := by
  unfold map
  split
  · rename_i hroom
    rw [Except.ok.injEq, eq_comm]
    exact (and_iff_right hroom).symm
  · rename_i hroom
    exact iff_of_false nofun fun h => hroom h.1

/-- Mapping keeps regions apart. -/
theorem Apart.map (hapart : m.Apart) {region : Region} {m' : Memory}
    (h : m.map region = .ok m') : m'.Apart := by
  obtain ⟨hroom, rfl⟩ := map_eq_ok_iff.mp h
  refine List.pairwise_append.mpr ⟨hapart, List.pairwise_singleton _ _, fun r hr s hs => ?_⟩
  obtain rfl := List.mem_singleton.mp hs
  exact (hasRoom_iff.mp hroom).2 r hr

/-- Where there is room, mapped words lie apart from what is mapped. -/
theorem Apart.mapWords_eq (hapart : m.Apart) {words : Array UInt32} (writable : Bool)
    (hroom : base.toNat + 4 * words.size ≤ 2 ^ 32)
    (hfree : ∀ r ∈ m.regions, r.limit ≤ base.toNat ∨ base.toNat + 4 * words.size ≤ r.base.toNat) :
    m.mapWords base words writable =
        .ok ⟨m.regions ++ [⟨base, Bytes.ofWords words, writable⟩]⟩ ∧
      Apart ⟨m.regions ++ [⟨base, Bytes.ofWords words, writable⟩]⟩ := by
  have hmap : m.map ⟨base, Bytes.ofWords words, writable⟩ = _ :=
    map_eq_ok_iff.mpr ⟨hasRoom_iff.mpr (by rw [Bytes.size_ofWords]; exact ⟨hroom, hfree⟩), rfl⟩
  exact ⟨(m.mapWords_eq_map base words writable).trans hmap, hapart.map hmap⟩

theorem wordAddress_aligned (haligned : base % 4 = 0) (n : Nat) : wordAddress base n % 4 = 0 := by
  apply UInt32.toNat.inj
  have := congrArg UInt32.toNat haligned
  simp only [wordAddress, UInt32.toNat_mod, UInt32.toNat_add, UInt32.toNat_ofNat',
    UInt32.reduceToNat] at this ⊢
  omega

theorem covers_wordAddress {bytes : ByteArray} {writable : Bool} {count n : Nat}
    (hsize : bytes.size = 4 * count) (hroom : base.toNat + 4 * count ≤ 2 ^ 32) (h : n < count) :
    Region.covers ⟨base, bytes, writable⟩ (wordAddress base n) = true := by
  rw [Region.covers_iff, Region.limit, toNat_wordAddress (by omega)]
  simp only [hsize]
  omega

/-- Mapped words can be read. -/
theorem Apart.holdsWords (hapart : m.Apart) {words : Array UInt32} {writable : Bool}
    (hmem : ⟨base, Bytes.ofWords words, writable⟩ ∈ m.regions) (haligned : base % 4 = 0)
    (hroom : base.toNat + 4 * words.size ≤ 2 ^ 32) : m.HoldsWords base words.toList := by
  intro n hn
  have hn' : n < words.size := by simpa using hn
  rw [hapart.read_eq hmem (wordAddress_aligned haligned n)
    (covers_wordAddress (Bytes.size_ofWords words) hroom hn'), Region.word_ofWords hroom hn',
    Array.getElem_toList]

/-! ## Further regions -/

/-- One memory with further regions mapped. -/
inductive Grows (m : Memory) : Memory → Prop where
  | refl : Grows m m
  | map {m' m'' : Memory} {region : Region} (h : Grows m m') (hmap : m'.map region = .ok m'') :
      Grows m m''

/-- Regions that are mapped later do not hide a word. -/
theorem permission_append (h : permission address rs ≠ .none) (rs' : List Region) :
    permission address (rs ++ rs') = permission address rs := by
  rw [permission_eq] at h
  rw [permission_eq, permission_eq, List.find?_append]
  cases hfind : rs.find? (·.covers address) with
  | none =>
    rw [hfind] at h
    exact absurd rfl h
  | some r => rfl

theorem Grows.writable {m m' : Memory} (h : Grows m m') (hwritable : m.Writable address) :
    m'.Writable address := by
  induction h with
  | refl => exact hwritable
  | @map m₁ m₂ region _ hmap ih =>
    obtain ⟨-, rfl⟩ := map_eq_ok_iff.mp hmap
    obtain ⟨haligned, hpermission⟩ := writable_iff.mp ih
    refine writable_iff.mpr ⟨haligned, ?_⟩
    rw [permission_append (by rw [hpermission]; nofun), hpermission]

/-! ## Reading many words -/

theorem HoldsWords.collectWords_eq {values : List UInt32} (h : m.HoldsWords base values)
    (hroom : base.toNat + 4 * values.length ≤ 2 ^ 32) (found : Array UInt32) :
    m.collectWords base found values.length = .ok (found ++ values.toArray) := by
  induction values generalizing base found with
  | nil => simp [collectWords]
  | cons value rest ih =>
    rw [List.length_cons] at hroom
    have hnext : (base + 4).toNat = (base.toNat + 4) % 2 ^ 32 := UInt32.toNat_add base 4
    -- only behind the last word may the address wrap around
    have hinside : ¬(base + 4 < base ∧ 0 < rest.length) := by
      rw [UInt32.lt_iff_toNat_lt]
      omega
    rw [List.length_cons, collectWords, h.head]
    simp only [if_neg hinside]
    rw [ih h.tail (by omega)]
    simp

theorem HoldsWords.readWords_eq {values : List UInt32} (h : m.HoldsWords base values)
    (hroom : base.toNat + 4 * values.length ≤ 2 ^ 32) :
    m.readWords base values.length = .ok values.toArray := by
  rw [readWords, Nat.mod_eq_of_lt (by omega), h.collectWords_eq hroom, Array.empty_append]

end Memory

/-! ## The stack -/

namespace Machine

theorem exists_stack : ∃ bytes : ByteArray, bytes.size = 4 * 0x4000 ∧
    fresh.memory = ⟨[⟨stackTop - stackSize, bytes, true⟩]⟩ :=
  ⟨_, Bytes.size_zeros _, rfl⟩

/-- On a fresh machine with further regions mapped all words of the stack can be written. -/
theorem stack_writable {memory : Memory} (h : fresh.memory.Grows memory) {n : Nat}
    (hn : n < 0x4000) : memory.Writable (wordAddress (stackTop - stackSize) n) := by
  obtain ⟨bytes, hsize, hfresh⟩ := exists_stack
  have hroom : (stackTop - stackSize).toNat + 4 * 0x4000 ≤ 2 ^ 32 := by decide
  have hapart : fresh.memory.Apart := by
    rw [hfresh]
    exact List.pairwise_singleton _ _
  refine h.writable (hapart.writable (hfresh ▸ List.mem_singleton_self _)
    (Memory.wordAddress_aligned (by decide) n) (Memory.covers_wordAddress hsize hroom hn) rfl)

end Machine

end HeliumKernels
