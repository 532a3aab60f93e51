/-
  HeliumKernels.Proofs.Machine.Memory

  What writing words does to memory.  `Memory.Writes W` relates a memory to
  one that came from it by writing words at addresses of `W` alone; such a
  memory is mapped as before, and every word and every byte outside `W` is as
  it was.
-/
import HeliumKernels.Machine.Memory
import Mathlib

namespace HeliumKernels

/-! ## Addresses of words -/

/-- Address of word `n` from `base` on, modulo `2 ^ 32`. -/
def wordAddress (base : UInt32) (n : Nat) : UInt32 :=
  base + UInt32.ofNat (4 * n)

@[simp] theorem wordAddress_zero (base : UInt32) : wordAddress base 0 = base := by
  simp [wordAddress]

theorem wordAddress_wordAddress (base : UInt32) (n k : Nat) :
    wordAddress (wordAddress base n) k = wordAddress base (n + k) := by
  simp only [wordAddress, UInt32.add_assoc, ← UInt32.ofNat_add, Nat.mul_add]

theorem wordAddress_succ (base : UInt32) (n : Nat) :
    wordAddress (base + 4) n = wordAddress base (n + 1) := by
  rw [Nat.add_comm n, ← wordAddress_wordAddress]
  rfl

theorem toNat_wordAddress {base : UInt32} {n : Nat} (h : base.toNat + 4 * n < 2 ^ 32) :
    (wordAddress base n).toNat = base.toNat + 4 * n := by
  simp only [wordAddress, UInt32.toNat_add, UInt32.toNat_ofNat']
  omega

theorem wordAddress_injective {base : UInt32} {n k : Nat} (hn : n < 2 ^ 30) (hk : k < 2 ^ 30)
    (h : wordAddress base n = wordAddress base k) : n = k := by
  have hnat := congrArg UInt32.toNat (UInt32.add_right_inj base |>.mp h)
  simp only [UInt32.toNat_ofNat'] at hnat
  omega

/-! ## Regions -/

namespace Region

variable (r : Region) {address other : UInt32} (value : UInt32)

theorem size_setWord : (r.setWord address value).bytes.size = r.bytes.size := by
  simp only [setWord, size_setByte]

theorem writable_setByte (offset : Nat) (byte : UInt8) :
    (r.setByte offset byte).writable = r.writable := rfl

theorem writable_setWord : (r.setWord address value).writable = r.writable := by
  simp only [setWord, writable_setByte]

theorem limit_setWord : (r.setWord address value).limit = r.limit := by
  simp only [limit, base_setWord, size_setWord]

theorem covers_setWord : (r.setWord address value).covers other = r.covers other := by
  simp only [covers, base_setWord, limit_setWord]

/-- Bytes beside the word stay. -/
theorem byte_setWord {offset : Nat}
    (h : offset < address.toNat - r.base.toNat ∨ address.toNat - r.base.toNat + 4 ≤ offset) :
    (r.setWord address value).byte offset = r.byte offset := by
  unfold setWord
  simp only []
  rw [byte_setByte_of_ne _ _ (by omega), byte_setByte_of_ne _ _ (by omega),
    byte_setByte_of_ne _ _ (by omega), byte_setByte_of_ne _ _ (by omega)]

/-- Other aligned words stay. -/
theorem word_setWord_of_ne (h : r.covers address = true) (h' : r.covers other = true)
    (haddress : address % 4 = 0) (hother : other % 4 = 0) (hne : other ≠ address) :
    (r.setWord address value).word other = r.word other := by
  rw [covers_iff] at h h'
  have ha : address.toNat % 4 = 0 := by simpa [← UInt32.toNat_inj] using haddress
  have ho : other.toNat % 4 = 0 := by simpa [← UInt32.toNat_inj] using hother
  -- aligned words at different addresses share no byte
  have hapart : other.toNat ≠ address.toNat := fun heq => hne (UInt32.toNat.inj heq)
  unfold word
  rw [base_setWord]
  simp only []
  rw [byte_setWord _ _ (by omega), byte_setWord _ _ (by omega), byte_setWord _ _ (by omega),
    byte_setWord _ _ (by omega)]

end Region

namespace Memory

/-! ## The region of a word -/

theorem wordIn?_eq (address : UInt32) (rs : List Region) :
    wordIn? address rs = (rs.find? (·.covers address)).map (·.word address) := by
  induction rs with
  | nil => rfl
  | cons r rs ih =>
    rw [wordIn?, List.find?_cons, ih]
    cases r.covers address <;> rfl

theorem permission_eq (address : UInt32) (rs : List Region) :
    permission address rs = match rs.find? (·.covers address) with
      | none => .none
      | some r => if r.writable then .readWrite else .readOnly := by
  induction rs with
  | nil => rfl
  | cons r rs ih =>
    rw [permission, List.find?_cons, ih]
    cases r.covers address <;> rfl

/-- Every word that may be accessed has a value. -/
theorem permission_ne_none_iff {rs : List Region} {address : UInt32} :
    permission address rs ≠ .none ↔ ∃ value, wordIn? address rs = some value := by
  rw [permission_eq, wordIn?_eq]
  cases rs.find? (·.covers address) with
  | none => simp
  | some r => cases hwritable : r.writable <;> simp [hwritable]

/-! ## One word -/

section Put

variable {rs : List Region} {address other value : UInt32}

theorem permission_put : permission other (put address value rs) = permission other rs := by
  induction rs with
  | nil => rfl
  | cons r rs ih =>
    rw [put]
    split
    · rw [permission, permission, Region.covers_setWord, Region.writable_setWord]
    · simp only [permission, ih]

theorem wordIn?_put_self (h : permission address rs ≠ .none) :
    wordIn? address (put address value rs) = some value := by
  induction rs with
  | nil => exact absurd rfl h
  | cons r rs ih =>
    rw [put]
    split
    · -- both look for the first region that covers the address
      rename_i hcovers
      rw [wordIn?, Region.covers_setWord, if_pos hcovers, Region.word_setWord_self r _ _ hcovers]
    · rename_i hcovers
      rw [wordIn?, if_neg hcovers]
      rw [permission, if_neg hcovers] at h
      exact ih h

theorem wordIn?_put_of_ne (haddress : address % 4 = 0) (hother : other % 4 = 0)
    (hne : other ≠ address) : wordIn? other (put address value rs) = wordIn? other rs := by
  induction rs with
  | nil => rfl
  | cons r rs ih =>
    rw [put]
    split
    · rename_i hcovers
      rw [wordIn?, wordIn?, Region.covers_setWord]
      split
      · rename_i hother'
        rw [Region.word_setWord_of_ne r value hcovers hother' haddress hother hne]
      · rfl
    · rw [wordIn?, wordIn?, ih]

/-- Byte at `address` in the first region that holds it. -/
def byteIn? (address : UInt32) : List Region → Option UInt8
  | [] => none
  | r :: rest =>
    if r.base.toNat ≤ address.toNat ∧ address.toNat < r.limit then
      some (r.byte (address.toNat - r.base.toNat))
    else byteIn? address rest

theorem byteIn?_put (h : other.toNat < address.toNat ∨ address.toNat + 4 ≤ other.toNat) :
    byteIn? other (put address value rs) = byteIn? other rs := by
  induction rs with
  | nil => rfl
  | cons r rs ih =>
    rw [put]
    split
    · rename_i hcovers
      -- the region that is written covers the whole word, so its other bytes are beside it
      rw [Region.covers_iff] at hcovers
      rw [byteIn?, byteIn?, Region.base_setWord, Region.limit_setWord]
      split
      · rw [Region.byte_setWord _ _ (by omega)]
      · rfl
    · rw [byteIn?, byteIn?, ih]

end Put

/-- Byte at an address, if it is mapped. -/
def byte? (m : Memory) (address : UInt32) : Option UInt8 :=
  byteIn? address m.regions

/-- Whether the word at an address can be read. -/
def Readable (m : Memory) (address : UInt32) : Prop :=
  ∃ value, m.read address = .ok value

instance (m : Memory) (address : UInt32) : Decidable (m.Readable address) :=
  match h : m.read address with
  | .ok value => isTrue ⟨value, h⟩
  | .error _ => isFalse fun ⟨_, hvalue⟩ => nomatch h.symm.trans hvalue

/-- Word at an address, zero where none can be read. -/
def wordAt (m : Memory) (address : UInt32) : UInt32 :=
  (wordIn? address m.regions).getD 0

/-- Whether the word at an address can be written. -/
def Writable (m : Memory) (address : UInt32) : Prop :=
  m.writeError? address = none

instance (m : Memory) (address : UInt32) : Decidable (m.Writable address) :=
  inferInstanceAs (Decidable (m.writeError? address = none))

theorem writable_iff {m : Memory} {address : UInt32} :
    m.Writable address ↔ address % 4 = 0 ∧ permission address m.regions = .readWrite := by
  unfold Writable writeError?
  split
  · simp_all
  · split <;> simp_all

theorem read_eq_ok {m : Memory} {address value : UInt32} :
    m.read address = .ok value ↔ address % 4 = 0 ∧ wordIn? address m.regions = some value := by
  unfold read
  split
  · simp_all
  · split <;> simp_all

theorem Readable.read_eq {m : Memory} {address : UInt32} (h : m.Readable address) :
    m.read address = .ok (m.wordAt address) := by
  obtain ⟨value, hread⟩ := h
  rw [hread, wordAt, (read_eq_ok.mp hread).2]
  rfl

/-- A word that is not mapped cannot be read. -/
theorem read_eq_unmapped {m : Memory} {address : UInt32} (haligned : address % 4 = 0)
    (h : ¬m.Readable address) : m.read address = .error (.unmapped address 4 "read") := by
  cases hread : m.read address with
  | ok value => exact absurd ⟨value, hread⟩ h
  | error e =>
    unfold read at hread
    rw [if_neg (not_not.mpr haligned)] at hread
    split at hread
    · cases hread
    · exact hread.symm

theorem readable_iff {m : Memory} {address : UInt32} :
    m.Readable address ↔ address % 4 = 0 ∧ permission address m.regions ≠ .none := by
  simp only [Readable, read_eq_ok, exists_and_left, permission_ne_none_iff]

theorem Writable.readable {m : Memory} {address : UInt32} (h : m.Writable address) :
    m.Readable address := by
  obtain ⟨haligned, hpermission⟩ := writable_iff.mp h
  refine readable_iff.mpr ⟨haligned, ?_⟩
  rw [hpermission]
  nofun

/-- The same words can be read and written in both. -/
def SameMap (m m' : Memory) : Prop :=
  ∀ address, (m'.Readable address ↔ m.Readable address) ∧
    (m'.Writable address ↔ m.Writable address)

theorem SameMap.refl (m : Memory) : m.SameMap m := fun _ => ⟨Iff.rfl, Iff.rfl⟩

theorem SameMap.trans {m m' m'' : Memory} (h : m.SameMap m') (h' : m'.SameMap m'') :
    m.SameMap m'' := fun address =>
  ⟨(h' address).1.trans (h address).1, (h' address).2.trans (h address).2⟩

/-! ## Many words -/

/-- From one memory to another by writing words at addresses of `W`. -/
inductive Writes (W : UInt32 → Prop) (m : Memory) : Memory → Prop where
  | refl : Writes W m m
  | put {m' : Memory} {address value : UInt32} (h : Writes W m m') (hmem : W address)
      (hwritable : m'.Writable address) : Writes W m ⟨put address value m'.regions⟩

namespace Writes

variable {W V : UInt32 → Prop} {m m' m'' : Memory} {address value : UInt32}

theorem trans (h : Writes W m m') (h' : Writes W m' m'') : Writes W m m'' := by
  induction h' with
  | refl => exact h
  | put _ hmem hwritable ih => exact .put ih hmem hwritable

theorem mono (h : Writes W m m') (hsub : ∀ a, W a → V a) : Writes V m m' := by
  induction h with
  | refl => exact .refl
  | put _ hmem hwritable ih => exact .put ih (hsub _ hmem) hwritable

theorem eq_of_none (h : Writes (fun _ => False) m m') : m' = m := by
  cases h with
  | refl => rfl
  | put _ hmem => exact hmem.elim

/-- Nothing becomes writable or stops being so. -/
theorem writable_iff (h : Writes W m m') : m'.Writable address ↔ m.Writable address := by
  induction h with
  | refl => exact Iff.rfl
  | put _ _ _ ih => rw [← ih, Memory.writable_iff, Memory.writable_iff, permission_put]

theorem readable_iff (h : Writes W m m') : m'.Readable address ↔ m.Readable address := by
  induction h with
  | refl => exact Iff.rfl
  | put _ _ _ ih => rw [← ih, Memory.readable_iff, Memory.readable_iff, permission_put]

theorem sameMap (h : Writes W m m') : m.SameMap m' :=
  fun _ => ⟨h.readable_iff, h.writable_iff⟩

/-- Words elsewhere are read as before. -/
theorem read_eq (h : Writes W m m') (hout : ¬W address) : m'.read address = m.read address := by
  induction h with
  | refl => rfl
  | @put m₁ a v _ hmem hwritable ih =>
    -- the word written has an aligned address, and so has every word that can be read
    have hne : address ≠ a := fun heq => hout (heq ▸ hmem)
    rw [← ih]
    unfold read
    split
    · rfl
    · rename_i haligned
      rw [wordIn?_put_of_ne (Memory.writable_iff.mp hwritable).1 (Decidable.not_not.mp haligned) hne]

/-- Bytes elsewhere are as before. -/
theorem byte?_eq (h : Writes W m m')
    (hout : ∀ a, W a → address.toNat < a.toNat ∨ a.toNat + 4 ≤ address.toNat) :
    m'.byte? address = m.byte? address := by
  induction h with
  | refl => rfl
  | put _ hmem _ ih => exact (byteIn?_put (hout _ hmem)).trans ih

end Writes

/-- A word that was written is read back. -/
theorem read_put_self {m : Memory} {address value : UInt32} (h : m.Writable address) :
    read ⟨put address value m.regions⟩ address = .ok value := by
  obtain ⟨haligned, hpermission⟩ := writable_iff.mp h
  exact read_eq_ok.mpr ⟨haligned, wordIn?_put_self (by rw [hpermission]; nofun)⟩

/-! ## Consecutive words -/

/-- Write words upward from `base`. -/
def putAll (m : Memory) (base : UInt32) : List UInt32 → Memory
  | [] => m
  | value :: rest => putAll ⟨put base value m.regions⟩ (base + 4) rest

/-- Memory holds words upward from `base`. -/
def HoldsWords (m : Memory) (base : UInt32) (values : List UInt32) : Prop :=
  ∀ n (h : n < values.length), m.read (wordAddress base n) = .ok values[n]

theorem holdsWords_iff {m : Memory} {base : UInt32} {values : List UInt32} :
    m.HoldsWords base values ↔
      ∀ n value, values[n]? = some value → m.read (wordAddress base n) = .ok value := by
  refine ⟨fun h n value hvalue => ?_, fun h n hn => h n _ (List.getElem?_eq_getElem hn)⟩
  obtain ⟨hn, rfl⟩ := List.getElem?_eq_some_iff.mp hvalue
  exact h n hn

theorem HoldsWords.head {m : Memory} {base value : UInt32} {rest : List UInt32}
    (h : m.HoldsWords base (value :: rest)) : m.read base = .ok value := by
  simpa using h 0 (Nat.zero_lt_succ _)

theorem HoldsWords.tail {m : Memory} {base value : UInt32} {rest : List UInt32}
    (h : m.HoldsWords base (value :: rest)) : m.HoldsWords (base + 4) rest := by
  intro n hn
  rw [wordAddress_succ]
  exact h (n + 1) (Nat.succ_lt_succ hn)

theorem HoldsWords.left {m : Memory} {base : UInt32} {xs ys : List UInt32}
    (h : m.HoldsWords base (xs ++ ys)) : m.HoldsWords base xs := by
  intro n hn
  have := h n (by rw [List.length_append]; omega)
  rwa [List.getElem_append_left hn] at this

theorem HoldsWords.right {m : Memory} {base : UInt32} {xs ys : List UInt32}
    (h : m.HoldsWords base (xs ++ ys)) : m.HoldsWords (wordAddress base xs.length) ys := by
  intro n hn
  have := h (xs.length + n) (by rw [List.length_append]; omega)
  rw [List.getElem_append_right (Nat.le_add_right _ _)] at this
  simpa only [wordAddress_wordAddress, Nat.add_sub_cancel_left] using this

theorem HoldsWords.of_writes {W : UInt32 → Prop} {m m' : Memory} {base : UInt32}
    {values : List UInt32} (h : m.HoldsWords base values) (hwrites : Writes W m m')
    (hout : ∀ n < values.length, ¬W (wordAddress base n)) : m'.HoldsWords base values := by
  intro n hn
  rw [hwrites.read_eq (hout n hn)]
  exact h n hn

/-- Words written upward change nothing else and are read back. -/
theorem putAll_spec {m : Memory} {base : UInt32} {values : List UInt32}
    (hlength : values.length < 2 ^ 30)
    (hwritable : ∀ n < values.length, m.Writable (wordAddress base n)) :
    Writes (fun a => ∃ n < values.length, a = wordAddress base n) m (m.putAll base values) ∧
      (m.putAll base values).HoldsWords base values := by
  induction values generalizing m base with
  | nil => exact ⟨.refl, nofun⟩
  | cons value rest ih =>
    rw [List.length_cons] at hlength
    have hw : m.Writable base := by simpa using hwritable 0 (Nat.zero_lt_succ _)
    -- the first word, and then the rest in a memory that is mapped as before
    have hone : Writes (fun a => a = base) m ⟨put base value m.regions⟩ := .put .refl rfl hw
    have hrest : ∀ n < rest.length,
        Writable ⟨put base value m.regions⟩ (wordAddress (base + 4) n) := by
      intro n hn
      rw [wordAddress_succ]
      exact hone.writable_iff.mpr (hwritable (n + 1) (Nat.succ_lt_succ hn))
    obtain ⟨hwrites, hholds⟩ := ih (by omega) hrest
    refine ⟨(hone.mono ?_).trans (hwrites.mono ?_), ?_⟩
    · rintro a rfl
      exact ⟨0, Nat.zero_lt_succ _, (wordAddress_zero a).symm⟩
    · rintro a ⟨n, hn, rfl⟩
      exact ⟨n + 1, Nat.succ_lt_succ hn, wordAddress_succ base n⟩
    · intro n hn
      cases n with
      | zero =>
        -- the words written later lie elsewhere
        rw [wordAddress_zero]
        refine Eq.trans (hwrites.read_eq ?_) (read_put_self hw)
        rintro ⟨n, hn, heq⟩
        rw [wordAddress_succ, ← wordAddress_zero base, wordAddress_wordAddress] at heq
        have := wordAddress_injective (by omega) (by omega) heq
        omega
      | succ n =>
        rw [← wordAddress_succ]
        exact hholds n (Nat.lt_of_succ_lt_succ hn)

end Memory

end HeliumKernels
