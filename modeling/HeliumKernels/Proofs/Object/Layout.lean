/-
  HeliumKernels.Proofs.Object.Layout

  Where functions lie in an object file.  With any format that aligns what is
  appended, each function starts at a word boundary, its half-words follow in
  order with the low byte first, and what is left between two functions is
  less than a word of zero bytes.  The symbols of a function give the place
  it was stored at.  If the format also stores what it is given, a reader
  finds the functions there.
-/
import HeliumKernels.Proofs.Object.Storage
import Mathlib

namespace HeliumKernels

namespace Bytes

theorem ofHalfWords_cons (hw : UInt16) (code : List UInt16) :
    ofHalfWords (hw :: code) = hw.toUInt8 :: (hw / 256).toUInt8 :: ofHalfWords code := by
  have hlow : UInt8.ofNat hw.toNat = hw.toUInt8 := rfl
  have hhigh : UInt8.ofNat (hw.toNat / 256) = (hw / 256).toUInt8 := by
    apply UInt8.toNat.inj
    simp only [UInt8.toNat_ofNat', UInt16.toNat_toUInt8, UInt16.toNat_div, UInt16.reduceToNat]
  rw [ofHalfWords, List.flatMap_cons, little, little, little, hlow, hhigh]
  rfl

@[simp] theorem length_ofHalfWords (code : List UInt16) :
    (ofHalfWords code).length = 2 * code.length := by
  induction code with
  | nil => rfl
  | cons hw code ih =>
    rw [ofHalfWords_cons, List.length_cons, List.length_cons, ih, List.length_cons]
    omega

/-- The low byte of a half-word comes first. -/
theorem getElem?_ofHalfWords {code : List UInt16} {k : Nat} {hw : UInt16}
    (h : code[k]? = some hw) :
    (ofHalfWords code)[2 * k]? = some hw.toUInt8 ∧
      (ofHalfWords code)[2 * k + 1]? = some (hw / 256).toUInt8 := by
  induction code generalizing k with
  | nil => cases h
  | cons head code ih =>
    rw [ofHalfWords_cons]
    cases k with
    | zero =>
      obtain rfl := Option.some.inj h
      exact ⟨rfl, rfl⟩
    | succ k =>
      rw [List.getElem?_cons_succ] at h
      exact ih h

end Bytes

namespace Object

open Bytes

/-! ## Layout -/

/-- A function and the place it is stored at. -/
structure Placed where
  function : Function
  offset : Nat

namespace Placed

/-- Bytes of the code. -/
def size (p : Placed) : Nat :=
  2 * p.function.code.length

/-- First byte behind the code. -/
def limit (p : Placed) : Nat :=
  p.offset + p.size

/-- The symbols of a stored function: one at its first byte, and one of its own one byte
    further that spans its code. -/
def symbols (p : Placed) : List Symbol :=
  [⟨ofText "$t", p.offset, 0, .label, .compilation⟩,
    ⟨ofText p.function.name, p.offset + 1, p.size, .text, .linkage⟩]

end Placed

/-- A function is stored at its place: from a word boundary on, one half-word after the
    other, the low byte of each first. -/
structure Holds (bytes : List UInt8) (p : Placed) : Prop where
  aligned : 4 ∣ p.offset
  code : ∀ k hw, p.function.code[k]? = some hw →
    bytes[p.offset + 2 * k]? = some hw.toUInt8 ∧
      bytes[p.offset + 2 * k + 1]? = some (hw / 256).toUInt8

/-- Between two positions lies less than a word of zero bytes. -/
structure Pads (bytes : List UInt8) (start stop : Nat) : Prop where
  le : start ≤ stop
  lt : stop < start + 4
  zero : ∀ k, start ≤ k → k < stop → bytes[k]? = some 0

/-- First byte behind the first `i` functions. -/
def limitOf (placed : List Placed) : Nat → Nat
  | 0 => 0
  | i + 1 => (placed[i]?.map Placed.limit).getD 0

/-- The bytes hold functions at their places in order, with padding before each of them and
    nothing behind the last. -/
structure LaysOut (bytes : List UInt8) (placed : List Placed) : Prop where
  holds : ∀ p ∈ placed, Holds bytes p
  pads : ∀ (i : Nat) p, placed[i]? = some p → Pads bytes (limitOf placed i) p.offset
  limit : limitOf placed placed.length = bytes.length

theorem limitOf_succ {placed : List Placed} {i : Nat} {p : Placed} (h : placed[i]? = some p) :
    limitOf placed (i + 1) = p.limit := by
  rw [limitOf, h]
  rfl

section Append

variable {bytes : List UInt8} {placed : List Placed} {p : Placed} {more : List UInt8}

/-- Stored bytes stay where they are. -/
theorem getElem?_append_of_some {k : Nat} {b : UInt8} (h : bytes[k]? = some b) :
    (bytes ++ more)[k]? = some b := by
  obtain ⟨hk, -⟩ := List.getElem?_eq_some_iff.mp h
  rw [List.getElem?_append_left hk, h]

theorem Holds.append (h : Holds bytes p) : Holds (bytes ++ more) p where
  aligned := h.aligned
  code k hw hk :=
    ⟨getElem?_append_of_some (h.code k hw hk).1, getElem?_append_of_some (h.code k hw hk).2⟩

theorem Pads.append {start stop : Nat} (h : Pads bytes start stop) :
    Pads (bytes ++ more) start stop where
  le := h.le
  lt := h.lt
  zero k hstart hstop := getElem?_append_of_some (h.zero k hstart hstop)

theorem limitOf_append {i : Nat} (hi : i ≤ placed.length) :
    limitOf (placed ++ [p]) i = limitOf placed i := by
  cases i with
  | zero => rfl
  | succ i => rw [limitOf, limitOf, List.getElem?_append_left hi]

/-- A function of the longer list is one that was there or the new one. -/
theorem getElem?_append_singleton {i : Nat} {q : Placed} (h : (placed ++ [p])[i]? = some q) :
    (i < placed.length ∧ placed[i]? = some q) ∨ (i = placed.length ∧ q = p) := by
  rcases Nat.lt_trichotomy i placed.length with hi | rfl | hi
  · rw [List.getElem?_append_left hi] at h
    exact .inl ⟨hi, h⟩
  · rw [List.getElem?_concat_length] at h
    exact .inr ⟨rfl, (Option.some.inj h).symm⟩
  · rw [List.getElem?_eq_none (by simp only [List.length_append, List.length_singleton]; omega)] at h
    cases h

variable {zeros : Nat} (haligned : 4 ∣ bytes.length + zeros) (f : Function)

include haligned in
theorem holds_append : Holds (bytes ++ (List.replicate zeros 0 ++ ofHalfWords f.code))
    ⟨f, bytes.length + zeros⟩ where
  aligned := haligned
  code k hw hk := by
    have hcode : ∀ j, (bytes ++ (List.replicate zeros 0 ++ ofHalfWords f.code))[bytes.length +
        zeros + j]? = (ofHalfWords f.code)[j]? := by
      intro j
      rw [Nat.add_assoc, List.getElem?_append_right (Nat.le_add_right _ _),
        List.getElem?_append_right (by rw [List.length_replicate]; omega), List.length_replicate]
      congr 1
      omega
    show _[bytes.length + zeros + 2 * k]? = _ ∧ _[bytes.length + zeros + 2 * k + 1]? = _
    rw [Nat.add_assoc (_ + _) (2 * k), hcode, hcode]
    exact getElem?_ofHalfWords hk

theorem pads_append (hzeros : zeros < 4) (more : List UInt8) :
    Pads (bytes ++ (List.replicate zeros 0 ++ more)) bytes.length (bytes.length + zeros) where
  le := Nat.le_add_right _ _
  lt := Nat.add_lt_add_left hzeros _
  zero k hstart hstop := by
    rw [List.getElem?_append_right hstart,
      List.getElem?_append_left (by rw [List.length_replicate]; omega),
      List.getElem?_replicate_of_lt (by omega)]

/-- Storing one more function keeps the others as they are. -/
theorem LaysOut.append (h : LaysOut bytes placed) (hzeros : zeros < 4)
    (haligned : 4 ∣ bytes.length + zeros) (f : Function) :
    LaysOut (bytes ++ (List.replicate zeros 0 ++ ofHalfWords f.code))
      (placed ++ [⟨f, bytes.length + zeros⟩]) where
  holds p hp := by
    rcases List.mem_append.mp hp with hp | hp
    · exact (h.holds p hp).append
    · rw [List.mem_singleton.mp hp]
      exact holds_append haligned f
  pads i p hp := by
    rcases getElem?_append_singleton hp with ⟨hi, hp⟩ | ⟨rfl, rfl⟩
    · rw [limitOf_append hi.le]
      exact (h.pads i p hp).append
    · rw [limitOf_append le_rfl, h.limit]
      exact pads_append hzeros _
  limit := by
    rw [List.length_append, List.length_singleton,
      limitOf_succ (List.getElem?_concat_length ..), List.length_append, List.length_append,
      List.length_replicate, length_ofHalfWords]
    exact Nat.add_assoc ..

end Append

theorem laysOut_nil : LaysOut [] [] where
  holds _ h := absurd h List.not_mem_nil
  pads _ _ h := by cases h
  limit := rfl

/-! ## Order -/

section Order

variable {bytes : List UInt8} {placed : List Placed} (h : LaysOut bytes placed)

include h

/-- What is stored later lies behind what is stored earlier. -/
theorem LaysOut.limitOf_le_offset {i j : Nat} {p : Placed} (hij : i ≤ j)
    (hp : placed[j]? = some p) : limitOf placed i ≤ p.offset := by
  -- from one function to the next; between two of them lies padding only
  induction j generalizing p with
  | zero =>
    obtain rfl := Nat.le_zero.mp hij
    exact (h.pads 0 p hp).le
  | succ j ih =>
    rcases Nat.lt_or_eq_of_le hij with hij | rfl
    · obtain ⟨hj, -⟩ := List.getElem?_eq_some_iff.mp hp
      obtain ⟨q, hq⟩ : ∃ q, placed[j]? = some q :=
        ⟨_, List.getElem?_eq_getElem (by omega)⟩
      have hpads := (h.pads (j + 1) p hp).le
      rw [limitOf_succ hq] at hpads
      have hbefore := ih (Nat.lt_succ_iff.mp hij) hq
      have hsize : q.offset ≤ q.limit := Nat.le_add_right _ _
      omega
    · exact (h.pads (j + 1) p hp).le

/-- Functions do not overlap and keep their order. -/
theorem LaysOut.limit_le {i j : Nat} {p q : Placed} (hij : i < j) (hp : placed[i]? = some p)
    (hq : placed[j]? = some q) : p.limit ≤ q.offset := by
  rw [← limitOf_succ hp]
  exact h.limitOf_le_offset hij hq

end Order

/-! ## Drafts -/

/-- A draft holds functions at their places, with the symbols of each. -/
structure Draft.Stored {F : Format} (d : Draft F) (placed : List Placed) : Prop where
  laysOut : LaysOut (F.bytes d.text) placed
  symbols : d.symbols = placed.flatMap Placed.symbols

section Draft

variable {F : Format} (happends : F.Appends)

include happends

theorem Format.Appends.stored_empty : (Draft.empty : Draft F).Stored [] where
  laysOut := by
    show LaysOut (F.bytes F.empty) []
    rw [happends.empty]
    exact laysOut_nil
  symbols := rfl

theorem Draft.Stored.exists_addFunction {d : Draft F} {placed : List Placed}
    (h : d.Stored placed) (f : Function) :
    ∃ offset, (d.addFunction f).Stored (placed ++ [⟨f, offset⟩]) := by
  obtain ⟨zeros, hzeros, haligned, hoffset, hbytes⟩ :=
    happends.append d.text (ofHalfWords f.code) functionAlignment ⟨2, rfl⟩
  refine ⟨(F.bytes d.text).length + zeros, ?_, ?_⟩
  · show LaysOut (F.bytes (F.append d.text (ofHalfWords f.code) functionAlignment).1) _
    rw [hbytes]
    exact h.laysOut.append hzeros haligned f
  · -- the offset is a multiple of four, so its lowest bit is free
    have hthumb : (F.bytes d.text).length + zeros ||| 1 = (F.bytes d.text).length + zeros + 1 := by
      obtain ⟨words, hwords⟩ := haligned
      rw [hwords]
      exact (Nat.two_pow_add_eq_or_of_lt (i := 2) (by decide : 1 < 2 ^ 2) words).symm
    simp only [addFunction, addSymbol, hoffset, Symbol.mapping, Symbol.function, hthumb,
      length_ofHalfWords, h.symbols, List.flatMap_append, List.flatMap_singleton, Placed.symbols,
      Placed.size, List.append_assoc, List.cons_append, List.nil_append]

theorem Draft.Stored.exists_foldl {d : Draft F} {placed : List Placed} (h : d.Stored placed)
    (fs : List Function) :
    ∃ placed', placed'.map Placed.function = placed.map Placed.function ++ fs ∧
      (fs.foldl Draft.addFunction d).Stored placed' := by
  induction fs generalizing d placed with
  | nil => exact ⟨placed, (List.append_nil _).symm, h⟩
  | cons f fs ih =>
    obtain ⟨offset, hone⟩ := h.exists_addFunction happends f
    obtain ⟨placed', hmap, hall⟩ := ih hone
    refine ⟨placed', ?_, hall⟩
    rw [hmap, List.map_append, List.append_assoc]
    rfl

theorem Format.Appends.exists_stored (fs : List Function) :
    ∃ placed, placed.map Placed.function = fs ∧ (Draft.ofFunctions fs : Draft F).Stored placed :=
  happends.stored_empty.exists_foldl happends fs

end Draft

/-- With any format that appends and stores what it is given, each function of a list is
    stored at a word boundary and in the order of the list, with less than a word of zero
    bytes before it and nothing behind the last, and its two symbols give its place.  That is
    what a reader finds in the file. -/
theorem Format.ofFunctions_lays_out {F : Format} {R : Reader}
    {storable : F.Text → List Symbol → Prop} (happends : F.Appends)
    (hstores : F.Stores R storable) (fs : List Function) :
    ∃ (text : List UInt8) (placed : List Placed), placed.map Placed.function = fs ∧
      LaysOut text placed ∧
      (∀ (i j : Nat) p q, i < j → placed[i]? = some p → placed[j]? = some q →
        p.offset + p.size ≤ q.offset) ∧
      let d : Draft F := .ofFunctions fs
      F.bytes d.text = text ∧ d.symbols = placed.flatMap Placed.symbols ∧
      (storable d.text d.symbols → ∃ file, F.ofFunctions fs = .ok file ∧
        R.text? file = some text ∧ (R.symbols file).Perm (placed.flatMap Placed.symbols)) := by
  obtain ⟨placed, hmap, hstored⟩ := happends.exists_stored fs
  refine ⟨_, placed, hmap, hstored.laysOut,
    fun i j p q hij hp hq => hstored.laysOut.limit_le hij hp hq, rfl, hstored.symbols,
    fun hstorable => ?_⟩
  rw [← hstored.symbols]
  exact hstores _ _ _ hstorable

/-- An ELF file holds an empty function, one of half a word and one of a word. -/
theorem Format.ofFunctions_lays_out_elf :
    let fs : List Function := [⟨"none", []⟩, ⟨"ret", [0x4770]⟩, ⟨"wide", [0xEB00, 0x0001]⟩]
    ∃ file text placed, Elf.ofFunctions fs = .ok file ∧ Elf.reader.text? file = some text ∧
      (Elf.reader.symbols file).Perm (placed.flatMap Placed.symbols) ∧
      placed.map Placed.function = fs ∧ LaysOut text placed := by
  obtain ⟨text, placed, hmap, hlays, -, -, -, hfile⟩ := Format.ofFunctions_lays_out
    Elf.appends Elf.stores [⟨"none", []⟩, ⟨"ret", [0x4770]⟩, ⟨"wide", [0xEB00, 0x0001]⟩]
  obtain ⟨file, hwrite, htext, hsymbols⟩ := hfile ⟨by decide, by cbv⟩
  exact ⟨file, text, placed, hwrite, htext, hsymbols, hmap, hlays⟩

end Object

end HeliumKernels
