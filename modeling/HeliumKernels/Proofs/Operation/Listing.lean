/-
  HeliumKernels.Proofs.Operation.Listing

  Listings lose nothing.  What a printed listing shows is read back from its
  columns: the half-words of the lines, one line after the other, are the
  code, each line gives the number of bytes before it, and it shows the
  instruction that starts there or why none does.  A listing fails to be
  printed exactly if one of its lines holds an empty range of double
  registers from the first one on, which has no last register to name.
-/
import HeliumKernels.Operation.Listing
import HeliumKernels.Proofs.Encoding.Operand

namespace HeliumKernels

/-! ## Reading numerals -/

namespace Numeral

/-- Value of a hexadecimal digit. -/
def hexDigit (c : Char) : Nat :=
  if c.isDigit then c.toNat - '0'.toNat else c.toNat - 'a'.toNat + 10

/-- Number with the given hexadecimal digits. -/
def ofHex (digits : List Char) : Nat :=
  digits.foldl (fun n c => 16 * n + hexDigit c) 0

theorem hexDigit_digitChar {d : Nat} (h : d < 16) : hexDigit d.digitChar = d := by
  have hall : ∀ d < 16, hexDigit d.digitChar = d := by decide
  exact hall d h

theorem toDigits_sixteen {n : Nat} (h : 16 ≤ n) :
    Nat.toDigits 16 n = Nat.toDigits 16 (n / 16) ++ [(n % 16).digitChar] := by
  have hsplit := Nat.toDigits_append_toDigits (b := 16) (n := n / 16) (d := n % 16) (by decide)
    (by omega) (by omega)
  rw [Nat.div_add_mod] at hsplit
  rw [← hsplit, Nat.toDigits_of_lt_base (Nat.mod_lt n (by decide))]

/-- The digits of a number are those it is read from. -/
theorem ofHex_toDigits (n : Nat) : ofHex (Nat.toDigits 16 n) = n := by
  induction n using Nat.strongRecOn with
  | ind n ih =>
    by_cases hn : n < 16
    · rw [Nat.toDigits_of_lt_base hn, ofHex, List.foldl_cons, List.foldl_nil, hexDigit_digitChar hn]
      omega
    · have hlead := ih (n / 16) (by omega)
      rw [ofHex] at hlead ⊢
      rw [toDigits_sixteen (by omega), List.foldl_append, hlead, List.foldl_cons, List.foldl_nil,
        hexDigit_digitChar (by omega)]
      omega

theorem ofHex_leftpad (width : Nat) (digits : List Char) :
    ofHex (digits.leftpad width '0') = ofHex digits := by
  rw [List.leftpad, ofHex, List.foldl_append]
  generalize width - digits.length = zeros
  induction zeros with
  | zero => rfl
  | succ zeros ih => exact ih

/-- A digit is no blank. -/
theorem ne_blank_of_mem_toDigits {n : Nat} {c : Char} (h : c ∈ Nat.toDigits 16 n) : c ≠ ' ' := by
  induction n using Nat.strongRecOn with
  | ind n ih =>
    have hdigit : ∀ d < 16, d.digitChar ≠ ' ' := by decide
    by_cases hn : n < 16
    · rw [Nat.toDigits_of_lt_base hn, List.mem_singleton] at h
      exact h ▸ hdigit n hn
    · rw [toDigits_sixteen (by omega), List.mem_append, List.mem_singleton] at h
      rcases h with h | rfl
      · exact ih (n / 16) (by omega) h
      · exact hdigit _ (Nat.mod_lt n (by decide))

/-- The four digits of a half-word. -/
def digits (hw : UInt16) : List Char :=
  (Nat.toDigits 16 hw.toNat).leftpad 4 '0'

theorem length_digits (hw : UInt16) : (digits hw).length = 4 := by
  have hlt : hw.toNat < 16 ^ 4 := hw.toNat_lt
  have hle := (Nat.length_toDigits_le_iff (b := 16) (by decide) (by decide : 0 < 4)).mpr hlt
  rw [digits, List.leftpad, List.length_append, List.length_replicate]
  omega

theorem ofHex_digits (hw : UInt16) : UInt16.ofNat (ofHex (digits hw)) = hw := by
  rw [digits, ofHex_leftpad, ofHex_toDigits, UInt16.ofNat_toNat]

theorem ne_blank_of_mem_digits {hw : UInt16} {c : Char} (h : c ∈ digits hw) : c ≠ ' ' := by
  rw [digits, List.leftpad, List.mem_append] at h
  rcases h with h | h
  · rw [List.eq_of_mem_replicate h]
    decide
  · exact ne_blank_of_mem_toDigits h

theorem toList_halfWords_one (hw : UInt16) : (halfWords [hw]).toList = digits hw := by
  simp [halfWords, hex, digits]

theorem toList_halfWords_two (hw1 hw2 : UInt16) :
    (halfWords [hw1, hw2]).toList = digits hw1 ++ ' ' :: digits hw2 := by
  simp [halfWords, hex, digits]

end Numeral

/-! ## Ranges without a last register -/

namespace Operation

/-- Whether the operation names a range of double registers. -/
def isRange : Operation → Bool
  | vpush .. | vpop .. => true
  | _ => false

/-- An operation has a text unless it is an empty range from the first register on. -/
theorem text_eq_error_iff {op : Operation} {e : Trap} :
    op.text = .error e ↔ (op = .vpush 0 0 ∨ op = .vpop 0 0) ∧ e = .overflow := by
  have hrange : ∀ first count : Nat, rangeText first count = .error e ↔
      (first = 0 ∧ count = 0) ∧ e = .overflow := by
    intro first count
    simp only [rangeText, Checked.sub]
    split
    · simp only [bind, Except.bind, pure, Except.pure, reduceCtorEq, false_iff]
      omega
    · simp only [bind, Except.bind, Except.error.injEq]
      constructor
      · rintro rfl
        exact ⟨by omega, rfl⟩
      · rintro ⟨-, rfl⟩
        rfl
  cases op with
  | vpush first count | vpop first count =>
    simp only [text, bind_eq_error, hrange, pure, Except.pure, reduceCtorEq, and_false, exists_false,
      or_false, Operation.vpush.injEq, Operation.vpop.injEq, false_or]
  | loopStart rn tail exit => cases exit <;> simp [text]
  | loopEnd back tailPredicated => cases tailPredicated <;> simp [text]
  | vecMem access => cases access <;> simp [text]
  | _ => simp [text]

end Operation

namespace Decode

open HalfWord Operation

section Ranges

variable {hw hw1 hw2 : UInt16} {op : Operation}

/-! Only two patterns read as a range. -/

theorem isRange_narrow? (hw : UInt16) : (narrow? hw).any isRange = false := by
  unfold narrow?
  cases branchCondition? (field hw 8 4) <;>
  · simp only []
    repeat' split
    all_goals rfl

theorem isRange_vecMem? (hw1 hw2 : UInt16) : (vecMem? hw1 hw2).any isRange = false := by
  unfold vecMem?
  repeat' split
  all_goals rfl

theorem isRange_vmovImm? (hw1 hw2 : UInt16) : (vmovImm? hw1 hw2).any isRange = false := by
  unfold vmovImm?
  simp only []
  split <;> rfl

theorem isRange_vpst? (hw1 hw2 : UInt16) : (vpst? hw1 hw2).any isRange = false := by
  unfold vpst?
  split <;> rfl

theorem isRange_shiftedRegister? (hw1 hw2 : UInt16) :
    (shiftedRegister? hw1 hw2).any isRange = false := by
  unfold shiftedRegister?
  simp only []
  repeat' split
  all_goals rfl

theorem isRange_load? (rn : Reg) (hw2 : UInt16) : (load? rn hw2).any isRange = false := by
  unfold load?
  simp only []
  repeat' split
  all_goals rfl

theorem isRange_immediate? (hw1 hw2 : UInt16) : (immediate? hw1 hw2).any isRange = false := by
  unfold immediate?
  simp only []
  repeat' split
  all_goals rfl

theorem isRange_loop? (hw1 hw2 : UInt16) : (loop? hw1 hw2).any isRange = false := by
  unfold loop?
  simp only []
  repeat' split
  all_goals rfl

theorem isRange_branch? (hw1 hw2 : UInt16) : (branch? hw1 hw2).any isRange = false := by
  unfold branch?
  cases branchCondition? (field hw1 6 4) <;>
  · simp only []
    split <;> rfl

theorem isRange_wide30? (hw1 hw2 : UInt16) : (wide30? hw1 hw2).any isRange = false := by
  unfold wide30?
  split
  · rfl
  split
  · exact isRange_immediate? hw1 hw2
  split
  · split
    · exact isRange_loop? hw1 hw2
    · rfl
  · exact isRange_branch? hw1 hw2

theorem isRange_wide31? (hw1 hw2 : UInt16) : (wide31? hw1 hw2).any isRange = false := by
  unfold wide31?
  simp only []
  split
  · exact isRange_vmovImm? hw1 hw2
  split
  · exact isRange_vpst? hw1 hw2
  split
  · rfl
  split
  · rfl
  split
  · exact isRange_load? _ hw2
  · rfl

theorem not_isRange_of_any {x : Option Operation} (hx : x.any isRange = false)
    (h : x = some op) : op.isRange = false := by
  rwa [h] at hx

/-- The fields of a half-word pair that reads as a range, and what it reads as. -/
theorem wide?_eq_range (h : wide? hw1 hw2 = some op) (hop : op.isRange = true) :
    (field hw1 7 9 = 0x1DA ∧ field hw1 0 6 = 0x2D ∧ field hw2 8 4 = 0xB ∧
      op = .vpush (field hw1 6 1 * 16 + field hw2 12 4) (field hw2 0 8 / 2)) ∨
    (field hw1 7 9 = 0x1D9 ∧ field hw1 0 6 = 0x3D ∧ field hw2 8 4 = 0xB ∧
      op = .vpop (field hw1 6 1 * 16 + field hw2 12 4) (field hw2 0 8 / 2)) := by
  have hnot : ∀ {x : Option Operation}, x.any isRange = false → x ≠ some op := by
    intro x hx h
    exact Bool.false_ne_true ((not_isRange_of_any hx h).symm.trans hop)
  unfold wide? at h
  split at h
  · -- the patterns of `wide29?` one after the other
    rcases ite_eq_iff.mp h with ⟨-, h⟩ | ⟨-, h⟩
    · exact absurd h (hnot rfl)
    rcases ite_eq_iff.mp h with ⟨-, h⟩ | ⟨-, h⟩
    · exact absurd h (hnot rfl)
    rcases ite_eq_iff.mp h with ⟨hpush, h⟩ | ⟨-, h⟩
    · exact .inl ⟨hpush.1, hpush.2.1, hpush.2.2, (Option.some.inj h).symm⟩
    rcases ite_eq_iff.mp h with ⟨hpop, h⟩ | ⟨-, h⟩
    · exact .inr ⟨hpop.1, hpop.2.1, hpop.2.2, (Option.some.inj h).symm⟩
    rcases ite_eq_iff.mp h with ⟨-, h⟩ | ⟨-, h⟩
    · exact absurd h (hnot (isRange_vecMem? hw1 hw2))
    rcases ite_eq_iff.mp h with ⟨-, h⟩ | ⟨-, h⟩
    · exact absurd h (hnot rfl)
    rcases ite_eq_iff.mp h with ⟨-, h⟩ | ⟨-, h⟩
    · exact absurd h (hnot rfl)
    rcases ite_eq_iff.mp h with ⟨-, h⟩ | ⟨-, h⟩
    · exact absurd h (hnot (isRange_vmovImm? hw1 hw2))
    rcases ite_eq_iff.mp h with ⟨-, h⟩ | ⟨-, h⟩
    · exact absurd h (hnot rfl)
    rcases ite_eq_iff.mp h with ⟨-, h⟩ | ⟨-, h⟩
    · exact absurd h (hnot (isRange_shiftedRegister? hw1 hw2))
    · cases h
  · exact absurd h (hnot (isRange_wide30? hw1 hw2))
  · exact absurd h (hnot (isRange_wide31? hw1 hw2))
  · cases h

/-- Pairs of half-words that read as an empty range from the first register on: a push or
    a pop, of which the lowest bit is ignored. -/
def emptyRanges : List (List UInt16) :=
  [[0xED2D, 0x0B00], [0xED2D, 0x0B01], [0xECBD, 0x0B00], [0xECBD, 0x0B01]]

theorem mem_emptyRanges_iff (h : wide? hw1 hw2 = some op) :
    [hw1, hw2] ∈ emptyRanges ↔ op = .vpush 0 0 ∨ op = .vpop 0 0 := by
  constructor
  · intro hmem
    simp only [emptyRanges, List.mem_cons, List.cons.injEq, and_true, List.not_mem_nil,
      or_false] at hmem
    rcases hmem with ⟨rfl, rfl⟩ | ⟨rfl, rfl⟩ | ⟨rfl, rfl⟩ | ⟨rfl, rfl⟩
    · exact .inl (Option.some.inj h).symm
    · exact .inl (Option.some.inj h).symm
    · exact .inr (Option.some.inj h).symm
    · exact .inr (Option.some.inj h).symm
  · intro hempty
    have hop : op.isRange = true := by rcases hempty with rfl | rfl <;> rfl
    have h1 := hw1.toNat_lt
    have h2 := hw2.toNat_lt
    have hhalf : (hw1 = 0xED2D ∨ hw1 = 0xECBD) ∧ (hw2 = 0x0B00 ∨ hw2 = 0x0B01) := by
      simp only [← UInt16.toNat_inj, UInt16.reduceToNat]
      rcases wide?_eq_range h hop with ⟨hhigh, hlow, hmark, rfl⟩ | ⟨hhigh, hlow, hmark, rfl⟩ <;>
        simp only [Operation.vpush.injEq, Operation.vpop.injEq, reduceCtorEq, or_false, false_or]
          at hempty <;>
        simp only [field_eq] at hhigh hlow hmark hempty <;>
        omega
    rcases hhalf with ⟨rfl | rfl, rfl | rfl⟩ <;> decide

end Ranges

end Decode

/-! ## Lines -/

namespace Listing

open Decode

/-- Lines cover code from a byte offset on: each shows the instruction that starts where
    the one before ends, or takes one half-word that starts none. -/
inductive Covers : Nat → List UInt16 → List Line → Prop where
  | nil {offset : Nat} : Covers offset [] []
  | narrow {offset : Nat} {hw : UInt16} {rest : List UInt16} {op : Operation}
      {lines : List Line} (hdecode : decode (hw :: rest) = .ok ⟨op, .narrow⟩)
      (hrest : Covers (offset + 2) rest lines) :
      Covers offset (hw :: rest) (⟨offset, [hw], .ok op⟩ :: lines)
  | wide {offset : Nat} {hw1 hw2 : UInt16} {rest : List UInt16} {op : Operation}
      {lines : List Line} (hdecode : decode (hw1 :: hw2 :: rest) = .ok ⟨op, .wide⟩)
      (hrest : Covers (offset + 4) rest lines) :
      Covers offset (hw1 :: hw2 :: rest) (⟨offset, [hw1, hw2], .ok op⟩ :: lines)
  | undefined {offset : Nat} {hw : UInt16} {rest : List UInt16} {e : DecodeError}
      {lines : List Line} (hdecode : decode (hw :: rest) = .error e)
      (hrest : Covers (offset + 2) rest lines) :
      Covers offset (hw :: rest) (⟨offset, [hw], .error e⟩ :: lines)

theorem width_of_single {hw : UInt16} {decoded : Decoded} (h : decode [hw] = .ok decoded) :
    decoded.width = .narrow := by
  simp only [decode, pair, List.getElem?_cons_zero] at h
  split at h
  · cases h
  · split at h
    · cases h
    · rw [← Except.ok.inj h]

theorem narrow?_of_decode {hw : UInt16} {rest : List UInt16} {op : Operation}
    (h : decode (hw :: rest) = .ok ⟨op, .narrow⟩) : narrow? hw = some op := by
  simp only [decode, pair, List.getElem?_cons_zero] at h
  split at h
  · split at h
    · cases h
    · split at h <;> cases h
  · split at h
    · cases h
    · next hop =>
      rw [hop]
      cases h
      rfl

theorem wide?_of_decode {hw1 hw2 : UInt16} {rest : List UInt16} {op : Operation}
    (h : decode (hw1 :: hw2 :: rest) = .ok ⟨op, .wide⟩) : wide? hw1 hw2 = some op := by
  simp only [decode, pair, List.getElem?_cons_zero, List.getElem?_cons_succ] at h
  split at h
  · split at h
    · cases h
    · next hop =>
      rw [hop]
      cases h
      rfl
  · split at h <;> cases h

theorem covers_linesFrom (offset : Nat) (code : List UInt16) :
    Covers offset code (linesFrom offset code) := by
  fun_induction linesFrom offset code with
  | case1 => exact .nil
  | case2 offset hw decoded h =>
    have hdecoded : decoded = ⟨decoded.op, .narrow⟩ := by rw [← width_of_single h]
    exact .narrow (h.trans (congrArg Except.ok hdecoded)) .nil
  | case3 offset hw e h => exact .undefined h .nil
  | case4 offset hw1 hw2 rest e h ih => exact .undefined h ih
  | case5 offset hw1 hw2 rest decoded h hwidth ih =>
    have hdecoded : decoded = ⟨decoded.op, .narrow⟩ := by rw [← hwidth]
    exact .narrow (h.trans (congrArg Except.ok hdecoded)) ih
  | case6 offset hw1 hw2 rest decoded h hwidth ih =>
    have hdecoded : decoded = ⟨decoded.op, .wide⟩ := by rw [← hwidth]
    exact .wide (h.trans (congrArg Except.ok hdecoded)) ih

/-! ## Printed lines -/

theorem Line.text_eq_ok_iff {line : Line} {s : String} :
    line.text = .ok s ↔ ∃ body, line.body = .ok body ∧ s = line.head ++ body := by
  rw [text, bind_eq_ok]
  exact exists_congr fun body => and_congr_right fun _ => pure_eq_ok.trans eq_comm

/-- The number that the columns before the colon show. -/
def printedOffset (s : String) : Nat :=
  Nat.ofDigitChars 10 ((s.toList.takeWhile (· != ':')).dropWhile (· == ' ')) 0

/-- The nine columns that show half-words. -/
def columns (s : String) : List Char :=
  ((s.toList.dropWhile (· != ':')).drop 2).take 9

/-- The half-words that they show: one, or two if the second place is not blank. -/
def printedRaw (s : String) : List UInt16 :=
  let first := UInt16.ofNat (Numeral.ofHex ((columns s).take 4))
  if (columns s).drop 5 = List.replicate 4 ' ' then [first]
  else [first, UInt16.ofNat (Numeral.ofHex ((columns s).drop 5))]

section Columns

variable {s : String} {line : Line} {body : String} {hw1 hw2 : UInt16}

/-- Decimal digits of the offset, right-aligned. -/
def offsetColumns (offset : Nat) : List Char :=
  (Nat.toDigits 10 offset).leftpad 5 ' '

theorem toList_head (line : Line) (body : String) :
    (line.head ++ body).toList = offsetColumns line.offset ++ ':' :: ' ' ::
      ((Numeral.halfWords line.raw).toList ++
        (List.replicate (9 - (Numeral.halfWords line.raw).length) ' ' ++
          ' ' :: ' ' :: body.toList)) := by
  simp [Line.head, offsetColumns, Numeral.aligned, toString]

theorem ne_colon_of_mem_offsetColumns {offset : Nat} {c : Char} (h : c ∈ offsetColumns offset) :
    (c != ':') = true := by
  rw [offsetColumns, List.leftpad, List.mem_append] at h
  rcases h with h | h
  · rw [List.eq_of_mem_replicate h]
    rfl
  · have hdigit := Nat.isDigit_of_mem_toDigits (by decide) (by decide) h
    rw [bne_iff_ne]
    rintro rfl
    cases hdigit

theorem printedOffset_head : printedOffset (line.head ++ body) = line.offset := by
  have hblank : (Nat.toDigits 10 line.offset).dropWhile (· == ' ') =
      Nat.toDigits 10 line.offset := by
    rw [List.dropWhile_eq_self_iff]
    intro hlen heq
    have hdigit := Nat.isDigit_of_mem_toDigits (b := 10) (by decide) (by decide)
      (List.getElem_mem hlen)
    rw [eq_of_beq heq] at hdigit
    cases hdigit
  rw [printedOffset, toList_head,
    List.takeWhile_append_of_pos fun c hc => ne_colon_of_mem_offsetColumns hc,
    List.takeWhile_cons_of_neg (by decide), List.append_nil, offsetColumns, List.leftpad,
    List.dropWhile_append_of_pos fun c hc => by rw [List.eq_of_mem_replicate hc]; rfl, hblank]
  exact Nat.ofDigitChars_ten_toDigits

theorem columns_head : columns (line.head ++ body) =
    ((Numeral.halfWords line.raw).toList ++
      (List.replicate (9 - (Numeral.halfWords line.raw).length) ' ' ++
        ' ' :: ' ' :: body.toList)).take 9 := by
  rw [columns, toList_head,
    List.dropWhile_append_of_pos fun c hc => ne_colon_of_mem_offsetColumns hc,
    List.dropWhile_cons_of_neg (by decide)]
  rfl

theorem printedRaw_eq {place : List Char} (h : columns s = Numeral.digits hw1 ++ ' ' :: place) :
    printedRaw s = if place = List.replicate 4 ' ' then [hw1]
      else [hw1, UInt16.ofNat (Numeral.ofHex place)] := by
  have htake : (columns s).take 4 = Numeral.digits hw1 := by
    rw [h, List.take_left' (Numeral.length_digits hw1)]
  have hdrop : (columns s).drop 5 = place := by
    rw [h, List.append_cons, List.drop_left' (by simp [Numeral.length_digits])]
  rw [printedRaw, htake, hdrop, Numeral.ofHex_digits]

theorem printedRaw_head_one (hraw : line.raw = [hw1]) :
    printedRaw (line.head ++ body) = line.raw := by
  have hcolumns : columns (line.head ++ body) =
      Numeral.digits hw1 ++ ' ' :: List.replicate 4 ' ' := by
    rw [columns_head, hraw, ← String.length_toList, Numeral.toList_halfWords_one,
      Numeral.length_digits, ← List.append_assoc, List.take_left' (by simp [Numeral.length_digits])]
    rfl
  rw [printedRaw_eq hcolumns, if_pos rfl, hraw]

theorem printedRaw_head_two (hraw : line.raw = [hw1, hw2]) :
    printedRaw (line.head ++ body) = line.raw := by
  have hcolumns : columns (line.head ++ body) =
      Numeral.digits hw1 ++ ' ' :: Numeral.digits hw2 := by
    rw [columns_head, hraw, Numeral.toList_halfWords_two,
      List.take_left' (by simp [Numeral.length_digits])]
  -- a digit is no blank, so the second place tells one half-word from two
  have hplace : Numeral.digits hw2 ≠ List.replicate 4 ' ' := by
    intro heq
    have hblank : ' ' ∈ Numeral.digits hw2 := heq ▸ List.mem_replicate.mpr ⟨by decide, rfl⟩
    exact Numeral.ne_blank_of_mem_digits hblank rfl
  rw [printedRaw_eq hcolumns, if_neg hplace, Numeral.ofHex_digits, hraw]

end Columns

/-! ## Printed listings -/

/-- A printed line shows what starts the given code: the instruction there, at its width,
    or the reason why the first half-word starts none. -/
def Shows (s : String) (code : List UInt16) : Prop :=
  (∃ decoded text head, decode code = .ok decoded ∧
    (printedRaw s).length = decoded.width.halfWords ∧
    decoded.op.text = .ok text ∧ s = head ++ text) ∨
  ∃ e head, decode code = .error e ∧ (printedRaw s).length = 1 ∧ s = head ++ s!"<{e.message}>"

/-- Printed lines list code from a byte offset on, and nothing of it is lost. -/
structure ListsFrom (offset : Nat) (code : List UInt16) (texts : List String) : Prop where
  /-- The printed half-words are the code. -/
  raw : texts.flatMap printedRaw = code
  /-- The printed offsets count the bytes before. -/
  offset : ∀ (i : Nat) s, texts[i]? = some s →
    printedOffset s = offset + 2 * ((texts.take i).flatMap printedRaw).length
  /-- Each line shows what starts there. -/
  content : ∀ (i : Nat) s, texts[i]? = some s →
    Shows s (code.drop ((texts.take i).flatMap printedRaw).length)

/-- A line whose half-words are printed in full goes before those of the code behind. -/
theorem ListsFrom.cons {code : List UInt16} {texts : List String} {line : Line} {body : String}
    (hraw : printedRaw (line.head ++ body) = line.raw)
    (hshows : Shows (line.head ++ body) (line.raw ++ code))
    (h : ListsFrom (line.offset + 2 * line.raw.length) code texts) :
    ListsFrom line.offset (line.raw ++ code) ((line.head ++ body) :: texts) where
  raw := by rw [List.flatMap_cons, h.raw, hraw]
  offset i t ht := by
    cases i with
    | zero =>
      obtain rfl := Option.some.inj ht
      exact printedOffset_head
    | succ i =>
      rw [List.getElem?_cons_succ] at ht
      rw [h.offset i t ht, List.take_succ_cons, List.flatMap_cons, List.length_append, hraw]
      omega
  content i t ht := by
    cases i with
    | zero =>
      obtain rfl := Option.some.inj ht
      exact hshows
    | succ i =>
      rw [List.getElem?_cons_succ] at ht
      rw [List.take_succ_cons, List.flatMap_cons, List.length_append, hraw, ← List.drop_drop,
        List.drop_left' rfl]
      exact h.content i t ht

/-- Lines are printed one by one. -/
theorem mapM_text_eq_ok_iff {lines : List Line} {texts : List String} :
    lines.mapM Line.text = .ok texts ↔
      List.Forall₂ (fun line s => line.text = .ok s) lines texts := by
  induction lines generalizing texts with
  | nil =>
    rw [List.mapM_nil, pure_eq_ok, List.forall₂_nil_left_iff]
    exact eq_comm
  | cons line lines ih =>
    rw [List.mapM_cons]
    simp only [bind_eq_ok, pure_eq_ok, ih, List.forall₂_cons_left_iff]
    constructor
    · rintro ⟨s, hs, texts, htexts, rfl⟩
      exact ⟨s, texts, hs, htexts, rfl⟩
    · rintro ⟨s, texts, hs, htexts, rfl⟩
      exact ⟨s, hs, texts, htexts, rfl⟩

/-- The printed texts of lines that cover code list it. -/
theorem Covers.listsFrom {offset : Nat} {code : List UInt16} {lines : List Line}
    {texts : List String} (h : Covers offset code lines)
    (htexts : List.Forall₂ (fun line s => line.text = .ok s) lines texts) :
    ListsFrom offset code texts := by
  -- line by line; the printed offset of each counts what the lines before it print
  induction h generalizing texts with
  | nil =>
    cases htexts
    refine ⟨rfl, ?_, ?_⟩ <;>
    · intro i s h
      cases h
  | @narrow offset hw rest op lines hdecode _ ih =>
    obtain ⟨s, texts, hs, hrest, rfl⟩ := List.forall₂_cons_left_iff.mp htexts
    obtain ⟨body, hbody, rfl⟩ := Line.text_eq_ok_iff.mp hs
    have hraw : printedRaw (Line.head ⟨offset, [hw], .ok op⟩ ++ body) = [hw] :=
      printedRaw_head_one rfl
    exact .cons hraw (.inl ⟨_, body, _, hdecode, congrArg List.length hraw, hbody, rfl⟩)
      (ih hrest)
  | @wide offset hw1 hw2 rest op lines hdecode _ ih =>
    obtain ⟨s, texts, hs, hrest, rfl⟩ := List.forall₂_cons_left_iff.mp htexts
    obtain ⟨body, hbody, rfl⟩ := Line.text_eq_ok_iff.mp hs
    have hraw : printedRaw (Line.head ⟨offset, [hw1, hw2], .ok op⟩ ++ body) = [hw1, hw2] :=
      printedRaw_head_two rfl
    exact .cons hraw (.inl ⟨_, body, _, hdecode, congrArg List.length hraw, hbody, rfl⟩)
      (ih hrest)
  | @undefined offset hw rest e lines hdecode _ ih =>
    obtain ⟨s, texts, hs, hrest, rfl⟩ := List.forall₂_cons_left_iff.mp htexts
    obtain ⟨body, hbody, rfl⟩ := Line.text_eq_ok_iff.mp hs
    have hraw : printedRaw (Line.head ⟨offset, [hw], .error e⟩ ++ body) = [hw] :=
      printedRaw_head_one rfl
    obtain rfl := Except.ok.inj hbody
    exact .cons hraw (.inr ⟨_, _, hdecode, congrArg List.length hraw, rfl⟩) (ih hrest)

/-! ## Lines without a text -/

theorem exists_text_iff {line : Line} :
    (∃ s, line.text = .ok s) ↔
      line.content ≠ .ok (.vpush 0 0) ∧ line.content ≠ .ok (.vpop 0 0) := by
  have hhead : (∃ s, line.text = .ok s) ↔ ∃ body, line.body = .ok body := by
    simp only [Line.text_eq_ok_iff]
    exact ⟨fun ⟨_, body, hbody, _⟩ => ⟨body, hbody⟩, fun ⟨body, hbody⟩ => ⟨_, body, hbody, rfl⟩⟩
  rw [hhead]
  obtain ⟨offset, raw, content⟩ := line
  cases content with
  | error e => simp [Line.body]
  | ok op =>
    simp only [Line.body, ne_eq, Except.ok.injEq]
    cases htext : op.text with
    | ok body =>
      refine iff_of_true ⟨body, rfl⟩ (not_or.mp fun hempty => ?_)
      have herror : op.text = .error .overflow := Operation.text_eq_error_iff.mpr ⟨hempty, rfl⟩
      rw [htext] at herror
      cases herror
    | error e =>
      refine iff_of_false (fun ⟨_, h⟩ => by cases h) fun hempty => ?_
      exact not_or.mpr hempty (Operation.text_eq_error_iff.mp htext).1

/-- The lines of a cover that have no text are those with an empty range. -/
theorem Covers.exists_text_iff {offset : Nat} {code : List UInt16} {lines : List Line}
    (h : Covers offset code lines) {line : Line} (hline : line ∈ lines) :
    (∃ s, line.text = .ok s) ↔ line.raw ∉ emptyRanges := by
  have hsingle : ∀ hw : UInt16, [hw] ∉ emptyRanges := by simp [emptyRanges]
  rw [Listing.exists_text_iff]
  induction h with
  | nil => cases hline
  | @narrow offset hw rest op lines hdecode _ ih =>
    rcases List.mem_cons.mp hline with rfl | hline
    · refine iff_of_true ?_ (hsingle hw)
      have hop : op.isRange = false :=
        not_isRange_of_any (isRange_narrow? hw) (narrow?_of_decode hdecode)
      constructor <;>
      · rintro ⟨⟩
        cases hop
    · exact ih hline
  | @wide offset hw1 hw2 rest op lines hdecode _ ih =>
    rcases List.mem_cons.mp hline with rfl | hline
    · rw [mem_emptyRanges_iff (wide?_of_decode hdecode), not_or]
      simp only [ne_eq, Except.ok.injEq]
    · exact ih hline
  | @undefined offset hw rest e lines hdecode _ ih =>
    rcases List.mem_cons.mp hline with rfl | hline
    · exact iff_of_true ⟨by rintro ⟨⟩, by rintro ⟨⟩⟩ (hsingle hw)
    · exact ih hline

theorem exists_forall₂_text_iff {lines : List Line} :
    (∃ texts, List.Forall₂ (fun line s => line.text = .ok s) lines texts) ↔
      ∀ line ∈ lines, ∃ s, line.text = .ok s := by
  induction lines with
  | nil => simp
  | cons line lines ih =>
    rw [List.forall_mem_cons, ← ih]
    constructor
    · rintro ⟨_, h⟩
      obtain ⟨s, texts, hs, htexts, -⟩ := List.forall₂_cons_left_iff.mp h
      exact ⟨⟨s, hs⟩, texts, htexts⟩
    · rintro ⟨⟨s, hs⟩, texts, htexts⟩
      exact ⟨s :: texts, .cons hs htexts⟩

/-- A printed listing gives back the code, the byte offsets and the instructions.  It is
    printed unless one of its lines holds an empty range from the first register on. -/
theorem texts_lists (code : List UInt16) :
    (∀ printed, texts code = .ok printed → ListsFrom 0 code printed) ∧
    ((∃ printed, texts code = .ok printed) ↔
      ∀ line ∈ lines code, line.raw ∉ emptyRanges) := by
  have hcovers : Covers 0 code (lines code) := covers_linesFrom 0 code
  constructor
  · intro printed h
    exact hcovers.listsFrom (mapM_text_eq_ok_iff.mp h)
  · simp only [texts, mapM_text_eq_ok_iff]
    rw [exists_forall₂_text_iff]
    exact forall₂_congr fun line hline => hcovers.exists_text_iff hline

/-- No listing is printed of a push of no registers. -/
theorem texts_empty_push : texts [0xED2D, 0x0B00, 0x4770] = .error .overflow := by
  rfl

end Listing

end HeliumKernels
