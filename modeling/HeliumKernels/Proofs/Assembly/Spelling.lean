/-
  HeliumKernels.Proofs.Assembly.Spelling

  Code as a sequence of words.  A buffer spells a list of words if the
  half-words up to its cursor are those of the words in order.  `wordAt`
  gives the word that starts at a half-word position and `replaceAt` puts
  another word of the same width there; appending and patching are these two
  operations.
-/
import HeliumKernels.Assembly.Buffer
import HeliumKernels.Proofs.Encoding.RoundTrip

namespace HeliumKernels

namespace Spelling

/-- Half-words of a list of words. -/
def halfWords (ws : List Word) : List UInt16 :=
  ws.flatMap Word.halfWords

/-- Number of half-words of a list of words. -/
def span : List Word → Nat
  | [] => 0
  | w :: ws => w.width.halfWords + span ws

/-- The word that starts at a half-word position. -/
def wordAt : List Word → Nat → Option Word
  | [], _ => none
  | w :: ws, p =>
    if p = 0 then some w
    else if p < w.width.halfWords then none
    else wordAt ws (p - w.width.halfWords)

/-- The list with another word in place of the one at a position. -/
def replaceAt : List Word → Nat → Word → List Word
  | [], _, _ => []
  | w :: ws, p, v =>
    if p < w.width.halfWords then v :: ws else w :: replaceAt ws (p - w.width.halfWords) v

theorem width_pos (w : Width) : 0 < w.halfWords := by
  cases w <;> decide

@[simp] theorem halfWords_cons (w : Word) (ws : List Word) :
    halfWords (w :: ws) = w.halfWords ++ halfWords ws := rfl

@[simp] theorem span_append (ws vs : List Word) : span (ws ++ vs) = span ws + span vs := by
  induction ws with
  | nil => simp [span]
  | cons w ws ih => simp only [List.cons_append, span, ih]; omega

theorem length_halfWords (ws : List Word) : (halfWords ws).length = span ws := by
  induction ws with
  | nil => rfl
  | cons w ws ih => simp [span, ih, Word.length_halfWords]

/-! ## Words at positions -/

variable {ws vs : List Word} {u v w : Word} {p q : Nat}

@[simp] theorem wordAt_zero (w : Word) (ws : List Word) : wordAt (w :: ws) 0 = some w := rfl

theorem wordAt_cons_of_le (h : w.width.halfWords ≤ p) :
    wordAt (w :: ws) p = wordAt ws (p - w.width.halfWords) := by
  have hpos := width_pos w.width
  rw [wordAt, if_neg (by omega), if_neg (by omega)]

/-- A word of a list is the first one, or stands in the rest. -/
theorem wordAt_cons_eq_some (h : wordAt (u :: ws) p = some w) :
    (p = 0 ∧ u = w) ∨
      (u.width.halfWords ≤ p ∧ wordAt ws (p - u.width.halfWords) = some w) := by
  rw [wordAt] at h
  split at h
  · exact .inl ⟨‹_›, Option.some.inj h⟩
  · split at h
    · -- no word starts inside the first one
      cases h
    · exact .inr ⟨by omega, h⟩

theorem replaceAt_zero (w : Word) (ws : List Word) (v : Word) :
    replaceAt (w :: ws) 0 v = v :: ws := by
  rw [replaceAt, if_pos (width_pos w.width)]

theorem replaceAt_cons_of_le (h : w.width.halfWords ≤ p) :
    replaceAt (w :: ws) p v = w :: replaceAt ws (p - w.width.halfWords) v := by
  rw [replaceAt, if_neg (by omega)]

theorem wordAt_append (h : wordAt ws p = some w) : wordAt (ws ++ vs) p = some w := by
  induction ws generalizing p with
  | nil => cases h
  | cons u ws ih =>
    rcases wordAt_cons_eq_some h with ⟨rfl, rfl⟩ | ⟨hle, h⟩
    · rfl
    · rw [List.cons_append, wordAt_cons_of_le hle, ih h]

theorem wordAt_span (ws : List Word) (w : Word) : wordAt (ws ++ [w]) (span ws) = some w := by
  induction ws with
  | nil => rfl
  | cons u ws ih =>
    rw [List.cons_append, span, wordAt_cons_of_le (Nat.le_add_right _ _), Nat.add_sub_cancel_left,
      ih]

/-- A word at a position lies within the list. -/
theorem add_le_span (h : wordAt ws p = some w) : p + w.width.halfWords ≤ span ws := by
  induction ws generalizing p with
  | nil => cases h
  | cons u ws ih =>
    rw [span]
    rcases wordAt_cons_eq_some h with ⟨rfl, rfl⟩ | ⟨hle, h⟩
    · omega
    · have := ih h
      omega

theorem lt_span (h : wordAt ws p = some w) : p < span ws := by
  have := add_le_span h
  have := width_pos w.width
  omega

/-- The half-words from a word's position on start with its own. -/
theorem drop_halfWords (h : wordAt ws p = some w) :
    ∃ rest, (halfWords ws).drop p = w.halfWords ++ rest := by
  induction ws generalizing p with
  | nil => cases h
  | cons u ws ih =>
    rcases wordAt_cons_eq_some h with ⟨rfl, rfl⟩ | ⟨hle, h⟩
    · exact ⟨halfWords ws, rfl⟩
    · obtain ⟨rest, hrest⟩ := ih h
      rw [← Word.length_halfWords] at hle hrest
      exact ⟨rest, by rw [halfWords_cons, List.drop_append, List.drop_eq_nil_of_le hle,
        List.nil_append, hrest]⟩

theorem wordAt_replaceAt_self (h : wordAt ws p = some u) :
    wordAt (replaceAt ws p v) p = some v := by
  induction ws generalizing p with
  | nil => cases h
  | cons w ws ih =>
    rcases wordAt_cons_eq_some h with ⟨rfl, -⟩ | ⟨hle, h⟩
    · rw [replaceAt_zero, wordAt_zero]
    · rw [replaceAt_cons_of_le hle, wordAt_cons_of_le hle, ih h]

theorem wordAt_replaceAt_of_ne (h : wordAt ws p = some u) (hwidth : u.width = v.width)
    (hne : q ≠ p) : wordAt (replaceAt ws p v) q = wordAt ws q := by
  induction ws generalizing p q with
  | nil => rfl
  | cons w ws ih =>
    rcases wordAt_cons_eq_some h with ⟨rfl, rfl⟩ | ⟨hle, h⟩
    · -- the new first word is as wide as the old one, so the rest stays in place
      rw [replaceAt_zero, wordAt, wordAt, if_neg hne, if_neg hne, hwidth]
    · rw [replaceAt_cons_of_le hle, wordAt, wordAt]
      split
      · rfl
      · split
        · rfl
        · exact ih h (by omega)

theorem span_replaceAt (h : wordAt ws p = some u) (hwidth : u.width = v.width) :
    span (replaceAt ws p v) = span ws := by
  induction ws generalizing p with
  | nil => rfl
  | cons w ws ih =>
    rcases wordAt_cons_eq_some h with ⟨rfl, rfl⟩ | ⟨hle, h⟩
    · rw [replaceAt_zero, span, span, hwidth]
    · rw [replaceAt_cons_of_le hle, span, span, ih h]

/-- Replacing a word overwrites its half-words. -/
theorem halfWords_replaceAt (h : wordAt ws p = some u) (hwidth : u.width = v.width) :
    halfWords (replaceAt ws p v) =
      (halfWords ws).take p ++ v.halfWords ++ (halfWords ws).drop (p + v.width.halfWords) := by
  induction ws generalizing p with
  | nil => cases h
  | cons w ws ih =>
    rcases wordAt_cons_eq_some h with ⟨rfl, rfl⟩ | ⟨hle, h⟩
    · rw [replaceAt_zero, halfWords_cons, halfWords_cons, List.take_zero, List.nil_append,
        Nat.zero_add, ← hwidth, ← Word.length_halfWords, List.drop_left]
    · -- the first word lies before both cuts, which move by its width
      have hcut : w.halfWords.length ≤ p := by rw [Word.length_halfWords]; exact hle
      have hcut' : w.halfWords.length ≤ p + v.width.halfWords := by omega
      rw [replaceAt_cons_of_le hle, halfWords_cons, halfWords_cons, ih h, List.take_append,
        List.drop_append, List.take_of_length_le hcut, List.drop_eq_nil_of_le hcut',
        Word.length_halfWords, List.nil_append]
      simp only [List.append_assoc]
      congr 4
      omega

end Spelling

/-! ## Reading code -/

theorem decodeAt_eq_decode (code : Array UInt16) (p : Nat) :
    decodeAt code p = decode (code.toList.drop p) := by
  simp [decodeAt, decode]

/-- Whether code spells a list of words. -/
def Spells (code : Array UInt16) (ws : List Word) : Prop :=
  code.toList = Spelling.halfWords ws

theorem Spells.decodeAt_eq {code : Array UInt16} {ws : List Word} {p : Nat} {word : Word}
    {op : Operation} (h : Spells code ws) (hword : Spelling.wordAt ws p = some word)
    (hread : word.reading = some op) : decodeAt code p = .ok ⟨op, word.width⟩ := by
  obtain ⟨rest, hrest⟩ := Spelling.drop_halfWords hword
  rw [decodeAt_eq_decode, h, hrest]
  exact Word.decode_halfWords hread rest

/-! ## Writing code -/

namespace Buffer

theorem toList_put {words : Array UInt16} {p : Nat} {hw : UInt16} (h : p ≤ words.size) :
    (put words p hw).toList = words.toList.take p ++ hw :: words.toList.drop (p + 1) := by
  unfold put
  split
  · rename_i hlt
    rw [Array.toList_set, List.set_eq_take_append_cons_drop, if_pos (by simpa using hlt)]
  · have hp : p = words.toList.length := by rw [Array.length_toList]; omega
    rw [Array.toList_push, hp, List.take_length, List.drop_eq_nil_of_le (by omega)]

/-- Storing overwrites half-words in a row, or goes on behind the last one. -/
theorem toList_store {words : Array UInt16} {p : Nat} {hws : List UInt16} (h : p ≤ words.size) :
    (store words p hws).toList =
      words.toList.take p ++ hws ++ words.toList.drop (p + hws.length) := by
  induction hws generalizing words p with
  | nil => simp [store]
  | cons hw hws ih =>
    -- writing the first half-word keeps what is before it and what is behind it
    have hput : (put words p hw).toList =
        (words.toList.take p ++ [hw]) ++ words.toList.drop (p + 1) := by
      rw [toList_put h, List.append_assoc, List.singleton_append]
    have hlen : (words.toList.take p ++ [hw]).length = p + 1 := by
      simp [Nat.min_eq_left h]
    have hsize : p + 1 ≤ (put words p hw).size := by
      rw [← Array.length_toList, hput, List.length_append, hlen]
      omega
    have hdrop : (words.toList.take p ++ [hw] ++ words.toList.drop (p + 1)).drop
        (p + 1 + hws.length) = words.toList.drop (p + (hws.length + 1)) := by
      rw [← hlen, List.drop_length_add_append, List.drop_drop]
      congr 1
      omega
    rw [store, ih hsize, hput, List.take_left' hlen, hdrop]
    simp only [List.append_assoc, List.cons_append, List.nil_append, List.length_cons]

/-- What a buffer spells up to its cursor. -/
structure Holds (b : Buffer) (ws : List Word) : Prop where
  span_eq : Spelling.span ws = b.cursor
  take_eq : b.words.toList.take b.cursor = Spelling.halfWords ws

variable {b : Buffer} {ws : List Word} {word : Word}

theorem Holds.cursor_le (h : b.Holds ws) : b.cursor ≤ b.words.size := by
  have hlen := congrArg List.length h.take_eq
  rw [Spelling.length_halfWords, h.span_eq, List.length_take, Array.length_toList] at hlen
  omega

theorem Holds.spells (h : b.Holds ws) : Spells b.code ws := by
  unfold Spells code
  rw [Array.toList_extract, List.extract_eq_take_drop, Nat.sub_zero, List.drop_zero, h.take_eq]

theorem Holds.size_code (h : b.Holds ws) : b.code.size = b.cursor := by
  rw [← Array.length_toList, h.spells, Spelling.length_halfWords, h.span_eq]

theorem holds_reset (b : Buffer) : b.reset.Holds [] := ⟨rfl, rfl⟩

/-- Storing a word at the cursor and moving the cursor behind it. -/
theorem Holds.append (h : b.Holds ws) :
    Holds { b with
      words := store b.words b.cursor word.halfWords
      cursor := b.cursor + word.width.halfWords } (ws ++ [word]) := by
  constructor
  · simp [Spelling.span, h.span_eq]
  · have hlen : (b.words.toList.take b.cursor ++ word.halfWords).length =
        b.cursor + word.width.halfWords := by
      simp [Nat.min_eq_left h.cursor_le, Word.length_halfWords]
    show List.take (b.cursor + word.width.halfWords) (store _ _ _).toList = _
    rw [toList_store h.cursor_le, List.take_left' hlen, h.take_eq]
    simp [Spelling.halfWords]

/-- Storing a word over one of the same width. -/
theorem Holds.replace {p : Nat} {u : Word} (h : b.Holds ws) (hat : Spelling.wordAt ws p = some u)
    (hwidth : u.width = word.width) :
    Holds { b with words := store b.words p word.halfWords } (Spelling.replaceAt ws p word) := by
  have hle := Spelling.add_le_span hat
  have hcursor := h.cursor_le
  rw [h.span_eq, hwidth] at hle
  constructor
  · rw [Spelling.span_replaceAt hat hwidth, h.span_eq]
  · show List.take b.cursor (store _ _ _).toList = _
    have hlen : (b.words.toList.take p ++ word.halfWords).length = p + word.width.halfWords := by
      simp [Nat.min_eq_left (by omega : p ≤ b.words.size), Word.length_halfWords]
    -- the cursor lies behind the word, so the cut at the cursor leaves the word whole
    have htail : b.cursor = (b.words.toList.take p ++ word.halfWords).length +
        (b.cursor - (p + word.width.halfWords)) := by omega
    rw [toList_store (by omega), Spelling.halfWords_replaceAt hat hwidth, ← h.take_eq, htail,
      List.take_length_add_append, ← htail, List.take_take, Nat.min_eq_left (by omega),
      List.drop_take, Word.length_halfWords]

end Buffer

end HeliumKernels
