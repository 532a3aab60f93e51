/-
  HeliumKernels.Proofs.Assembly.Ledger

  The code is a stream of whole instructions.  A ledger is kept beside a run:
  an appended record enters it at the cursor, and a record that is assembled
  into a reserved slot replaces the operation entered there.  The listing of
  the code is the ledger, line by line, at every point of a kernel.
-/
import HeliumKernels.Operation.Listing
import HeliumKernels.Proofs.Assembly.Capacity

namespace HeliumKernels

open Spelling

/-! ## Ledgers -/

/-- An instruction of the code: where it starts, its width and its operation. -/
structure Entry where
  position : Nat
  width : Width
  op : Operation
deriving DecidableEq, Repr

namespace Entry

/-- The entry with another operation, if it stands at the given position. -/
def fill (position : Nat) (op : Operation) (e : Entry) : Entry :=
  if e.position = position then { e with op } else e

/-- The line of a listing that shows the entry. -/
def line (code : Array UInt16) (e : Entry) : Listing.Line where
  offset := 2 * e.position
  raw := (code.extract e.position (e.position + e.width.halfWords)).toList
  content := .ok e.op

theorem fill_of_ne {position : Nat} {op : Operation} {e : Entry} (h : e.position ≠ position) :
    e.fill position op = e :=
  if_neg h

theorem map_fill_eq_self {position : Nat} {op : Operation} {entries : List Entry}
    (h : ∀ e ∈ entries, e.position ≠ position) : entries.map (fill position op) = entries :=
  calc entries.map (fill position op)
    _ = entries.map id := List.map_congr_left fun e he => fill_of_ne (h e he)
    _ = entries := List.map_id entries

end Entry

/-- What stands in the code for a record: a no-op if it does not assemble. -/
def Instruction.standing (i : Instruction) : Operation :=
  match i.assemble with
  | .ok _ => i.meaning
  | .error _ => .nop

namespace Assembler

/-- The record that a directive appends at the cursor. -/
def appended? (a : Assembler) (d : Directive) : Option Instruction :=
  match d with
  | .emit i | .target _ i => some i
  | .reserve _ width => some (.nop width)
  | .branchTo .. | .loopEnd .. => (a.jump? d).map Jump.instruction
  | _ => none

/-- The slot that a directive fills, and the record that goes in. -/
def filled? (a : Assembler) : Directive → Option (Slot × Instruction)
  | .bind label fixup =>
    (a.slots.lookup label).map fun slot => (slot, fixup.fill (gap slot.position a.buffer.cursor))
  | .patch label i => (a.slots.lookup label).map fun slot => (slot, i)
  | _ => none

/-- The ledger after a directive that leads from `a` to `a'`. -/
def enter (a a' : Assembler) (entries : List Entry) (d : Directive) : List Entry :=
  match a.appended? d, a.filled? d with
  | some i, _ =>
    if a.buffer.cursor < a'.buffer.cursor then
      entries ++ [⟨a.buffer.cursor, i.width, i.standing⟩]
    else entries
  | none, some (slot, i) =>
    if i.width = slot.width ∧ i.assemble.isOk = true then
      entries.map (Entry.fill slot.position i.meaning)
    else entries
  | none, none => entries

/-- The ledger of a run. -/
def ledger (a : Assembler) (entries : List Entry) : Script → List Entry
  | [] => entries
  | d :: rest =>
    match a.step d with
    | .ok a' => a'.ledger (a.enter a' entries d) rest
    | .error _ => entries

end Assembler

/-! ## Words of a ledger -/

namespace Instruction

variable {i : Instruction}

theorem encode_of_ok {word : Word} (h : i.assemble = .ok word) : i.encode = word := by
  rw [encode, h]

theorem encode_of_error {e : EncodingError} (h : i.assemble = .error e) :
    i.encode = .nop i.width := by
  rw [encode, h]

theorem width_encode (i : Instruction) : i.encode.width = i.width := by
  cases h : i.assemble with
  | ok word => rw [encode_of_ok h, (roundTrips_of_assemble h).width_eq]
  | error e => rw [encode_of_error h, Word.width_nop]

theorem reading_encode (i : Instruction) : i.encode.reading = some i.standing := by
  cases h : i.assemble with
  | ok word =>
    rw [encode_of_ok h, (roundTrips_of_assemble h).reading_eq, standing, h]
  | error e =>
    rw [encode_of_error h, reading_nop, standing, h]

theorem standing_of_isOk (h : i.assemble.isOk = true) : i.standing = i.meaning := by
  cases hword : i.assemble with
  | ok word => rw [standing, hword]
  | error e =>
    rw [hword] at h
    cases h

end Instruction

/-- A word that has a reading is one line of a listing. -/
theorem Word.linesFrom_halfWords {word : Word} {op : Operation} (h : word.reading = some op)
    (offset : Nat) (rest : List UInt16) :
    Listing.linesFrom offset (word.halfWords ++ rest) =
      ⟨offset, word.halfWords, .ok op⟩ ::
        Listing.linesFrom (offset + 2 * word.width.halfWords) rest := by
  cases word with
  | narrow hw =>
    cases rest with
    | nil =>
      have hdecode : decode [hw] = .ok ⟨op, .narrow⟩ := Word.decode_halfWords h []
      simp only [halfWords, List.append_nil, Listing.linesFrom, hdecode]
    | cons hw2 rest =>
      have hdecode : decode [hw, hw2] = .ok ⟨op, .narrow⟩ := Word.decode_halfWords h [hw2]
      simp only [halfWords, List.cons_append, List.nil_append, Listing.linesFrom, hdecode]
      rfl
  | wide hw1 hw2 =>
    have hdecode : decode [hw1, hw2] = .ok ⟨op, .wide⟩ := Word.decode_halfWords h []
    simp only [halfWords, List.cons_append, List.nil_append, Listing.linesFrom, hdecode]
    rfl

/-- Words from a position on are read as the entries of a ledger. -/
inductive Lists : Nat → List Word → List Entry → Prop where
  | nil {p : Nat} : Lists p [] []
  | cons {p : Nat} {word : Word} {op : Operation} {ws : List Word} {entries : List Entry}
      (hread : word.reading = some op) (hrest : Lists (p + word.width.halfWords) ws entries) :
      Lists p (word :: ws) (⟨p, word.width, op⟩ :: entries)

namespace Lists

variable {p : Nat} {ws : List Word} {entries : List Entry} {e : Entry} {word : Word}
  {op : Operation}

theorem concat (h : Lists p ws entries) (hread : word.reading = some op) :
    Lists p (ws ++ [word]) (entries ++ [⟨p + span ws, word.width, op⟩]) := by
  induction h with
  | nil => exact .cons hread .nil
  | @cons p w _ ws _ hw _ ih =>
    rw [span, ← Nat.add_assoc]
    exact .cons hw ih

theorem le_position (h : Lists p ws entries) (he : e ∈ entries) : p ≤ e.position := by
  induction h with
  | nil => cases he
  | cons _ _ ih =>
    rcases List.mem_cons.mp he with rfl | he
    · exact Nat.le_refl _
    · exact Nat.le_trans (Nat.le_add_right _ _) (ih he)

/-- The word of an entry. -/
theorem wordAt_eq (h : Lists p ws entries) (he : e ∈ entries) :
    ∃ u, wordAt ws (e.position - p) = some u ∧ u.width = e.width := by
  induction h with
  | nil => cases he
  | @cons p w _ ws _ _ hrest ih =>
    rcases List.mem_cons.mp he with rfl | he
    · exact ⟨w, by simp [wordAt], rfl⟩
    · obtain ⟨u, hu, hwidth⟩ := ih he
      -- positions count from the front, so a later one skips the first word
      have hle := hrest.le_position he
      exact ⟨u, by rw [wordAt_cons_of_le (by omega), Nat.sub_sub, hu], hwidth⟩

/-- A word over another of the same width changes one entry. -/
theorem replace (h : Lists p ws entries) (he : e ∈ entries) (hwidth : word.width = e.width)
    (hread : word.reading = some op) :
    Lists p (replaceAt ws (e.position - p) word) (entries.map (Entry.fill e.position op)) := by
  induction h with
  | nil => cases he
  | @cons p w o ws entries hw hrest ih =>
    have hpos := width_pos w.width
    have hbehind : ∀ e' ∈ entries, p + w.width.halfWords ≤ e'.position :=
      fun e' he' => hrest.le_position he'
    rcases List.mem_cons.mp he with rfl | he
    · -- the entries behind it keep their operations
      have hsame : entries.map (Entry.fill p op) = entries :=
        Entry.map_fill_eq_self fun e' he' => by
          have := hbehind e' he'
          omega
      change word.width = w.width at hwidth
      rw [Nat.sub_self, replaceAt_zero, List.map_cons, hsame, Entry.fill, if_pos rfl]
      rw [← hwidth] at hrest ⊢
      exact .cons hread hrest
    · have hle := hbehind e he
      have hne : p ≠ e.position := by omega
      rw [replaceAt_cons_of_le (by omega), List.map_cons, Entry.fill_of_ne hne, Nat.sub_sub]
      exact .cons hw (ih he)

/-- The listing of words shows their entries. -/
theorem linesFrom_halfWords (h : Lists p ws entries) {code : Array UInt16} (before : List UInt16)
    (hcode : code.toList = before ++ halfWords ws) (hbefore : before.length = p) :
    Listing.linesFrom (2 * p) (halfWords ws) = entries.map (Entry.line code) := by
  induction h generalizing before with
  | nil => rfl
  | @cons p w op ws entries hread _ ih =>
    have hraw : (code.extract p (p + w.width.halfWords)).toList = w.halfWords := by
      rw [Array.toList_extract, hcode, List.extract_eq_take_drop, halfWords_cons, ← hbefore,
        List.drop_left, Nat.add_sub_cancel_left, ← Word.length_halfWords, List.take_left]
    rw [halfWords_cons, Word.linesFrom_halfWords hread, List.map_cons, Entry.line, hraw,
      ← Nat.mul_add, ih (before ++ w.halfWords)]
    · rw [hcode, halfWords_cons, List.append_assoc]
    · rw [List.length_append, hbefore, Word.length_halfWords]

end Lists

/-! ## What a directive does -/

namespace Buffer

variable {b : Buffer} {ws : List Word} {slot : Slot} {u : Word}

theorem emit_eq_encode (b : Buffer) (i : Instruction) :
    ∃ faults, b.emit i = { b with faults := b.faults ++ faults }.append i.encode := by
  unfold emit
  split
  · rename_i word h
    exact ⟨[], by rw [List.append_nil, Instruction.encode_of_ok h]⟩
  · rename_i e h
    exact ⟨[.encoding b.cursor e], by rw [Instruction.encode_of_error h]; rfl⟩

/-- Patching a slot that holds a word of its width replaces the word if the record
    is as wide and assembles, and otherwise leaves the code alone. -/
theorem Sound.patch_of_wordAt (h : b.Sound ws) (hword : wordAt ws slot.position = some u)
    (hwidth : u.width = slot.width) (i : Instruction) :
    (b.patch slot i).Sound (if i.width = slot.width ∧ i.assemble.isOk = true then
      replaceAt ws slot.position i.encode else ws) := by
  -- a slot whose word is in the code lies before the cursor
  have hwithin := add_le_span hword
  rw [h.span_eq, hwidth] at hwithin
  unfold Buffer.patch
  rw [if_neg (by omega)]
  by_cases hi : i.width = slot.width
  · simp only [hi, ne_eq, not_true_eq_false, ↓reduceIte, true_and]
    -- a record that does not assemble is reported in one of three ways, all outside the code
    have hkept : ∀ e fault, i.assemble = .error e → (b.record fault).Sound
        (if i.assemble.isOk = true then replaceAt ws slot.position i.encode else ws) := by
      intro e fault herr
      rw [if_neg (by rw [herr]; simp [Except.isOk, Except.toBool])]
      exact h.record fault
    split
    · rename_i word hok
      rw [if_pos (by rw [hok]; rfl), Instruction.encode_of_ok hok]
      have hsame : u.width = word.width := by
        rw [hwidth, ← hi, (Instruction.roundTrips_of_assemble hok).width_eq]
      exact { toHolds := h.toHolds.replace hword hsame
              cursor_le_capacity := h.cursor_le_capacity
              fatal_of_exhausted := h.fatal_of_exhausted }
    · rename_i herr
      exact hkept _ _ herr
    · rename_i herr
      exact hkept _ _ herr
    · rename_i herr
      exact hkept _ _ herr
  · simp only [ne_eq, hi, not_false_eq_true, ↓reduceIte, false_and]
    exact h.record _

end Buffer

namespace Assembler

variable {a a' : Assembler} {ws : List Word} {d : Directive} {entries : List Entry}
  {i : Instruction}

theorem width_of_not_fits {label : Label} {jump : Nat → Nat → Jump} {source target : Nat}
    (hd : d.backward? = some (label, jump)) (hfits : (jump source target).fits = false) :
    (jump source target).instruction.width = .wide := by
  cases d with
  | branchTo l cond =>
    obtain ⟨-, rfl⟩ := Prod.mk.inj (Option.some.inj hd)
    cases hwidth : (Jump.branch source target cond).instruction.width with
    | wide => rfl
    | narrow =>
      have hnarrow := (Jump.width_branch source target cond).mp hwidth
      simp only [Jump.branch, Jump.fits, hnarrow, ↓reduceIte, Bool.true_eq_false] at hfits
  | loopEnd l tailPredicated =>
    obtain ⟨-, rfl⟩ := Prod.mk.inj (Option.some.inj hd)
    rfl
  | _ => cases hd

/-- A directive that goes back appends the record of its jump. -/
theorem Sound.step_backward_encode (h : a.Sound ws) (hcursor : a.buffer.cursor ≤ 2 ^ 29)
    {label : Label} {jump : Nat → Nat → Jump} (hd : d.backward? = some (label, jump))
    (hstep : a.step d = .ok a') :
    ∃ target faults, a.targets.lookup label = some target ∧ a'.slots = a.slots ∧
      a'.buffer = { a.buffer with faults := a.buffer.faults ++ faults }.append
        (jump a.buffer.cursor target).instruction.encode := by
  rcases h.step_backward hcursor hd with ⟨-, herr⟩ | ⟨target, fault, hlookup, -, hj, -, hok⟩
  · rw [herr] at hstep
    cases hstep
  · obtain rfl := Except.ok.inj (hok.symm.trans hstep)
    refine ⟨target, ?_⟩
    -- a jump that is out of reach is replaced by a no-op, as a record that does not assemble is
    cases hfits : (jump a.buffer.cursor target).fits with
    | true =>
      obtain ⟨faults, heq⟩ := Buffer.emit_eq_encode a.buffer (jump a.buffer.cursor target).instruction
      exact ⟨faults, hlookup, rfl, heq⟩
    | false =>
      obtain ⟨offset, low, high, hrefused⟩ := hj.refused hfits
      refine ⟨[fault], hlookup, rfl, ?_⟩
      rw [Instruction.encode_of_error hrefused, width_of_not_fits hd hfits]
      rfl

/-- A directive that appends a record. -/
theorem Sound.step_appends (h : a.Sound ws) (hcursor : a.buffer.cursor ≤ 2 ^ 29)
    (hi : a.appended? d = some i) (hstep : a.step d = .ok a') :
    ∃ faults, a'.buffer =
        { a.buffer with faults := a.buffer.faults ++ faults }.append i.encode ∧
      ∀ s ∈ a'.slots, s ∈ a.slots ∨ s.2 = ⟨a.buffer.cursor, i.width⟩ := by
  -- branches and loop ends differ in their jump only
  have hback : ∀ label jump, d.backward? = some (label, jump) →
      (∀ target, a.targets.lookup label = some target →
        (jump a.buffer.cursor target).instruction = i) →
      ∃ faults, a'.buffer =
          { a.buffer with faults := a.buffer.faults ++ faults }.append i.encode ∧
        ∀ s ∈ a'.slots, s ∈ a.slots ∨ s.2 = ⟨a.buffer.cursor, i.width⟩ := by
    intro label jump hd hjump
    obtain ⟨target, faults, hlookup, hslots, hbuffer⟩ := h.step_backward_encode hcursor hd hstep
    refine ⟨faults, by rw [hbuffer, hjump target hlookup], ?_⟩
    intro s hs
    rw [hslots] at hs
    exact .inl hs
  cases d with
  | emit j =>
    obtain rfl := Option.some.inj hi
    obtain rfl := Except.ok.inj hstep
    obtain ⟨faults, heq⟩ := Buffer.emit_eq_encode a.buffer j
    exact ⟨faults, heq, fun s hs => .inl hs⟩
  | target label j =>
    obtain rfl := Option.some.inj hi
    obtain rfl := Except.ok.inj hstep
    obtain ⟨faults, heq⟩ := Buffer.emit_eq_encode a.buffer j
    exact ⟨faults, heq, fun s hs => .inl hs⟩
  | branchTo label cond =>
    refine hback label _ rfl fun target hlookup => ?_
    simpa [appended?, jump?, hlookup] using hi
  | loopEnd label tailPredicated =>
    refine hback label _ rfl fun target hlookup => ?_
    simpa [appended?, jump?, hlookup] using hi
  | reserve label width =>
    obtain rfl := Option.some.inj hi
    obtain rfl := Except.ok.inj hstep
    refine ⟨[], by rw [List.append_nil]; rfl, ?_⟩
    intro s hs
    rcases List.mem_cons.mp hs with rfl | hs
    · exact .inr rfl
    · exact .inl hs
  | _ => cases hi

/-- A directive that fills a slot. -/
theorem Sound.step_fills (h : a.Sound ws) (hcursor : a.buffer.cursor ≤ 2 ^ 29) {slot : Slot}
    (hi : a.filled? d = some (slot, i)) (hstep : a.step d = .ok a') :
    (∃ label, (label, slot) ∈ a.slots) ∧ a'.buffer = a.buffer.patch slot i ∧
      ∀ s ∈ a'.slots, s ∈ a.slots := by
  cases d with
  | bind label fixup =>
    obtain ⟨slot', hlookup, heq⟩ := Option.map_eq_some_iff.mp hi
    obtain ⟨rfl, rfl⟩ := Prod.mk.inj heq
    obtain ⟨⟨slot, rest⟩, hresolve, hstep⟩ := bind_eq_ok.mp hstep
    obtain ⟨hlookup', rfl⟩ := resolve_eq_ok hresolve
    obtain rfl := Option.some.inj (hlookup.symm.trans hlookup')
    have hslot := h.slot_le hlookup
    obtain ⟨offset, hoffset, hstep⟩ := bind_eq_ok.mp hstep
    rw [displacement_eq (by omega) hcursor] at hoffset
    obtain rfl := Except.ok.inj hoffset
    obtain rfl := pure_eq_ok.mp hstep
    exact ⟨⟨label, lookup_mem hlookup⟩, rfl, fun s hs => (List.mem_filter.mp hs).1⟩
  | patch label j =>
    obtain ⟨slot', hlookup, heq⟩ := Option.map_eq_some_iff.mp hi
    obtain ⟨rfl, rfl⟩ := Prod.mk.inj heq
    obtain ⟨⟨slot, rest⟩, hresolve, hstep⟩ := bind_eq_ok.mp hstep
    obtain ⟨hlookup', rfl⟩ := resolve_eq_ok hresolve
    obtain rfl := Option.some.inj (hlookup.symm.trans hlookup')
    obtain rfl := pure_eq_ok.mp hstep
    exact ⟨⟨label, lookup_mem hlookup⟩, rfl, fun s hs => (List.mem_filter.mp hs).1⟩
  | _ => cases hi

/-- A directive that writes nothing. -/
theorem step_quiet (hd : d.isRecord = true) (happends : a.appended? d = none)
    (hfills : a.filled? d = none) (hstep : a.step d = .ok a') :
    ∃ faults, a'.buffer = { a.buffer with faults := a.buffer.faults ++ faults } ∧
      a'.slots = a.slots := by
  -- a directive with a label that is not open does not go through
  have hopen : ∀ {α β : Type} {label : Label} {xs : List (Label × α)} {f : α → β},
      (xs.lookup label).map f = none → resolve label xs = .error .undefinedLabel :=
    fun hnone => resolve_of_lookup_none (Option.map_eq_none_iff.mp hnone)
  cases d with
  | mark label =>
    obtain rfl := Except.ok.inj hstep
    exact ⟨[], by rw [List.append_nil], rfl⟩
  | note fault =>
    obtain rfl := Except.ok.inj hstep
    exact ⟨[fault], rfl, rfl⟩
  | branchTo label cond =>
    obtain ⟨found, hresolve, -⟩ := bind_eq_ok.mp hstep
    rw [hopen (Option.map_eq_none_iff.mp happends)] at hresolve
    cases hresolve
  | loopEnd label tailPredicated =>
    obtain ⟨found, hresolve, -⟩ := bind_eq_ok.mp hstep
    rw [hopen (Option.map_eq_none_iff.mp happends)] at hresolve
    cases hresolve
  | bind label fixup =>
    obtain ⟨found, hresolve, -⟩ := bind_eq_ok.mp hstep
    rw [hopen hfills] at hresolve
    cases hresolve
  | patch label i =>
    obtain ⟨found, hresolve, -⟩ := bind_eq_ok.mp hstep
    rw [hopen hfills] at hresolve
    cases hresolve
  | raw word => cases hd
  | emit i => cases happends
  | target label i => cases happends
  | reserve label width => cases happends

/-! ## Runs keep a ledger -/

/-- The code is read as the entries of a ledger, and each open slot is one of them
    unless it was never written for want of room. -/
structure Tracks (a : Assembler) (entries : List Entry) : Prop where
  lists : ∃ ws, a.buffer.Sound ws ∧ Lists 0 ws entries
  slots : ∀ s ∈ a.slots,
    (∃ e ∈ entries, e.position = s.2.position ∧ e.width = s.2.width) ∨
      (a.buffer.exhausted = true ∧ s.2.position = a.buffer.cursor)

theorem tracks_start (b : Buffer) : (start b.reset).Tracks [] where
  lists := ⟨[], Buffer.sound_reset b, .nil⟩
  slots := fun _ hs => absurd hs List.not_mem_nil

/-- Entries lie before the cursor. -/
theorem Tracks.within (h : a.Tracks entries) {e : Entry} (he : e ∈ entries) :
    e.position + e.width.halfWords ≤ a.buffer.cursor := by
  obtain ⟨ws, hsound, hlists⟩ := h.lists
  obtain ⟨u, hu, hwidth⟩ := hlists.wordAt_eq he
  have hle := add_le_span hu
  rw [hsound.span_eq, hwidth] at hle
  exact hle

theorem Tracks.append (h : a.Tracks entries) {faults : List Fault}
    (hbuffer : a'.buffer = { a.buffer with faults := a.buffer.faults ++ faults }.append i.encode)
    (hslots : ∀ s ∈ a'.slots, s ∈ a.slots ∨ s.2 = ⟨a.buffer.cursor, i.width⟩) :
    a'.Tracks (if a.buffer.cursor < a'.buffer.cursor then
      entries ++ [⟨a.buffer.cursor, i.width, i.standing⟩] else entries) := by
  obtain ⟨ws, hsound, hlists⟩ := h.lists
  have hrecord := hsound.recordAll faults
  have hpos := width_pos i.width
  rcases hrecord.append_cases i.encode with ⟨hb, hfull, hcursor⟩ | ⟨hb, hroom, -, hcursor⟩
  · -- no room: nothing is entered, and a slot reserved here was never written
    rw [← hbuffer] at hb hfull hcursor
    change a'.buffer.cursor = a.buffer.cursor at hcursor
    rw [if_neg (by omega)]
    refine ⟨⟨ws, hb, hlists⟩, fun s hs => ?_⟩
    rcases hslots s hs with hs | hs
    · rcases h.slots s hs with hentry | ⟨-, hposition⟩
      · exact .inl hentry
      · exact .inr ⟨hfull, hposition.trans hcursor.symm⟩
    · exact .inr ⟨hfull, by rw [hs, hcursor]⟩
  · -- room: the buffer was never full, so every slot that was open has its entry
    rw [← hbuffer] at hb hcursor
    change a.buffer.exhausted = false at hroom
    change a'.buffer.cursor = a.buffer.cursor + i.encode.width.halfWords at hcursor
    rw [Instruction.width_encode] at hcursor
    rw [if_pos (by omega)]
    have hconcat := hlists.concat i.reading_encode
    rw [Nat.zero_add, hsound.span_eq, Instruction.width_encode] at hconcat
    refine ⟨⟨_, hb, hconcat⟩, fun s hs => .inl ?_⟩
    rcases hslots s hs with hs | hs
    · rcases h.slots s hs with ⟨e, he, heq⟩ | ⟨hfull, -⟩
      · exact ⟨e, List.mem_append_left _ he, heq⟩
      · rw [hroom] at hfull
        cases hfull
    · exact ⟨_, List.mem_append_right _ (List.mem_singleton_self _), by rw [hs], by rw [hs]⟩

theorem Tracks.patch (h : a.Tracks entries) {label : Label} {slot : Slot}
    (hslot : (label, slot) ∈ a.slots) (hbuffer : a'.buffer = a.buffer.patch slot i)
    (hslots : ∀ s ∈ a'.slots, s ∈ a.slots) :
    a'.Tracks (if i.width = slot.width ∧ i.assemble.isOk = true then
      entries.map (Entry.fill slot.position i.meaning) else entries) := by
  obtain ⟨ws, hsound, hlists⟩ := h.lists
  have hcursor : a'.buffer.cursor = a.buffer.cursor := by rw [hbuffer, Buffer.cursor_patch]
  have hfull : a'.buffer.exhausted = a.buffer.exhausted := by
    rw [hbuffer, Buffer.exhausted_patch]
  -- filling leaves positions and widths as they are
  have hentry : ∀ p w, (∃ e ∈ entries, e.position = p ∧ e.width = w) →
      ∃ e ∈ entries.map (Entry.fill slot.position i.meaning), e.position = p ∧ e.width = w := by
    rintro p w ⟨e, he, rfl, rfl⟩
    refine ⟨_, List.mem_map_of_mem he, ?_⟩
    unfold Entry.fill
    split <;> exact ⟨rfl, rfl⟩
  have hopen : ∀ s ∈ a'.slots,
      (∃ e ∈ entries, e.position = s.2.position ∧ e.width = s.2.width) ∨
        (a'.buffer.exhausted = true ∧ s.2.position = a'.buffer.cursor) := by
    intro s hs
    rw [hfull, hcursor]
    exact h.slots s (hslots s hs)
  rcases h.slots _ hslot with ⟨e, he, hposition, hwidth⟩ | ⟨-, hposition⟩
  · obtain ⟨u, hu, huwidth⟩ := hlists.wordAt_eq he
    rw [Nat.sub_zero, hposition] at hu
    have hpatch := hsound.patch_of_wordAt hu (huwidth.trans hwidth) i
    rw [← hbuffer] at hpatch
    split
    · rename_i hok
      rw [if_pos hok] at hpatch
      have hsame : i.encode.width = e.width := by
        rw [Instruction.width_encode, hwidth, hok.1]
      have hreplace := hlists.replace he hsame i.reading_encode
      rw [Nat.sub_zero, hposition, Instruction.standing_of_isOk hok.2] at hreplace
      exact ⟨⟨_, hpatch, hreplace⟩, fun s hs => (hopen s hs).imp_left (hentry _ _)⟩
    · rename_i hbad
      rw [if_neg hbad] at hpatch
      exact ⟨⟨ws, hpatch, hlists⟩, hopen⟩
  · -- the slot was never written, so there is nothing to fill
    have hpos := width_pos slot.width
    change slot.position = a.buffer.cursor at hposition
    have hbeyond : a'.buffer = a.buffer := by
      rw [hbuffer, Buffer.patch, if_pos (by omega)]
    have hsame : entries.map (Entry.fill slot.position i.meaning) = entries :=
      Entry.map_fill_eq_self fun e he => by
        have := h.within he
        have := width_pos e.width
        omega
    rw [hsame, ite_self]
    exact ⟨⟨ws, hbeyond ▸ hsound, hlists⟩, hopen⟩

/-- A directive keeps the ledger. -/
theorem Tracks.step (h : a.Tracks entries) (hsound : a.Sound ws)
    (hcursor : a.buffer.cursor ≤ 2 ^ 29) (hd : d.isRecord = true) (hstep : a.step d = .ok a') :
    a'.Tracks (a.enter a' entries d) := by
  -- a directive appends, fills or writes nothing; it does no two of these
  unfold enter
  split
  · rename_i i hi
    obtain ⟨faults, hbuffer, hslots⟩ := hsound.step_appends hcursor hi hstep
    exact h.append hbuffer hslots
  · rename_i slot i _ hi
    obtain ⟨⟨label, hslot⟩, hbuffer, hslots⟩ := hsound.step_fills hcursor hi hstep
    exact h.patch hslot hbuffer hslots
  · rename_i happends hfills
    obtain ⟨faults, hbuffer, hslots⟩ := step_quiet hd happends hfills hstep
    obtain ⟨ws', hbuffer', hlists⟩ := h.lists
    refine ⟨⟨ws', ?_, hlists⟩, ?_⟩
    · rw [hbuffer]
      exact hbuffer'.recordAll faults
    · rw [hbuffer, hslots]
      exact h.slots

/-- So does a run. -/
theorem Tracks.run {script : Script} (h : a.Tracks entries) (hsound : a.Sound ws)
    (hcapacity : a.buffer.capacity ≤ 2 ^ 29) (hrecords : ∀ d ∈ script, d.isRecord = true)
    (hrun : a.run script = .ok a') : a'.Tracks (a.ledger entries script) := by
  -- soundness is carried along: it bounds the cursor of the next step
  induction script generalizing a ws entries with
  | nil => exact pure_eq_ok.mp hrun ▸ h
  | cons d script ih =>
    obtain ⟨a₁, hstep, hrun⟩ := run_cons.mp hrun
    have hcursor := hsound.buffer.cursor_le_capacity
    have h₁ := h.step hsound (by omega) (hrecords d List.mem_cons_self) hstep
    obtain ⟨ws₁, hsound₁, hadv⟩ := hsound.step hstep
    rw [ledger, hstep]
    exact ih h₁ hsound₁ (hadv.capacity_eq ▸ hcapacity)
      (fun d hd => hrecords d (List.mem_cons_of_mem _ hd)) hrun

/-- A tracked buffer is listed as its ledger, from the first half-word to the cursor. -/
theorem Tracks.lines_eq (h : a.Tracks entries) :
    a.buffer.code.size = a.buffer.cursor ∧
      Listing.lines a.buffer.code.toList = entries.map (Entry.line a.buffer.code) := by
  obtain ⟨ws, hsound, hlists⟩ := h.lists
  have hcode : a.buffer.code.toList = halfWords ws := hsound.spells
  refine ⟨hsound.size_code, ?_⟩
  rw [Listing.lines, hcode]
  exact hlists.linesFrom_halfWords [] hcode rfl

/-- The code is a well-formed instruction stream at every point of a kernel.  In a
    buffer of at most `2 ^ 29` half-words, directives that write through records
    go through unless one names a label that is not open.  After each of them the
    cursor is within the capacity; a full buffer is on record at most once, and
    then nothing more is appended; and the listing of the code is the ledger of
    what was appended and filled in so far, whatever faults there are. -/
theorem listing_eq_ledger (b : Buffer) (hcapacity : b.capacity ≤ 2 ^ 29) (script : Script)
    (hrecords : ∀ d ∈ script, d.isRecord = true)
    (hlabels : (start b.reset).run script ≠ .error .undefinedLabel) :
    ∃ final, (start b.reset).run script = .ok final ∧
      ∀ done rest, script = done ++ rest →
        ∃ a, (start b.reset).run done = .ok a ∧ a.run rest = .ok final ∧
          a.buffer.cursor ≤ b.capacity ∧
          a.buffer.faults.countP Fault.isCapacityExceeded ≤ 1 ∧
          ((∃ fault ∈ a.buffer.faults, fault.isCapacityExceeded = true) →
            final.buffer.cursor = a.buffer.cursor) ∧
          a.buffer.code.size = a.buffer.cursor ∧
          Listing.lines a.buffer.code.toList =
            ((start b.reset).ledger [] done).map (Entry.line a.buffer.code) := by
  have hstart := sound_start b
  cases hrun : (start b.reset).run script with
  | error e =>
    obtain rfl := hstart.run_error hcapacity hrun
    exact absurd hrun hlabels
  | ok final =>
    refine ⟨final, rfl, ?_⟩
    rintro done rest rfl
    obtain ⟨a, hdone, hrest⟩ := run_append.mp hrun
    have hrecords' : ∀ d ∈ done, d.isRecord = true := fun d hd =>
      hrecords d (List.mem_append_left _ hd)
    obtain ⟨ws, hsound, hadv⟩ := hstart.run hdone
    obtain ⟨ws', -, hadv'⟩ := hsound.run hrest
    have hreports := reports_run (Buffer.reports_reset b) hrecords' hdone
    refine ⟨a, hdone, hrest, ?_, hreports.countP_le_one, fun hfull => ?_, ?_⟩
    · have hle := hsound.buffer.cursor_le_capacity
      rw [hadv.capacity_eq] at hle
      exact hle
    · exact (hadv'.stuck (hreports.exhausted_iff.mpr hfull)).2
    · exact ((tracks_start b).run hstart hcapacity hrecords' hdone).lines_eq

/-- A kernel that outgrows a buffer of six half-words: one record does not assemble,
    one slot is bound and the other stays open. -/
def overfull : Script :=
  [.mark "top", .emit (.cmpReg .r0 .r1), .reserve "out" .wide, .emit (.bx .pc),
    .branchTo "top" .al, .bind "out" (.branch .eq .wide), .reserve "late" .narrow,
    .emit (.nop .wide), .emit (.nop .narrow), .patch "late" (.bx .lr)]

/-- Its listing stops where the buffer is full, with the last slot filled. -/
theorem listing_eq_ledger_overfull :
    ∃ final, (start (Buffer.reset ⟨#[], 6, 0, [], false⟩)).run overfull = .ok final ∧
      final.buffer.faults.countP Fault.isCapacityExceeded ≤ 1 ∧
      Listing.lines final.buffer.code.toList =
        [⟨0, .narrow, .cmpReg .r0 .r1⟩, ⟨1, .wide, .branch .eq 4⟩, ⟨3, .narrow, .nop⟩,
          ⟨4, .narrow, .branch .al (-12)⟩, ⟨5, .narrow, .bx .lr⟩].map
            (Entry.line final.buffer.code) := by
  let b : Buffer := ⟨#[], 6, 0, [], false⟩
  have hrun : ∃ final, (start b.reset).run overfull = .ok final := ⟨_, by cbv⟩
  have hledger : (start b.reset).ledger [] overfull =
      [⟨0, .narrow, .cmpReg .r0 .r1⟩, ⟨1, .wide, .branch .eq 4⟩, ⟨3, .narrow, .nop⟩,
        ⟨4, .narrow, .branch .al (-12)⟩, ⟨5, .narrow, .bx .lr⟩] := by cbv
  obtain ⟨final', hfinal'⟩ := hrun
  obtain ⟨final, hfinal, hprefix⟩ :=
    listing_eq_ledger b (by decide) overfull (by decide) (by simp [hfinal'])
  obtain ⟨a, ha, hrest, -, hcount, -, -, hlines⟩ := hprefix overfull [] (by simp)
  obtain rfl := pure_eq_ok.mp hrest
  exact ⟨a, hfinal, hcount, hledger ▸ hlines⟩

end Assembler

end HeliumKernels
