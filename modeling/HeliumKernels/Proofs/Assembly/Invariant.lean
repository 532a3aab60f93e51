/-
  HeliumKernels.Proofs.Assembly.Invariant

  What every directive keeps.  A sound assembler spells a list of words; its
  targets lie at or before the cursor; each open slot holds a no-op, or was
  never written because the buffer is full; and no two open slots share a
  position.  A word is settled once no open slot points at it: nothing
  that follows can change it (`Advances`).
-/
import HeliumKernels.Assembly.Script
import HeliumKernels.Proofs.Assembly.Spelling
import Mathlib.Data.List.Pairwise

namespace HeliumKernels

open Spelling

/-! ## Buffers -/

namespace Buffer

/-- A buffer that spells `ws`, stays within its capacity and owns up to being full. -/
structure Sound (b : Buffer) (ws : List Word) : Prop extends Holds b ws where
  cursor_le_capacity : b.cursor ≤ b.capacity
  fatal_of_exhausted : b.exhausted = true → b.hasFatalFault = true

variable {b b' : Buffer} {ws : List Word} {word : Word} {fault : Fault}

theorem sound_reset (b : Buffer) : b.reset.Sound [] where
  toHolds := holds_reset b
  cursor_le_capacity := Nat.zero_le _
  fatal_of_exhausted := by simp [reset]

theorem hasFatalFault_of_prefix (h : b.faults <+: b'.faults) (hfatal : b.hasFatalFault = true) :
    b'.hasFatalFault = true := by
  unfold hasFatalFault at *
  rw [List.any_eq_true] at *
  obtain ⟨fault, hmem, hfault⟩ := hfatal
  exact ⟨fault, h.subset hmem, hfault⟩

/-- Recording faults changes nothing that soundness is about. -/
theorem Sound.recordAll (h : b.Sound ws) (faults : List Fault) :
    Sound { b with faults := b.faults ++ faults } ws where
  toHolds := ⟨h.span_eq, h.take_eq⟩
  cursor_le_capacity := h.cursor_le_capacity
  fatal_of_exhausted := fun hfull =>
    hasFatalFault_of_prefix (List.prefix_append _ _) (h.fatal_of_exhausted hfull)

theorem Sound.record (h : b.Sound ws) (fault : Fault) : (b.record fault).Sound ws :=
  h.recordAll [fault]

theorem hasFatalFault_record (h : fault.isFatal = true) : (b.record fault).hasFatalFault = true := by
  simp [hasFatalFault, Buffer.record, h]

/-- Appending either leaves the code alone and the buffer full, or adds the word. -/
theorem Sound.append_cases (h : b.Sound ws) (word : Word) :
    ((b.append word).Sound ws ∧ (b.append word).exhausted = true ∧
      (b.append word).cursor = b.cursor) ∨
    ((b.append word).Sound (ws ++ [word]) ∧ b.exhausted = false ∧
      (b.append word).exhausted = false ∧
      (b.append word).cursor = b.cursor + word.width.halfWords) := by
  unfold Buffer.append
  split
  · exact .inl ⟨h, ‹_›, rfl⟩
  · rename_i hroom
    split
    · -- the word does not fit: only the record of that is new
      refine .inl ⟨?_, rfl, rfl⟩
      exact { span_eq := h.span_eq
              take_eq := h.take_eq
              cursor_le_capacity := h.cursor_le_capacity
              fatal_of_exhausted := fun _ => hasFatalFault_record rfl }
    · have hfull : b.exhausted = false := by simpa using hroom
      refine .inr ⟨?_, hfull, hfull, rfl⟩
      exact { toHolds := h.toHolds.append
              cursor_le_capacity := by show b.cursor + _ ≤ b.capacity; omega
              fatal_of_exhausted := h.fatal_of_exhausted }

theorem faults_append (b : Buffer) (word : Word) : b.faults <+: (b.append word).faults := by
  unfold append
  split
  · exact List.prefix_rfl
  · split
    · exact List.prefix_append _ _
    · exact List.prefix_rfl

theorem capacity_append (b : Buffer) (word : Word) : (b.append word).capacity = b.capacity := by
  unfold append record
  split
  · rfl
  · split <;> rfl

/-- Emitting appends one word, after a record if it is only a stand-in. -/
theorem emit_eq_append (b : Buffer) (i : Instruction) :
    ∃ faults word, b.emit i = { b with faults := b.faults ++ faults }.append word ∧
      ∀ w, i.assemble = .ok w → word = w := by
  unfold emit
  split
  · rename_i word h
    refine ⟨[], word, by rw [List.append_nil], fun w hw => ?_⟩
    rw [h] at hw
    exact Except.ok.inj hw
  · rename_i e h
    refine ⟨[.encoding b.cursor e], .nop i.width, rfl, fun w hw => ?_⟩
    rw [h] at hw
    cases hw

theorem branchTo_eq_append {target : Nat} {cond : Condition} (h : b.branchTo target cond = .ok b') :
    ∃ faults word, b' = { b with faults := b.faults ++ faults }.append word := by
  unfold branchTo at h
  obtain ⟨offset, -, h⟩ := bind_eq_ok.mp h
  split at h
  · obtain ⟨faults, word, heq, -⟩ := emit_eq_append b (.branch cond offset .narrow)
    exact ⟨faults, word, (pure_eq_ok.mp h).symm.trans heq⟩
  · split at h
    · obtain ⟨faults, word, heq, -⟩ := emit_eq_append b (.branch cond offset .wide)
      exact ⟨faults, word, (pure_eq_ok.mp h).symm.trans heq⟩
    · exact ⟨[_], _, (pure_eq_ok.mp h).symm⟩

theorem loopEnd_eq_append {target : Nat} {tailPredicated : Bool}
    (h : b.loopEnd target tailPredicated = .ok b') :
    ∃ faults word, b' = { b with faults := b.faults ++ faults }.append word := by
  unfold loopEnd at h
  obtain ⟨offset, -, h⟩ := bind_eq_ok.mp h
  obtain ⟨back, -, h⟩ := bind_eq_ok.mp h
  split at h
  · obtain ⟨faults, word, heq, -⟩ := emit_eq_append b (.loopEnd back tailPredicated)
    exact ⟨faults, word, (pure_eq_ok.mp h).symm.trans heq⟩
  · exact ⟨[_], _, (pure_eq_ok.mp h).symm⟩

/-- Whether a slot holds its no-op, or was never written for want of room. -/
def Open (b : Buffer) (ws : List Word) (slot : Slot) : Prop :=
  wordAt ws slot.position = some (.nop slot.width) ∨
    (b.exhausted = true ∧ slot.position = b.cursor)

variable {slot : Slot} {i : Instruction}

theorem cursor_patch (b : Buffer) (slot : Slot) (i : Instruction) :
    (b.patch slot i).cursor = b.cursor := by
  unfold patch record
  repeat' split
  all_goals rfl

theorem exhausted_patch (b : Buffer) (slot : Slot) (i : Instruction) :
    (b.patch slot i).exhausted = b.exhausted := by
  unfold patch record
  repeat' split
  all_goals rfl

theorem capacity_patch (b : Buffer) (slot : Slot) (i : Instruction) :
    (b.patch slot i).capacity = b.capacity := by
  unfold patch record
  repeat' split
  all_goals rfl

theorem faults_patch (b : Buffer) (slot : Slot) (i : Instruction) :
    b.faults <+: (b.patch slot i).faults := by
  unfold patch record
  repeat' split
  all_goals first | exact List.prefix_rfl | exact List.prefix_append _ _

/-- Patching an open slot either leaves the code alone, and then only an
    operand that does not fit goes without a fatal fault, or puts the
    assembled instruction in the place of the no-op. -/
theorem Sound.patch_cases (h : b.Sound ws) (hslot : b.Open ws slot) (i : Instruction) :
    ((b.patch slot i).Sound ws ∧ ((b.patch slot i).hasFatalFault = true ∨
      ∃ e, i.assemble = .error e ∧ (∀ offset low high, e ≠ .branchOutOfRange offset low high) ∧
        ∀ offset, e ≠ .oddBranchOffset offset)) ∨
    (∃ word, i.assemble = .ok word ∧ wordAt ws slot.position = some (.nop slot.width) ∧
      word.width = slot.width ∧ (b.patch slot i).Sound (replaceAt ws slot.position word)) := by
  unfold patch
  split
  · -- the slot lies beyond the code
    rename_i hbeyond
    refine .inl ⟨h, .inl (h.fatal_of_exhausted ?_)⟩
    rcases hslot with hword | ⟨hfull, -⟩
    · have hle := add_le_span hword
      rw [Word.width_nop, h.span_eq] at hle
      omega
    · exact hfull
  · rename_i hwithin
    -- a slot within the code is one that was written
    have hword : wordAt ws slot.position = some (.nop slot.width) := by
      rcases hslot with hword | ⟨-, hposition⟩
      · exact hword
      · have := width_pos slot.width
        omega
    split
    · -- the widths differ
      exact .inl ⟨h.record _, .inl (hasFatalFault_record rfl)⟩
    · rename_i hwidth
      split
      · rename_i word hok
        have hw : word.width = slot.width := by
          rw [(Instruction.roundTrips_of_assemble hok).width_eq]
          exact Decidable.not_not.mp hwidth
        refine .inr ⟨word, hok, hword, hw, ?_⟩
        exact { toHolds := h.toHolds.replace hword (by rw [Word.width_nop, hw])
                cursor_le_capacity := h.cursor_le_capacity
                fatal_of_exhausted := h.fatal_of_exhausted }
      · exact .inl ⟨h.record _, .inl (hasFatalFault_record rfl)⟩
      · exact .inl ⟨h.record _, .inl (hasFatalFault_record rfl)⟩
      · rename_i e hne1 hne2 herr
        exact .inl ⟨h.record _, .inr ⟨e, herr, fun offset low high he => hne1 offset low high he,
          fun offset he => hne2 offset he⟩⟩

end Buffer

/-! ## Assemblers -/

namespace Assembler

/-- Two slots do not meet below the cursor. -/
def Apart (cursor : Nat) (s t : Label × Slot) : Prop :=
  s.2.position = t.2.position → cursor ≤ s.2.position

instance (cursor : Nat) : Std.Symm (Apart cursor) where
  symm _ _ h heq := heq ▸ h heq.symm

/-- A buffer that spells `ws`, targets that have been passed, and slots that are
    open and apart from each other. -/
structure Sound (a : Assembler) (ws : List Word) : Prop where
  buffer : a.buffer.Sound ws
  targets_le : ∀ t ∈ a.targets, t.2 ≤ a.buffer.cursor
  slots_open : ∀ s ∈ a.slots, a.buffer.Open ws s.2
  slots_apart : a.slots.Pairwise (Apart a.buffer.cursor)

/-- Whether `word` stands at `p` for good: no open slot is there. -/
def Settled (a : Assembler) (ws : List Word) (p : Nat) (word : Word) : Prop :=
  wordAt ws p = some word ∧ ∀ s ∈ a.slots, s.2.position ≠ p

/-- What later directives keep of an earlier state. -/
structure Advances (a : Assembler) (ws : List Word) (a' : Assembler) (ws' : List Word) : Prop where
  capacity_eq : a'.buffer.capacity = a.buffer.capacity
  faults_prefix : a.buffer.faults <+: a'.buffer.faults
  cursor_le : a.buffer.cursor ≤ a'.buffer.cursor
  stuck : a.buffer.exhausted = true →
    a'.buffer.exhausted = true ∧ a'.buffer.cursor = a.buffer.cursor
  settled : ∀ p word, a.Settled ws p word → a'.Settled ws' p word

variable {a a' a'' : Assembler} {ws ws' ws'' : List Word}

theorem Advances.refl (a : Assembler) (ws : List Word) : Advances a ws a ws where
  capacity_eq := rfl
  faults_prefix := List.prefix_rfl
  cursor_le := Nat.le_refl _
  stuck := fun h => ⟨h, rfl⟩
  settled := fun _ _ h => h

theorem Advances.trans (h : Advances a ws a' ws') (h' : Advances a' ws' a'' ws'') :
    Advances a ws a'' ws'' where
  capacity_eq := h'.capacity_eq.trans h.capacity_eq
  faults_prefix := h.faults_prefix.trans h'.faults_prefix
  cursor_le := Nat.le_trans h.cursor_le h'.cursor_le
  stuck := fun hfull => by
    obtain ⟨hfull', hcursor⟩ := h.stuck hfull
    obtain ⟨hfull'', hcursor'⟩ := h'.stuck hfull'
    exact ⟨hfull'', hcursor'.trans hcursor⟩
  settled := fun p word hp => h'.settled p word (h.settled p word hp)

/-- Where there is room at the end, there was room before. -/
theorem Advances.room (h : Advances a ws a' ws') (hroom : a'.buffer.exhausted = false) :
    a.buffer.exhausted = false := by
  by_contra hfull
  rw [(h.stuck (by simpa using hfull)).1] at hroom
  cases hroom

theorem Advances.hasFatalFault (h : Advances a ws a' ws') (hfatal : a.buffer.hasFatalFault = true) :
    a'.buffer.hasFatalFault = true :=
  Buffer.hasFatalFault_of_prefix h.faults_prefix hfatal

theorem Advances.not_fatal (h : Advances a ws a' ws') (hnone : a'.buffer.hasFatalFault = false) :
    a.buffer.hasFatalFault = false := by
  by_contra hfatal
  rw [h.hasFatalFault (by simpa using hfatal)] at hnone
  cases hnone

theorem sound_start (b : Buffer) : (start b.reset).Sound [] where
  buffer := Buffer.sound_reset b
  targets_le := by simp [start]
  slots_open := by simp [start]
  slots_apart := List.Pairwise.nil

/-- A slot that was written lies before the cursor. -/
theorem Sound.slot_lt (h : a.Sound ws) {s : Label × Slot} (hs : s ∈ a.slots)
    (hroom : a.buffer.exhausted = false) : s.2.position < a.buffer.cursor := by
  rcases h.slots_open s hs with hword | ⟨hfull, -⟩
  · rw [← h.buffer.span_eq]
    exact lt_span hword
  · rw [hroom] at hfull
    cases hfull

/-- Recording faults and then appending a word, with targets that have been passed. -/
theorem Sound.append (h : a.Sound ws) (faults : List Fault) (word : Word)
    {targets : List (Label × Nat)} (htargets : ∀ t ∈ targets, t.2 ≤ a.buffer.cursor) :
    let b := { a.buffer with faults := a.buffer.faults ++ faults }.append word
    ∃ ws', Sound ⟨b, targets, a.slots⟩ ws' ∧ Advances a ws ⟨b, targets, a.slots⟩ ws' ∧
      ((b.exhausted = true ∧ b.cursor = a.buffer.cursor) ∨
        (Settled ⟨b, targets, a.slots⟩ ws' a.buffer.cursor word ∧ b.exhausted = false ∧
          b.cursor = a.buffer.cursor + word.width.halfWords)) := by
  intro b
  have hrecord := h.buffer.recordAll faults
  have hfaults : a.buffer.faults <+: b.faults :=
    (List.prefix_append _ faults).trans
      (Buffer.faults_append { a.buffer with faults := a.buffer.faults ++ faults } word)
  have hcapacity : b.capacity = a.buffer.capacity := Buffer.capacity_append _ word
  rcases hrecord.append_cases word with ⟨hb, hfull, hcursor⟩ | ⟨hb, hroom, hroom', hcursor⟩
  · -- a full buffer: the words stay as they are, and so does every slot
    change b.cursor = a.buffer.cursor at hcursor
    refine ⟨ws, ⟨hb, ?_, ?_, ?_⟩, ⟨hcapacity, hfaults, Nat.le_of_eq hcursor.symm,
      fun _ => ⟨hfull, hcursor⟩, fun _ _ hp => hp⟩, .inl ⟨hfull, hcursor⟩⟩
    · intro t ht
      rw [hcursor]
      exact htargets t ht
    · intro s hs
      rcases h.slots_open s hs with hword | ⟨-, hposition⟩
      · exact .inl hword
      · exact .inr ⟨hfull, hposition.trans hcursor.symm⟩
    · exact h.slots_apart.imp fun hst heq => hcursor ▸ hst heq
  · -- the word is added behind all slots, none of which was left unwritten
    change b.cursor = a.buffer.cursor + word.width.halfWords at hcursor
    change a.buffer.exhausted = false at hroom
    have hslots : ∀ s ∈ a.slots, s.2.position < a.buffer.cursor := fun s hs => h.slot_lt hs hroom
    refine ⟨ws ++ [word], ⟨hb, ?_, ?_, ?_⟩, ⟨hcapacity, hfaults, ?_, ?_, ?_⟩,
      .inr ⟨⟨?_, ?_⟩, hroom', hcursor⟩⟩
    · intro t ht
      have := htargets t ht
      show t.2 ≤ b.cursor
      omega
    · intro s hs
      rcases h.slots_open s hs with hword | ⟨hfull, -⟩
      · exact .inl (wordAt_append hword)
      · rw [hroom] at hfull
        cases hfull
    · -- before the cursor of a buffer with room no two slots meet
      refine h.slots_apart.imp_of_mem fun {s t} hs _ hst heq => ?_
      have hlt := hslots s hs
      have hle := hst heq
      omega
    · show a.buffer.cursor ≤ b.cursor
      omega
    · intro hfull
      rw [hroom] at hfull
      cases hfull
    · intro p w hp
      exact ⟨wordAt_append hp.1, hp.2⟩
    · rw [← h.buffer.span_eq]
      exact wordAt_span ws word
    · intro s hs
      have := hslots s hs
      omega

/-! ### Labels -/

section

variable {α : Type} {label : Label} {entries rest : List (Label × α)} {found : α}

theorem lookup_mem (h : entries.lookup label = some found) : (label, found) ∈ entries := by
  obtain ⟨before, behind, rfl, -⟩ := List.lookup_eq_some_iff.mp h
  simp

theorem resolve_of_lookup (h : entries.lookup label = some found) :
    resolve label entries = .ok (found, entries.filter fun entry => entry.1 != label) := by
  simp only [resolve, h]

theorem resolve_of_lookup_none (h : entries.lookup label = none) :
    resolve label entries = .error .undefinedLabel := by
  simp only [resolve, h]

theorem resolve_eq_ok (h : resolve label entries = .ok (found, rest)) :
    entries.lookup label = some found ∧ rest = entries.filter fun entry => entry.1 != label := by
  unfold resolve at h
  split at h
  · rename_i x hx
    simp only [Except.ok.injEq, Prod.mk.injEq] at h
    exact ⟨h.1 ▸ hx, h.2.symm⟩
  · cases h

theorem resolve_eq_error {e : Trap} (h : resolve label entries = .error e) :
    e = .undefinedLabel := by
  unfold resolve at h
  split at h
  · cases h
  · simpa using h.symm

end

/-- A slot that is looked up is open, and apart from those that stay. -/
theorem Sound.resolve (h : a.Sound ws) {label : Label} {slot : Slot} {rest : List (Label × Slot)}
    (hresolve : resolve label a.slots = .ok (slot, rest)) :
    a.buffer.Open ws slot ∧ rest.Sublist a.slots ∧
      ∀ s ∈ rest, s.2.position = slot.position → a.buffer.cursor ≤ slot.position := by
  obtain ⟨hlookup, rfl⟩ := resolve_eq_ok hresolve
  have hmem := lookup_mem hlookup
  refine ⟨h.slots_open _ hmem, List.filter_sublist, ?_⟩
  intro s hs heq
  have hs' := List.mem_filter.mp hs
  -- looking a label up closes every entry of that label, so what stays is another slot
  have hne : s ≠ (label, slot) := by
    intro hsame
    rw [hsame] at hs'
    simp at hs'
  exact h.slots_apart.forall hmem hs'.1 hne.symm heq.symm

/-- Patching a slot that was looked up. -/
theorem Sound.patch (h : a.Sound ws) {label : Label} {slot : Slot} {rest : List (Label × Slot)}
    (hresolve : Assembler.resolve label a.slots = .ok (slot, rest)) (i : Instruction) :
    let b := a.buffer.patch slot i
    ∃ ws', Sound ⟨b, a.targets, rest⟩ ws' ∧ Advances a ws ⟨b, a.targets, rest⟩ ws' ∧
      (((b.hasFatalFault = true ∨
        ∃ e, i.assemble = .error e ∧ (∀ offset low high, e ≠ .branchOutOfRange offset low high) ∧
          ∀ offset, e ≠ .oddBranchOffset offset) ∧
        (Settled ⟨b, a.targets, rest⟩ ws' slot.position (.nop slot.width) ∨
          (b.exhausted = true ∧ slot.position = b.cursor))) ∨
        ∃ word, i.assemble = .ok word ∧ Settled ⟨b, a.targets, rest⟩ ws' slot.position word) := by
  intro b
  obtain ⟨hopen, hsub, hapart⟩ := h.resolve hresolve
  have hcursor : b.cursor = a.buffer.cursor := Buffer.cursor_patch _ _ _
  have hfull : b.exhausted = a.buffer.exhausted := Buffer.exhausted_patch _ _ _
  have hcapacity : b.capacity = a.buffer.capacity := Buffer.capacity_patch _ _ _
  have hfaults : a.buffer.faults <+: b.faults := Buffer.faults_patch _ _ _
  have htargets : ∀ t ∈ a.targets, t.2 ≤ b.cursor := by
    rw [hcursor]
    exact h.targets_le
  have hpairs : rest.Pairwise (Apart b.cursor) := by
    rw [hcursor]
    exact h.slots_apart.sublist hsub
  rcases h.buffer.patch_cases hopen i with ⟨hb, hbad⟩ | ⟨word, hok, hword, hwidth, hb⟩
  · -- the slot keeps its no-op, or was never written
    refine ⟨ws, ⟨hb, htargets, ?_, hpairs⟩, ⟨hcapacity, hfaults, Nat.le_of_eq hcursor.symm,
      fun hf => ⟨hfull.trans hf, hcursor⟩, ?_⟩, .inl ⟨hbad, ?_⟩⟩
    · intro s hs
      rcases h.slots_open s (hsub.subset hs) with hword | ⟨hf, hposition⟩
      · exact .inl hword
      · exact .inr ⟨hfull.trans hf, hposition.trans hcursor.symm⟩
    · intro p w hp
      exact ⟨hp.1, fun s hs => hp.2 s (hsub.subset hs)⟩
    · rcases hopen with hword | ⟨hf, hposition⟩
      · refine .inl ⟨hword, fun s hs heq => ?_⟩
        have hlt := lt_span hword
        rw [h.buffer.span_eq] at hlt
        have := hapart s hs heq
        omega
      · exact .inr ⟨hfull.trans hf, hposition.trans hcursor.symm⟩
  · -- the slot is filled; no slot that stays open is at its position
    have hlt : slot.position < a.buffer.cursor := by
      rw [← h.buffer.span_eq]
      exact lt_span hword
    have hne : ∀ s ∈ rest, s.2.position ≠ slot.position := by
      intro s hs heq
      have := hapart s hs heq
      omega
    have hsame : (Word.nop slot.width).width = word.width := by rw [Word.width_nop, hwidth]
    refine ⟨replaceAt ws slot.position word, ⟨hb, htargets, ?_, hpairs⟩,
      ⟨hcapacity, hfaults, Nat.le_of_eq hcursor.symm, fun hf => ⟨hfull.trans hf, hcursor⟩, ?_⟩,
      .inr ⟨word, hok, wordAt_replaceAt_self hword, hne⟩⟩
    · intro s hs
      rcases h.slots_open s (hsub.subset hs) with hword' | ⟨hf, hposition⟩
      · exact .inl ((wordAt_replaceAt_of_ne hword hsame (hne s hs)).trans hword')
      · exact .inr ⟨hfull.trans hf, hposition.trans hcursor.symm⟩
    · intro p w hp
      -- a settled word is not at the slot, which was open until now
      have hmem := lookup_mem (resolve_eq_ok hresolve).1
      have hpne : p ≠ slot.position := fun heq => hp.2 _ hmem heq.symm
      exact ⟨(wordAt_replaceAt_of_ne hword hsame hpne).trans hp.1,
        fun s hs => hp.2 s (hsub.subset hs)⟩

/-- Reserving a slot. -/
theorem Sound.reserve (h : a.Sound ws) (label : Label) (width : Width) :
    let b := a.buffer.append (.nop width)
    let slots := (label, (⟨a.buffer.cursor, width⟩ : Slot)) :: a.slots
    ∃ ws', Sound ⟨b, a.targets, slots⟩ ws' ∧ Advances a ws ⟨b, a.targets, slots⟩ ws' := by
  intro b slots
  obtain ⟨ws', hsound, hadv, hcases⟩ := h.append [] (.nop width) h.targets_le
  rw [List.append_nil] at hsound hadv hcases
  -- the new slot is at the cursor, and all others are before it unless the buffer is full
  have hbelow : ∀ s ∈ a.slots, Apart b.cursor (label, ⟨a.buffer.cursor, width⟩) s := by
    intro s hs heq
    rcases hcases with ⟨-, hcursor⟩ | ⟨hsettled, -, -⟩
    · exact Nat.le_of_eq hcursor
    · exact absurd heq.symm (hsettled.2 s hs)
  refine ⟨ws', ⟨hsound.buffer, hsound.targets_le, ?_,
    List.pairwise_cons.mpr ⟨hbelow, hsound.slots_apart⟩⟩,
    ⟨hadv.capacity_eq, hadv.faults_prefix, hadv.cursor_le, hadv.stuck, ?_⟩⟩
  · intro s hs
    rcases List.mem_cons.mp hs with rfl | hs
    · rcases hcases with ⟨hfull, hcursor⟩ | ⟨hsettled, -, -⟩
      · exact .inr ⟨hfull, hcursor.symm⟩
      · exact .inl hsettled.1
    · exact hsound.slots_open s hs
  · intro p w hp
    have hp' := hadv.settled p w hp
    refine ⟨hp'.1, fun s hs => ?_⟩
    rcases List.mem_cons.mp hs with rfl | hs
    · have hlt := lt_span hp.1
      rw [h.buffer.span_eq] at hlt
      exact Nat.ne_of_gt hlt
    · exact hp'.2 s hs

/-! ### Steps and runs -/

theorem lt_of_mem_filter {label : Label} {n : Nat} {targets : List (Label × Nat)}
    (h : ∀ t ∈ targets, t.2 ≤ n) : ∀ t ∈ targets.filter (fun entry => entry.1 != label), t.2 ≤ n :=
  fun t ht => h t (List.mem_filter.mp ht).1

/-- One directive keeps an assembler sound and settled words in place. -/
theorem Sound.step (h : a.Sound ws) {d : Directive} (hstep : a.step d = .ok a') :
    ∃ ws', a'.Sound ws' ∧ Advances a ws a' ws' := by
  -- a label that is marked now is at the cursor
  have hpassed : ∀ label : Label, ∀ t ∈ (label, a.buffer.cursor) :: a.targets,
      t.2 ≤ a.buffer.cursor := by
    intro label t ht
    rcases List.mem_cons.mp ht with rfl | ht
    · exact Nat.le_refl _
    · exact h.targets_le t ht
  cases d with
  | emit i =>
    obtain ⟨faults, word, heq, -⟩ := Buffer.emit_eq_append a.buffer i
    obtain ⟨ws', hs, hadv, -⟩ := h.append faults word h.targets_le
    obtain rfl := Except.ok.inj hstep
    rw [heq]
    exact ⟨ws', hs, hadv⟩
  | raw word =>
    obtain ⟨ws', hs, hadv, -⟩ := h.append [] word h.targets_le
    rw [List.append_nil] at hs hadv
    obtain rfl := Except.ok.inj hstep
    exact ⟨ws', hs, hadv⟩
  | mark label =>
    obtain rfl := Except.ok.inj hstep
    exact ⟨ws, ⟨h.buffer, hpassed label, h.slots_open, h.slots_apart⟩,
      ⟨rfl, List.prefix_rfl, Nat.le_refl _, fun hf => ⟨hf, rfl⟩, fun _ _ hp => hp⟩⟩
  | target label i =>
    obtain ⟨faults, word, heq, -⟩ := Buffer.emit_eq_append a.buffer i
    obtain ⟨ws', hs, hadv, -⟩ := h.append faults word (hpassed label)
    obtain rfl := Except.ok.inj hstep
    rw [heq]
    exact ⟨ws', hs, hadv⟩
  | branchTo label cond =>
    obtain ⟨⟨target, targets⟩, hresolve, hstep⟩ := bind_eq_ok.mp hstep
    obtain ⟨b, hb, hstep⟩ := bind_eq_ok.mp hstep
    obtain rfl := pure_eq_ok.mp hstep
    obtain ⟨faults, word, rfl⟩ := Buffer.branchTo_eq_append hb
    obtain ⟨-, rfl⟩ := resolve_eq_ok hresolve
    obtain ⟨ws', hs, hadv, -⟩ := h.append faults word (lt_of_mem_filter h.targets_le)
    exact ⟨ws', hs, hadv⟩
  | loopEnd label tailPredicated =>
    obtain ⟨⟨target, targets⟩, hresolve, hstep⟩ := bind_eq_ok.mp hstep
    obtain ⟨b, hb, hstep⟩ := bind_eq_ok.mp hstep
    obtain rfl := pure_eq_ok.mp hstep
    obtain ⟨faults, word, rfl⟩ := Buffer.loopEnd_eq_append hb
    obtain ⟨-, rfl⟩ := resolve_eq_ok hresolve
    obtain ⟨ws', hs, hadv, -⟩ := h.append faults word (lt_of_mem_filter h.targets_le)
    exact ⟨ws', hs, hadv⟩
  | reserve label width =>
    obtain rfl := Except.ok.inj hstep
    exact h.reserve label width
  | bind label fixup =>
    obtain ⟨⟨slot, slots⟩, hresolve, hstep⟩ := bind_eq_ok.mp hstep
    obtain ⟨offset, -, hstep⟩ := bind_eq_ok.mp hstep
    obtain rfl := pure_eq_ok.mp hstep
    obtain ⟨ws', hs, hadv, -⟩ := h.patch hresolve (fixup.fill offset)
    exact ⟨ws', hs, hadv⟩
  | patch label i =>
    obtain ⟨⟨slot, slots⟩, hresolve, hstep⟩ := bind_eq_ok.mp hstep
    obtain rfl := pure_eq_ok.mp hstep
    obtain ⟨ws', hs, hadv, -⟩ := h.patch hresolve i
    exact ⟨ws', hs, hadv⟩
  | note fault =>
    obtain rfl := Except.ok.inj hstep
    exact ⟨ws, ⟨h.buffer.record fault, h.targets_le, h.slots_open, h.slots_apart⟩,
      ⟨rfl, List.prefix_append _ _, Nat.le_refl _, fun hf => ⟨hf, rfl⟩, fun _ _ hp => hp⟩⟩

/-- A run keeps what each of its directives keeps. -/
theorem Sound.run (h : a.Sound ws) {script : Script} (hrun : a.run script = .ok a') :
    ∃ ws', a'.Sound ws' ∧ Advances a ws a' ws' := by
  induction script generalizing a ws with
  | nil =>
    obtain rfl := pure_eq_ok.mp hrun
    exact ⟨ws, h, Advances.refl a ws⟩
  | cons d script ih =>
    obtain ⟨a₁, hstep, hrun⟩ := bind_eq_ok.mp hrun
    obtain ⟨ws₁, h₁, hadv₁⟩ := h.step hstep
    obtain ⟨ws', h', hadv'⟩ := ih h₁ hrun
    exact ⟨ws', h', hadv₁.trans hadv'⟩

theorem run_append {s t : Script} :
    a.run (s ++ t) = .ok a' ↔ ∃ a₁, a.run s = .ok a₁ ∧ a₁.run t = .ok a' := by
  unfold Assembler.run
  rw [List.foldlM_append]
  exact bind_eq_ok

theorem run_cons {d : Directive} {t : Script} :
    a.run (d :: t) = .ok a' ↔ ∃ a₁, a.step d = .ok a₁ ∧ a₁.run t = .ok a' := by
  unfold Assembler.run
  rw [List.foldlM_cons]
  exact bind_eq_ok

end Assembler

end HeliumKernels
