/-
  HeliumKernels.Proofs.Assembly.Agreement

  What a directive can see.  A directive looks at the cursor and at the open
  labels, never at the half-words of the buffer; what it then does to the
  buffer is one of three effects.  Buffers that agree up to the cursor
  therefore stay in agreement, and whatever lies behind the cursor never
  reaches a kernel.
-/
import HeliumKernels.Proofs.Assembly.Invariant

namespace HeliumKernels

/-! ## Effects -/

/-- What a directive does to a buffer. -/
inductive Effect where
  /-- Record faults, then append a word. -/
  | append (faults : List Fault) (word : Word)
  /-- Fill a slot. -/
  | patch (slot : Slot) (i : Instruction)
  /-- Record faults. -/
  | record (faults : List Fault)
deriving DecidableEq, Repr

/-- The buffer after an effect. -/
def Effect.apply (b : Buffer) : Effect → Buffer
  | append faults word => { b with faults := b.faults ++ faults }.append word
  | patch slot i => b.patch slot i
  | record faults => { b with faults := b.faults ++ faults }

namespace Buffer

/-- An operation that looks at the cursor only: it always stops with the same trap,
    or always has the same effect. -/
def Blind (cursor : Nat) (f : Buffer → Except Trap Buffer) : Prop :=
  (∃ e, ∀ b : Buffer, b.cursor = cursor → f b = .error e) ∨
    ∃ effect : Effect, ∀ b : Buffer, b.cursor = cursor → f b = .ok (effect.apply b)

variable {cursor : Nat}

theorem blind_emit (i : Instruction) : Blind cursor fun b => pure (b.emit i) := by
  right
  cases h : i.assemble with
  | ok word =>
    refine ⟨.append [] word, fun b _ => ?_⟩
    simp only [emit, h, Effect.apply, List.append_nil]
    rfl
  | error e =>
    -- the fault names the cursor, which is all that is looked at
    refine ⟨.append [.encoding cursor e] (.nop i.width), ?_⟩
    rintro b rfl
    simp only [emit, h, Effect.apply, record]
    rfl

theorem blind_overflow (fault : Nat → Fault) :
    Blind cursor fun b => pure ((b.record (fault b.cursor)).append (.nop .wide)) := by
  refine .inr ⟨.append [fault cursor] (.nop .wide), ?_⟩
  rintro b rfl
  rfl

theorem Blind.ite {f g : Buffer → Except Trap Buffer} {c : Prop} [Decidable c]
    (hf : Blind cursor f) (hg : Blind cursor g) : Blind cursor fun b => if c then f b else g b := by
  by_cases hc : c
  · simpa only [hc, ↓reduceIte] using hf
  · simpa only [hc, ↓reduceIte] using hg

/-- A computation from the cursor alone, before an operation that looks at it only. -/
theorem Blind.bind {α : Type} (x : Nat → Except Trap α) {f : α → Buffer → Except Trap Buffer}
    (hf : ∀ value, Blind cursor (f value)) :
    Blind cursor fun b => x b.cursor >>= fun value => f value b := by
  cases hx : x cursor with
  | error e =>
    -- the computation fails for every buffer with this cursor, or gives one value for all
    refine .inl ⟨e, ?_⟩
    rintro b rfl
    simp only [hx]
    rfl
  | ok value =>
    refine (hf value).imp ?_ ?_
    · rintro ⟨e, herr⟩
      refine ⟨e, ?_⟩
      rintro b rfl
      simp only [hx]
      exact herr b rfl
    · rintro ⟨effect, heffect⟩
      refine ⟨effect, ?_⟩
      rintro b rfl
      simp only [hx]
      exact heffect b rfl

theorem blind_branchTo (target : Nat) (cond : Condition) :
    Blind cursor fun b => b.branchTo target cond := by
  unfold branchTo
  refine Blind.bind (displacement · target) fun offset => ?_
  exact .ite (blind_emit _) (.ite (blind_emit _) (blind_overflow (.displacementOverflow · _ _ _)))

theorem blind_loopEnd (target : Nat) (tailPredicated : Bool) :
    Blind cursor fun b => b.loopEnd target tailPredicated := by
  unfold loopEnd
  refine Blind.bind (displacement · target) fun offset => ?_
  refine Blind.bind (fun _ => Checked.int32 (-offset)) fun back => ?_
  exact .ite (blind_emit _) (blind_overflow (.displacementOverflow · _ _ _))

end Buffer

namespace Assembler

variable {a a' : Assembler} {cursor : Nat} {targets : List (Label × Nat)}
  {slots : List (Label × Slot)} {d : Directive}

/-- A directive that looks at the cursor and the open labels only. -/
def Blind (cursor : Nat) (targets : List (Label × Nat)) (slots : List (Label × Slot))
    (d : Directive) : Prop :=
  (∃ e, ∀ b : Buffer, b.cursor = cursor → step ⟨b, targets, slots⟩ d = .error e) ∨
    ∃ (effect : Effect) (targets' : List (Label × Nat)) (slots' : List (Label × Slot)),
      ∀ b : Buffer, b.cursor = cursor →
        step ⟨b, targets, slots⟩ d = .ok ⟨effect.apply b, targets', slots'⟩

/-- A directive that changes the buffer first and the labels without fail. -/
theorem blind_of_buffer {f : Buffer → Except Trap Buffer} (hf : Buffer.Blind cursor f)
    (targets' : List (Label × Nat)) (slots' : List (Label × Slot))
    (hstep : ∀ b : Buffer, b.cursor = cursor → step ⟨b, targets, slots⟩ d =
      f b >>= fun b' => pure ⟨b', targets', slots'⟩) : Blind cursor targets slots d := by
  rcases hf with ⟨e, herr⟩ | ⟨effect, heffect⟩
  · refine .inl ⟨e, fun b hb => ?_⟩
    rw [hstep b hb, herr b hb]
    rfl
  · refine .inr ⟨effect, targets', slots', fun b hb => ?_⟩
    rw [hstep b hb, heffect b hb]
    rfl

/-- Whatever lies in the buffer, a directive stops with the same trap or has the
    same effect, and leaves the same labels open. -/
theorem blind_step (cursor : Nat) (targets : List (Label × Nat)) (slots : List (Label × Slot))
    (d : Directive) : Blind cursor targets slots d := by
  -- a label that is not open stops every buffer alike
  have hundefined : ∀ {α : Type} {label : Label} {xs : List (Label × α)} {e : Trap}
      {f : Buffer → α × List (Label × α) → Except Trap Assembler},
      resolve label xs = .error e →
      (∀ b : Buffer, step ⟨b, targets, slots⟩ d = resolve label xs >>= f b) →
      Blind cursor targets slots d := by
    intro α label xs e f hresolve hstep
    refine .inl ⟨e, fun b _ => ?_⟩
    rw [hstep b, hresolve]
    rfl
  cases d with
  | emit i => exact blind_of_buffer (Buffer.blind_emit i) targets slots fun b _ => rfl
  | raw word =>
    refine .inr ⟨.append [] word, targets, slots, fun b _ => ?_⟩
    rw [step, Effect.apply, List.append_nil]
  | mark label =>
    refine .inr ⟨.record [], (label, cursor) :: targets, slots, ?_⟩
    rintro b rfl
    rw [step, Effect.apply, List.append_nil]
  | target label i =>
    refine blind_of_buffer (Buffer.blind_emit i) ((label, cursor) :: targets) slots ?_
    rintro b rfl
    rfl
  | branchTo label cond =>
    cases hresolve : resolve label targets with
    | error e => exact hundefined hresolve fun b => rfl
    | ok found =>
      refine blind_of_buffer (Buffer.blind_branchTo found.1 cond) found.2 slots fun b _ => ?_
      rw [step, hresolve]
      rfl
  | loopEnd label tailPredicated =>
    cases hresolve : resolve label targets with
    | error e => exact hundefined hresolve fun b => rfl
    | ok found =>
      refine blind_of_buffer (Buffer.blind_loopEnd found.1 tailPredicated) found.2 slots fun b _ => ?_
      rw [step, hresolve]
      rfl
  | reserve label width =>
    refine .inr ⟨.append [] (.nop width), targets, (label, ⟨cursor, width⟩) :: slots, ?_⟩
    rintro b rfl
    simp only [step, Buffer.reserve, Effect.apply, List.append_nil]
  | bind label fixup =>
    cases hresolve : resolve label slots with
    | error e => exact hundefined hresolve fun b => rfl
    | ok found =>
      obtain ⟨slot, rest⟩ := found
      -- the displacement is computed from slot and cursor before the buffer is patched
      have hpatch : Buffer.Blind cursor fun b => Buffer.displacement slot.position b.cursor >>=
          fun offset => pure (b.patch slot (fixup.fill offset)) :=
        Buffer.Blind.bind (Buffer.displacement slot.position) fun offset =>
          .inr ⟨.patch slot (fixup.fill offset), fun b _ => rfl⟩
      refine blind_of_buffer hpatch targets rest fun b _ => ?_
      rw [step, hresolve]
      cases h : Buffer.displacement slot.position b.cursor with
      | error e => simp only [bind, Except.bind, h]
      | ok offset =>
        simp only [bind, Except.bind, h]
        rfl
  | patch label i =>
    cases hresolve : resolve label slots with
    | error e => exact hundefined hresolve fun b => rfl
    | ok found =>
      refine .inr ⟨.patch found.1 i, targets, found.2, fun b _ => ?_⟩
      rw [step, hresolve]
      rfl
  | note fault => exact .inr ⟨.record [fault], targets, slots, fun b _ => rfl⟩

/-- A step does what its effect does. -/
theorem exists_effect (hstep : a.step d = .ok a') :
    ∃ effect : Effect, a'.buffer = effect.apply a.buffer ∧
      ∀ b : Buffer, b.cursor = a.buffer.cursor →
        step ⟨b, a.targets, a.slots⟩ d = .ok ⟨effect.apply b, a'.targets, a'.slots⟩ := by
  obtain ⟨b, targets, slots⟩ := a
  -- the effect of this buffer is that of every buffer with its cursor
  rcases blind_step b.cursor targets slots d with ⟨e, herr⟩ | ⟨effect, ts, ss, heffect⟩
  · rw [herr b rfl] at hstep
    cases hstep
  · have hstep' := heffect b rfl
    obtain rfl := Except.ok.inj (hstep.symm.trans hstep')
    exact ⟨effect, rfl, heffect⟩

end Assembler

/-! ## Agreement -/

namespace Buffer

/-- Two buffers with the same code, faults and flag, whatever lies behind the code. -/
structure Agrees (b c : Buffer) : Prop where
  cursor : b.cursor = c.cursor
  faults : b.faults = c.faults
  exhausted : b.exhausted = c.exhausted
  written : b.words.toList.take b.cursor = c.words.toList.take c.cursor
  left_le : b.cursor ≤ b.words.size
  right_le : c.cursor ≤ c.words.size

variable {b c : Buffer}

theorem agrees_reset (b c : Buffer) : b.reset.Agrees c.reset :=
  ⟨rfl, rfl, rfl, rfl, Nat.zero_le _, Nat.zero_le _⟩

theorem Agrees.record (h : b.Agrees c) (faults : List Fault) :
    Agrees { b with faults := b.faults ++ faults } { c with faults := c.faults ++ faults } :=
  ⟨h.cursor, by rw [h.faults], h.exhausted, h.written, h.left_le, h.right_le⟩

theorem size_store {words : Array UInt16} {p : Nat} {hws : List UInt16} (hp : p ≤ words.size) :
    (store words p hws).size = max words.size (p + hws.length) := by
  rw [← Array.length_toList, toList_store hp]
  simp only [List.length_append, List.length_take, List.length_drop, Array.length_toList]
  omega

/-- The code after half-words are stored inside it or right behind it. -/
theorem take_store {words : Array UInt16} {p n : Nat} {hws : List UInt16} (hp : p ≤ n)
    (hn : n ≤ words.size) :
    (store words p hws).toList.take (max n (p + hws.length)) =
      (words.toList.take n).take p ++ hws ++ (words.toList.take n).drop (p + hws.length) := by
  have hlen : (words.toList.take p ++ hws).length = p + hws.length := by
    simp [Nat.min_eq_left (Nat.le_trans hp hn)]
  -- behind the new half-words the cut leaves what lies up to the old cursor
  rw [toList_store (Nat.le_trans hp hn), List.take_append, hlen,
    List.take_of_length_le (by omega), List.take_take, Nat.min_eq_left hp, List.drop_take]
  congr 2
  omega

/-- Storing the same half-words at the same place of the code. -/
theorem Agrees.store (h : b.Agrees c) {p n : Nat} {hws : List UInt16} (hp : p ≤ b.cursor)
    (hn : n = max b.cursor (p + hws.length)) :
    Agrees { b with words := store b.words p hws, cursor := n }
      { c with words := store c.words p hws, cursor := n } := by
  have hcursor := h.cursor
  have hleft := h.left_le
  have hright := h.right_le
  subst hn
  refine ⟨rfl, h.faults, h.exhausted, ?_, ?_, ?_⟩
  · -- what was stored and what is kept around it both lie before the new cursor
    show (Buffer.store b.words p hws).toList.take (max b.cursor (p + hws.length)) =
      (Buffer.store c.words p hws).toList.take (max b.cursor (p + hws.length))
    rw [take_store hp hleft, h.written, hcursor, take_store (by omega) hright]
  · show max b.cursor (p + hws.length) ≤ (Buffer.store b.words p hws).size
    rw [size_store (by omega)]
    omega
  · show max b.cursor (p + hws.length) ≤ (Buffer.store c.words p hws).size
    rw [size_store (by omega)]
    omega

theorem append_of_room {word : Word} (hroom : b.exhausted = false)
    (hfits : b.cursor + word.width.halfWords ≤ b.capacity) :
    b.append word = { b with
      words := Buffer.store b.words b.cursor word.halfWords
      cursor := b.cursor + word.width.halfWords } := by
  rw [append, if_neg (by simp [hroom]), if_neg (by omega)]

theorem append_of_full {word : Word} (hroom : b.exhausted = false)
    (hfull : b.capacity < b.cursor + word.width.halfWords) :
    b.append word = { b with exhausted := true }.record (.capacityExceeded b.capacity) := by
  rw [append, if_neg (by simp [hroom]), if_pos hfull]

theorem append_of_exhausted {word : Word} (hfull : b.exhausted = true) : b.append word = b := by
  rw [append, if_pos hfull]

/-- Appending a word that fits both buffers. -/
theorem Agrees.append_of_room (h : b.Agrees c) {word : Word} (hroom : b.exhausted = false)
    (hb : b.cursor + word.width.halfWords ≤ b.capacity)
    (hc : c.cursor + word.width.halfWords ≤ c.capacity) :
    (b.append word).Agrees (c.append word) := by
  have hmax : b.cursor + word.width.halfWords =
      max b.cursor (b.cursor + word.halfWords.length) := by
    rw [Word.length_halfWords]
    omega
  rw [Buffer.append_of_room hroom hb, Buffer.append_of_room (h.exhausted ▸ hroom) hc, ← h.cursor]
  exact h.store (Nat.le_refl _) hmax

theorem Agrees.append (h : b.Agrees c) (hcapacity : b.capacity = c.capacity) (word : Word) :
    (b.append word).Agrees (c.append word) := by
  have hcursor := h.cursor
  cases hroom : b.exhausted with
  | true =>
    rw [append_of_exhausted hroom, append_of_exhausted (h.exhausted ▸ hroom)]
    exact h
  | false =>
    by_cases hfits : b.cursor + word.width.halfWords ≤ b.capacity
    · exact h.append_of_room hroom hfits (by omega)
    · -- the fault names the capacity, which is the same
      rw [append_of_full hroom (by omega), append_of_full (h.exhausted ▸ hroom) (by omega)]
      exact ⟨h.cursor, by simp only [Buffer.record, h.faults, hcapacity], rfl, h.written,
        h.left_le, h.right_le⟩

theorem Agrees.patch (h : b.Agrees c) (slot : Slot) (i : Instruction) :
    (b.patch slot i).Agrees (c.patch slot i) := by
  unfold Buffer.patch
  rw [← h.cursor]
  split
  · exact h
  · rename_i hwithin
    split
    · exact h.record _
    · rename_i hwidth
      split
      · rename_i word hok
        -- a record as wide as the slot ends where the slot ends
        have hlen : slot.position + word.halfWords.length ≤ b.cursor := by
          rw [Word.length_halfWords, (Instruction.roundTrips_of_assemble hok).width_eq,
            Decidable.not_not.mp hwidth]
          omega
        exact h.store (by omega) (Nat.max_eq_left hlen).symm
      · exact h.record _
      · exact h.record _
      · exact h.record _

theorem Agrees.code_eq (h : b.Agrees c) : b.code = c.code := by
  apply Array.ext'
  rw [code, code, Array.toList_extract, Array.toList_extract, List.extract_eq_take_drop,
    List.extract_eq_take_drop]
  exact h.written

theorem code_finish_of_fatal (h : b.hasFatalFault = true) : b.finish.code = #[returnWord] := by
  apply Array.ext'
  rw [finish, if_pos h, code, Array.toList_extract, List.extract_eq_take_drop,
    toList_put (Nat.zero_le _)]
  rfl

theorem finish_of_not_fatal (h : b.hasFatalFault = false) : b.finish = b := by
  rw [finish, if_neg (by simp [h])]

theorem faults_finish (b : Buffer) : b.finish.faults = b.faults := by
  unfold finish
  split <;> rfl

/-- Kernels that are closed in agreement are equal. -/
theorem Agrees.kernel_finish (h : b.Agrees c) : b.finish.kernel = c.finish.kernel := by
  have hsame : c.hasFatalFault = b.hasFatalFault := by rw [hasFatalFault, hasFatalFault, h.faults]
  rw [kernel, kernel, faults_finish, faults_finish, h.faults]
  -- the faults are equal, so both kernels are discarded or neither is
  cases hfatal : b.hasFatalFault with
  | true => rw [code_finish_of_fatal hfatal, code_finish_of_fatal (hsame.trans hfatal)]
  | false => rw [finish_of_not_fatal hfatal, finish_of_not_fatal (hsame.trans hfatal), h.code_eq]

end Buffer

namespace Effect

variable {b c : Buffer}

theorem capacity_apply (effect : Effect) (b : Buffer) :
    (effect.apply b).capacity = b.capacity := by
  cases effect with
  | append faults word => exact Buffer.capacity_append _ word
  | patch slot i => exact Buffer.capacity_patch b slot i
  | record faults => rfl

theorem cursor_apply_le (effect : Effect) (b : Buffer) :
    (effect.apply b).cursor ≤ b.cursor + 2 := by
  cases effect with
  | append faults word =>
    have hwidth : word.width.halfWords ≤ 2 := by cases word.width <;> decide
    simp only [Effect.apply, Buffer.append, Buffer.record]
    split
    · exact Nat.le_add_right _ _
    · split
      · exact Nat.le_add_right _ _
      · exact Nat.add_le_add_left hwidth _
  | patch slot i => exact Nat.le_trans (Nat.le_of_eq (Buffer.cursor_patch b slot i)) (by omega)
  | record faults => exact Nat.le_add_right _ _

/-- The same effect keeps buffers of one capacity in agreement. -/
theorem agrees_apply (h : b.Agrees c) (hcapacity : b.capacity = c.capacity) (effect : Effect) :
    (effect.apply b).Agrees (effect.apply c) := by
  cases effect with
  | append faults word => exact (h.record faults).append hcapacity word
  | patch slot i => exact h.patch slot i
  | record faults => exact h.record faults

end Effect

namespace Assembler

variable {a a' c : Assembler} {script : Script}

/-- A directive moves the cursor by at most two. -/
theorem cursor_step_le {d : Directive} (hstep : a.step d = .ok a') :
    a'.buffer.cursor ≤ a.buffer.cursor + 2 := by
  obtain ⟨effect, hbuffer, -⟩ := exists_effect hstep
  rw [hbuffer]
  exact effect.cursor_apply_le a.buffer

theorem cursor_run_le (hrun : a.run script = .ok a') :
    a'.buffer.cursor ≤ a.buffer.cursor + 2 * script.length := by
  induction script generalizing a with
  | nil => exact Nat.le_of_eq (pure_eq_ok.mp hrun ▸ rfl)
  | cons d script ih =>
    obtain ⟨a₁, hstep, hrun⟩ := run_cons.mp hrun
    have hone := cursor_step_le hstep
    have hrest := ih hrun
    rw [List.length_cons]
    omega

/-- Assemblers over buffers of one capacity that agree, with the same labels open. -/
structure Agrees (a c : Assembler) : Prop where
  buffer : a.buffer.Agrees c.buffer
  capacity : a.buffer.capacity = c.buffer.capacity
  targets : a.targets = c.targets
  slots : a.slots = c.slots

theorem Agrees.step (h : a.Agrees c) {d : Directive} (hstep : a.step d = .ok a') :
    ∃ c', c.step d = .ok c' ∧ a'.Agrees c' := by
  obtain ⟨effect, hbuffer, heffect⟩ := exists_effect hstep
  obtain ⟨b, targets, slots⟩ := c
  obtain ⟨hagrees, hcapacity, rfl, rfl⟩ := h
  refine ⟨_, heffect b hagrees.cursor.symm, ?_, ?_, rfl, rfl⟩
  · rw [hbuffer]
    exact Effect.agrees_apply hagrees hcapacity effect
  · rw [hbuffer, Effect.capacity_apply, Effect.capacity_apply]
    exact hcapacity

theorem Agrees.run (h : a.Agrees c) (hrun : a.run script = .ok a') :
    ∃ c', c.run script = .ok c' ∧ a'.Agrees c' := by
  induction script generalizing a c with
  | nil =>
    obtain rfl := pure_eq_ok.mp hrun
    exact ⟨c, rfl, h⟩
  | cons d script ih =>
    obtain ⟨a₁, hstep, hrun⟩ := run_cons.mp hrun
    obtain ⟨c₁, hstep', h₁⟩ := h.step hstep
    obtain ⟨c', hrun', h'⟩ := ih h₁ hrun
    exact ⟨c', run_cons.mpr ⟨c₁, hstep', hrun'⟩, h'⟩

end Assembler

namespace Buffer

variable {b b' c : Buffer} {script : Script}

theorem capacity_finish (b : Buffer) : b.finish.capacity = b.capacity := by
  unfold finish
  split <;> rfl

/-- Generating a kernel runs its script in an empty buffer and closes what that leaves. -/
theorem generate_eq_ok : b.generate script = .ok b' ↔
    ∃ a, (Assembler.start b.reset).run script = .ok a ∧ a.buffer.finish = b' := by
  simp only [generate, assemble, bind_eq_ok, pure_eq_ok, exists_exists_and_eq_and]

theorem generate_eq {a : Assembler} (h : (Assembler.start b.reset).run script = .ok a) :
    b.generate script = .ok a.buffer.finish :=
  generate_eq_ok.mpr ⟨a, h, rfl⟩

theorem capacity_generate (h : b.generate script = .ok b') : b'.capacity = b.capacity := by
  obtain ⟨a, hrun, rfl⟩ := generate_eq_ok.mp h
  obtain ⟨_, -, hadv⟩ := (Assembler.sound_start b).run hrun
  exact (capacity_finish _).trans hadv.capacity_eq

/-- A kernel is the same in every buffer of the capacity. -/
theorem kernel_generate_eq (hcapacity : b.capacity = c.capacity)
    (h : b.generate script = .ok b') :
    ∃ c', c.generate script = .ok c' ∧ b'.kernel = c'.kernel := by
  obtain ⟨a, hrun, rfl⟩ := generate_eq_ok.mp h
  have hstart : (Assembler.start b.reset).Agrees (Assembler.start c.reset) :=
    ⟨agrees_reset b c, hcapacity, rfl, rfl⟩
  obtain ⟨a', hrun', hagrees⟩ := hstart.run hrun
  exact ⟨a'.buffer.finish, generate_eq hrun', hagrees.buffer.kernel_finish⟩

end Buffer

end HeliumKernels
