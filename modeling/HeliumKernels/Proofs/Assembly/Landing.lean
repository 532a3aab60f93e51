/-
  HeliumKernels.Proofs.Assembly.Landing

  Branches land where they were sent.  A directive that refers to a label
  asks for a jump from one position to another; `Assembler.jump?` gives the
  jump and the instruction that makes it.  In a kernel without a fatal
  fault the instruction decodes at the source and leads to the destination;
  a displacement out of reach leaves a no-op and a fatal fault.
-/
import HeliumKernels.Proofs.Assembly.Invariant

namespace HeliumKernels

/-- Byte displacement from a branch at `source` as the processor counts it. -/
def gap (source destination : Nat) : Int :=
  2 * (destination : Int) - 2 * source - 4

theorem displacement_eq {source destination : Nat} (hs : source ≤ 2 ^ 29)
    (hd : destination ≤ 2 ^ 29) :
    Buffer.displacement source destination = .ok (gap source destination) := by
  -- within the capacity neither the cut to 32 bits nor the checks of the products apply
  have hbmod : Int.bmod ((destination : Int) - source) 0x100000000 = destination - source :=
    Int.bmod_eq_of_le (by omega) (by omega)
  have hbytes : Checked.int32 (((destination : Int) - source) * 2) =
      .ok (((destination : Int) - source) * 2) := if_pos (by omega)
  have hgap : Checked.int32 (((destination : Int) - source) * 2 - 4) =
      .ok (gap source destination) := by
    rw [show ((destination : Int) - source) * 2 - 4 = gap source destination by unfold gap; omega]
    exact if_pos (by unfold gap; omega)
  simp only [Buffer.displacement, hbmod, hbytes]
  exact hgap

/-- A jump that a directive asks for, and the instruction that makes it. -/
structure Jump where
  source : Nat
  destination : Nat
  instruction : Instruction
deriving DecidableEq, Repr

namespace Jump

/-- Whether the displacement is within the reach of the instruction. -/
def fits (j : Jump) : Bool :=
  match j.instruction with
  | .branch cond offset width => Instruction.branchFits cond width offset
  | .loopStart _ _ (some exit) => 0 ≤ exit && exit ≤ Instruction.loopRange
  | .loopEnd back _ => 0 ≤ back && back ≤ Instruction.loopRange
  | _ => false

/-- Branch from `source` to `destination`, narrow if that reaches. -/
def branch (source destination : Nat) (cond : Condition) : Jump :=
  let offset := gap source destination
  let width := if Instruction.branchFits cond .narrow offset then Width.narrow else .wide
  ⟨source, destination, .branch cond offset width⟩

/-- Loop end at `source` that goes back to `destination`. -/
def loopEnd (source destination : Nat) (tailPredicated : Bool) : Jump :=
  ⟨source, destination, .loopEnd (-gap source destination) tailPredicated⟩

/-- Slot at `source`, bound when the cursor is at `destination`.  A loop end has
    no forward displacement, and a loop count is a general register. -/
def bound? (source destination : Nat) : Fixup → Option Jump
  | .branch cond width => some ⟨source, destination, .branch cond (gap source destination) width⟩
  | .loopStart rn tail =>
    if rn = .sp ∨ rn = .pc then none
    else some ⟨source, destination, .loopStart rn tail (some (gap source destination))⟩
  | .loopEnd _ => none

end Jump

/-- Label and jump of a directive that goes back to a target. -/
def Directive.backward? : Directive → Option (Label × (Nat → Nat → Jump))
  | .branchTo label cond => some (label, fun source target => .branch source target cond)
  | .loopEnd label tailPredicated =>
    some (label, fun source target => .loopEnd source target tailPredicated)
  | _ => none

/-- The jump a directive asks for. -/
def Assembler.jump? (a : Assembler) : Directive → Option Jump
  | .branchTo label cond =>
    (a.targets.lookup label).map fun target => .branch a.buffer.cursor target cond
  | .loopEnd label tailPredicated =>
    (a.targets.lookup label).map fun target => .loopEnd a.buffer.cursor target tailPredicated
  | .bind label fixup =>
    (a.slots.lookup label).bind fun slot => Jump.bound? slot.position a.buffer.cursor fixup
  | _ => none

theorem Assembler.jump?_of_backward {d : Directive} {label : Label} {jump : Nat → Nat → Jump}
    (hd : d.backward? = some (label, jump)) (a : Assembler) :
    a.jump? d = (a.targets.lookup label).map (jump a.buffer.cursor) := by
  cases d with
  | branchTo | loopEnd =>
    obtain ⟨rfl, rfl⟩ := Prod.mk.inj (Option.some.inj hd)
    rfl
  | _ => cases hd

/-! ## Instructions of jumps -/

namespace Jump

/-- An instruction that leads from source to destination, and that assembles
    exactly if the displacement is in reach. -/
structure Faithful (j : Jump) : Prop where
  leads : ∃ offset, j.instruction.meaning.branchOffset? = some offset ∧
    2 * (j.source : Int) + offset = 2 * j.destination
  assembles : j.fits = true → ∃ word, j.instruction.assemble = .ok word
  refused : j.fits = false →
    ∃ offset low high, j.instruction.assemble = .error (.branchOutOfRange offset low high)

theorem gap_even (source destination : Nat) : gap source destination % 2 = 0 := by
  unfold gap
  omega

theorem assembleBranch_of_fits {cond : Condition} {width : Width} {offset : Int}
    (h : Instruction.branchFits cond width offset = true) :
    ∃ word, Instruction.assembleBranch cond offset width = .ok word := by
  simp only [Instruction.branchFits, Bool.and_eq_true, decide_eq_true_eq, beq_iff_eq] at h
  simp only [Instruction.assembleBranch]
  rw [if_neg (by omega), if_neg (by omega)]
  split <;> exact ⟨_, rfl⟩

theorem assembleBranch_of_not_fits {cond : Condition} {width : Width} {offset : Int}
    (heven : offset % 2 = 0) (h : Instruction.branchFits cond width offset = false) :
    ∃ low high, Instruction.assembleBranch cond offset width =
      .error (.branchOutOfRange offset low high) := by
  simp only [Instruction.branchFits, heven, beq_self_eq_true, Bool.and_true, Bool.and_eq_false_iff,
    decide_eq_false_iff_not] at h
  simp only [Instruction.assembleBranch]
  rw [if_neg (by omega), if_pos (by omega)]
  exact ⟨_, _, rfl⟩

theorem loopOffset_of_fits {offset : Int} (heven : offset % 2 = 0)
    (h : (decide (0 ≤ offset) && decide (offset ≤ Instruction.loopRange)) = true) :
    ∃ field, Operand.loopOffset offset = .ok field := by
  simp only [Bool.and_eq_true, decide_eq_true_eq] at h
  unfold Operand.loopOffset
  rw [if_neg (by omega), if_pos h]
  exact ⟨_, rfl⟩

theorem loopOffset_of_not_fits {offset : Int} (heven : offset % 2 = 0)
    (h : (decide (0 ≤ offset) && decide (offset ≤ Instruction.loopRange)) = false) :
    ∃ low high, Operand.loopOffset offset = .error (.branchOutOfRange offset low high) := by
  rw [← Bool.decide_and, decide_eq_false_iff_not] at h
  unfold Operand.loopOffset
  rw [if_neg (by omega), if_neg h]
  exact ⟨_, _, rfl⟩

theorem faithful_branch (source destination : Nat) (cond : Condition) (width : Width) :
    Faithful ⟨source, destination, .branch cond (gap source destination) width⟩ where
  leads := ⟨_, rfl, by simp only [gap]; omega⟩
  assembles := assembleBranch_of_fits
  refused := fun h => by
    obtain ⟨low, high, herr⟩ := assembleBranch_of_not_fits (gap_even source destination) h
    exact ⟨_, low, high, herr⟩

theorem width_branch (source destination : Nat) (cond : Condition) :
    (branch source destination cond).instruction.width = .narrow ↔
      Instruction.branchFits cond .narrow (gap source destination) = true := by
  show (if _ then Width.narrow else Width.wide) = .narrow ↔ _
  split <;> simp [*]

theorem faithful_loopEnd (source destination : Nat) (tailPredicated : Bool) :
    Faithful (loopEnd source destination tailPredicated) where
  leads := ⟨_, rfl, by simp only [loopEnd, gap]; omega⟩
  assembles := fun h => by
    have heven := gap_even source destination
    obtain ⟨field, hfield⟩ := loopOffset_of_fits (by omega) h
    exact ⟨_, bind_eq_ok.mpr ⟨field, hfield, rfl⟩⟩
  refused := fun h => by
    have heven := gap_even source destination
    obtain ⟨low, high, herr⟩ := loopOffset_of_not_fits (by omega) h
    refine ⟨-gap source destination, low, high, ?_⟩
    simp only [loopEnd, Instruction.assemble, herr]
    rfl

theorem faithful_loopStart (source destination : Nat) {rn : Reg} (tail : Option LaneSize)
    (hrn : ¬(rn = .sp ∨ rn = .pc)) :
    Faithful ⟨source, destination, .loopStart rn tail (some (gap source destination))⟩ where
  leads := ⟨_, rfl, by simp only [gap]; omega⟩
  assembles := fun h => by
    obtain ⟨field, hfield⟩ := loopOffset_of_fits (gap_even source destination) h
    simp only [Instruction.assemble, Instruction.assembleLoopStart, Operand.general, if_neg hrn,
      hfield]
    exact ⟨_, rfl⟩
  refused := fun h => by
    obtain ⟨low, high, herr⟩ := loopOffset_of_not_fits (gap_even source destination) h
    refine ⟨gap source destination, low, high, ?_⟩
    simp only [Instruction.assemble, Instruction.assembleLoopStart, Operand.general, if_neg hrn,
      herr]
    rfl

theorem faithful_of_bound? {source destination : Nat} {fixup : Fixup} {j : Jump}
    (h : bound? source destination fixup = some j) :
    j.Faithful ∧ j.source = source ∧ j.instruction = fixup.fill (gap source destination) := by
  cases fixup with
  | branch cond width =>
    obtain rfl := Option.some.inj h
    exact ⟨faithful_branch source destination cond width, rfl, rfl⟩
  | loopStart rn tail =>
    simp only [bound?, Option.ite_none_left_eq_some, Option.some.injEq] at h
    obtain ⟨hrn, rfl⟩ := h
    exact ⟨faithful_loopStart source destination tail hrn, rfl, rfl⟩
  | loopEnd => cases h

end Jump

/-! ## One jump -/

namespace Buffer

variable {b : Buffer} {target : Nat}

/-- A branch in reach is emitted; otherwise a no-op stands in and a fatal fault is recorded. -/
theorem branchTo_eq (hs : b.cursor ≤ 2 ^ 29) (ht : target ≤ 2 ^ 29) (cond : Condition) :
    let j := Jump.branch b.cursor target cond
    ∃ fault : Fault, fault.isFatal = true ∧ b.branchTo target cond =
      .ok (if j.fits then b.emit j.instruction else (b.record fault).append (.nop .wide)) := by
  intro j
  refine ⟨.displacementOverflow b.cursor target (gap b.cursor target) "Branch", rfl, ?_⟩
  simp only [branchTo, displacement_eq hs ht, j, Jump.branch, Jump.fits]
  by_cases hnarrow : Instruction.branchFits cond .narrow (gap b.cursor target) = true
  · simp only [hnarrow, ↓reduceIte]
    exact if_pos hnarrow
  · by_cases hwide : Instruction.branchFits cond .wide (gap b.cursor target) = true
    · simp only [hnarrow, hwide, Bool.false_eq_true, ↓reduceIte]
      exact (if_neg hnarrow).trans (if_pos hwide)
    · simp only [hnarrow, hwide, Bool.false_eq_true, ↓reduceIte]
      exact (if_neg hnarrow).trans (if_neg hwide)

/-- A loop end in reach is emitted; otherwise as for a branch. -/
theorem loopEnd_eq (hs : b.cursor ≤ 2 ^ 29) (ht : target ≤ 2 ^ 29) (tailPredicated : Bool) :
    let j := Jump.loopEnd b.cursor target tailPredicated
    ∃ fault : Fault, fault.isFatal = true ∧ b.loopEnd target tailPredicated =
      .ok (if j.fits then b.emit j.instruction else (b.record fault).append (.nop .wide)) := by
  intro j
  refine ⟨.displacementOverflow b.cursor target (gap b.cursor target) "LoopEnd", rfl, ?_⟩
  have hback : Checked.int32 (-gap b.cursor target) = .ok (-gap b.cursor target) :=
    if_pos (by unfold gap; omega)
  simp only [loopEnd, displacement_eq hs ht, j, Jump.loopEnd, Jump.fits, ← Bool.decide_and,
    decide_eq_true_eq]
  show (Checked.int32 (-gap b.cursor target) >>= _) = _
  rw [hback]
  show (if _ then _ else _) = _
  split
  · rfl
  · rfl

end Buffer

namespace Assembler

variable {a a' : Assembler} {ws : List Word}

/-- A directive that goes back resolves its label and appends the instruction of
    the jump, or a no-op after a fatal fault. -/
theorem Sound.step_backward (h : a.Sound ws) (hcursor : a.buffer.cursor ≤ 2 ^ 29) {d : Directive}
    {label : Label} {jump : Nat → Nat → Jump} (hd : d.backward? = some (label, jump)) :
    (a.targets.lookup label = none ∧ a.step d = .error .undefinedLabel) ∨
    ∃ target fault, a.targets.lookup label = some target ∧ fault.isFatal = true ∧
      (jump a.buffer.cursor target).Faithful ∧
      (jump a.buffer.cursor target).source = a.buffer.cursor ∧
      a.step d = .ok ⟨if (jump a.buffer.cursor target).fits
          then a.buffer.emit (jump a.buffer.cursor target).instruction
          else (a.buffer.record fault).append (.nop .wide),
        a.targets.filter fun entry => entry.1 != label, a.slots⟩ := by
  -- targets have been passed, so the displacement is in range
  have hlabel : ∀ target, a.targets.lookup label = some target → target ≤ 2 ^ 29 :=
    fun target ht => Nat.le_trans (h.targets_le _ (lookup_mem ht)) hcursor
  cases d with
  | branchTo l cond =>
    obtain ⟨rfl, rfl⟩ := Prod.mk.inj (Option.some.inj hd)
    cases hlookup : a.targets.lookup l with
    | none => exact .inl ⟨rfl, bind_eq_error.mpr (.inl (resolve_of_lookup_none hlookup))⟩
    | some target =>
      obtain ⟨fault, hfault, heq⟩ := Buffer.branchTo_eq hcursor (hlabel target hlookup) cond
      refine .inr ⟨target, fault, rfl, hfault, Jump.faithful_branch _ _ _ _, rfl, ?_⟩
      exact bind_eq_ok.mpr ⟨_, resolve_of_lookup hlookup, bind_eq_ok.mpr ⟨_, heq, rfl⟩⟩
  | loopEnd l tailPredicated =>
    obtain ⟨rfl, rfl⟩ := Prod.mk.inj (Option.some.inj hd)
    cases hlookup : a.targets.lookup l with
    | none => exact .inl ⟨rfl, bind_eq_error.mpr (.inl (resolve_of_lookup_none hlookup))⟩
    | some target =>
      obtain ⟨fault, hfault, heq⟩ :=
        Buffer.loopEnd_eq hcursor (hlabel target hlookup) tailPredicated
      refine .inr ⟨target, fault, rfl, hfault, Jump.faithful_loopEnd _ _ _, rfl, ?_⟩
      exact bind_eq_ok.mpr ⟨_, resolve_of_lookup hlookup, bind_eq_ok.mpr ⟨_, heq, rfl⟩⟩
  | _ => cases hd

/-- What a jump leaves behind: its instruction for good, or a fatal fault; out of
    reach, the slot keeps a no-op if there was room for one. -/
def Landed (a : Assembler) (ws : List Word) (j : Jump) : Prop :=
  (j.fits = true ∧ ∃ word, j.instruction.assemble = .ok word ∧ a.Settled ws j.source word) ∨
  (a.buffer.hasFatalFault = true ∧ (j.fits = false →
    (∃ width, a.Settled ws j.source (.nop width)) ∨
      (a.buffer.exhausted = true ∧ j.source = a.buffer.cursor)))

/-- Appending the instruction of a jump at the cursor, or a no-op after a fault. -/
theorem Sound.append_jump (h : a.Sound ws) {j : Jump} (hj : j.Faithful)
    (hsource : j.source = a.buffer.cursor) {fault : Fault} (hfault : fault.isFatal = true)
    {targets : List (Label × Nat)} (htargets : ∀ t ∈ targets, t.2 ≤ a.buffer.cursor) :
    let b := if j.fits then a.buffer.emit j.instruction
      else (a.buffer.record fault).append (.nop .wide)
    ∃ ws', Sound ⟨b, targets, a.slots⟩ ws' ∧ Advances a ws ⟨b, targets, a.slots⟩ ws' ∧
      Landed ⟨b, targets, a.slots⟩ ws' j ∧ (b.hasFatalFault = false →
        b.cursor = a.buffer.cursor + j.instruction.width.halfWords) := by
  intro b
  cases hfits : j.fits with
  | true =>
    -- in reach the instruction assembles, so the word appended is its own and not a stand-in
    obtain ⟨word, hword⟩ := hj.assembles hfits
    obtain ⟨faults, word', heq, hsame⟩ := Buffer.emit_eq_append a.buffer j.instruction
    obtain rfl := hsame word hword
    have hb : b = { a.buffer with faults := a.buffer.faults ++ faults }.append word' := by
      simp only [b, hfits, ↓reduceIte, heq]
    obtain ⟨ws', hs, hadv, hcases⟩ := h.append faults word' htargets
    rw [← hb] at hs hadv hcases
    refine ⟨ws', hs, hadv, ?_⟩
    rcases hcases with ⟨hfull, -⟩ | ⟨hsettled, -, hcursor⟩
    · have hfatal := hs.buffer.fatal_of_exhausted hfull
      exact ⟨.inr ⟨hfatal, fun hn => by simp [hfits] at hn⟩, fun hn => by simp [hfatal] at hn⟩
    · rw [(Instruction.roundTrips_of_assemble hword).width_eq] at hcursor
      exact ⟨.inl ⟨hfits, word', hword, hsource ▸ hsettled⟩, fun _ => hcursor⟩
  | false =>
    -- out of reach the fault comes first, and the no-op may still find the buffer full
    have hb : b = { a.buffer with faults := a.buffer.faults ++ [fault] }.append (.nop .wide) := by
      simp only [b, hfits, Bool.false_eq_true, ↓reduceIte]
      rfl
    obtain ⟨ws', hs, hadv, hcases⟩ := h.append [fault] (.nop .wide) htargets
    have hfatal : b.hasFatalFault = true := by
      rw [hb]
      exact Buffer.hasFatalFault_of_prefix (Buffer.faults_append _ _)
        (Buffer.hasFatalFault_record (b := a.buffer) hfault)
    rw [← hb] at hs hadv hcases
    refine ⟨ws', hs, hadv, .inr ⟨hfatal, fun _ => ?_⟩, fun hn => by simp [hfatal] at hn⟩
    rcases hcases with ⟨hfull, hcursor⟩ | ⟨hsettled, -, -⟩
    · exact .inr ⟨hfull, hsource.trans hcursor.symm⟩
    · exact .inl ⟨.wide, hsource ▸ hsettled⟩

theorem Sound.slot_le (h : a.Sound ws) {label : Label} {slot : Slot}
    (hlookup : a.slots.lookup label = some slot) : slot.position ≤ a.buffer.cursor := by
  rcases h.slots_open _ (lookup_mem hlookup) with hword | ⟨-, hposition⟩
  · rw [← h.buffer.span_eq]
    exact Nat.le_of_lt (Spelling.lt_span hword)
  · exact Nat.le_of_eq hposition

/-- A directive that goes back makes its jump land. -/
theorem Sound.jump_backward (h : a.Sound ws) (hcursor : a.buffer.cursor ≤ 2 ^ 29) {d : Directive}
    {label : Label} {jump : Nat → Nat → Jump} (hd : d.backward? = some (label, jump))
    (hstep : a.step d = .ok a') :
    ∃ target, a.targets.lookup label = some target ∧
      a'.targets = (a.targets.filter fun entry => entry.1 != label) ∧ a'.slots = a.slots ∧
      (jump a.buffer.cursor target).source = a.buffer.cursor ∧
      (jump a.buffer.cursor target).Faithful ∧
      ∃ ws', a'.Sound ws' ∧ Advances a ws a' ws' ∧ a'.Landed ws' (jump a.buffer.cursor target) ∧
        (a'.buffer.hasFatalFault = false → a'.buffer.cursor =
          a.buffer.cursor + (jump a.buffer.cursor target).instruction.width.halfWords) := by
  rcases h.step_backward hcursor hd with ⟨-, herr⟩ | ⟨target, fault, hlookup, hfault, hj, hsource, hok⟩
  · rw [herr] at hstep
    cases hstep
  · obtain rfl := Except.ok.inj (hok.symm.trans hstep)
    exact ⟨target, hlookup, rfl, rfl, hsource, hj,
      h.append_jump hj hsource hfault (lt_of_mem_filter h.targets_le)⟩

/-- The directive of a jump makes it land. -/
theorem Sound.jump (h : a.Sound ws) (hcursor : a.buffer.cursor ≤ 2 ^ 29) {d : Directive} {j : Jump}
    (hj : a.jump? d = some j) (hstep : a.step d = .ok a') :
    j.Faithful ∧ ∃ ws', a'.Sound ws' ∧ Advances a ws a' ws' ∧ a'.Landed ws' j := by
  have hback : ∀ label jump, d.backward? = some (label, jump) →
      j.Faithful ∧ ∃ ws', a'.Sound ws' ∧ Advances a ws a' ws' ∧ a'.Landed ws' j := by
    intro label jump hd
    rw [jump?_of_backward hd] at hj
    obtain ⟨target, hlookup, rfl⟩ := Option.map_eq_some_iff.mp hj
    obtain ⟨target', hlookup', -, -, -, hfaithful, ws', hs, hadv, hlanded, -⟩ :=
      h.jump_backward hcursor hd hstep
    obtain rfl := Option.some.inj (hlookup.symm.trans hlookup')
    exact ⟨hfaithful, ws', hs, hadv, hlanded⟩
  cases d with
  | branchTo label cond => exact hback label _ rfl
  | loopEnd label tailPredicated => exact hback label _ rfl
  | bind label fixup =>
    obtain ⟨slot, hlookup, hbound⟩ := Option.bind_eq_some_iff.mp hj
    obtain ⟨hfaithful, hsource, hinstruction⟩ := Jump.faithful_of_bound? hbound
    obtain ⟨⟨slot', slots⟩, hresolve, hstep⟩ := bind_eq_ok.mp hstep
    obtain ⟨hlookup', -⟩ := resolve_eq_ok hresolve
    obtain rfl := Option.some.inj (hlookup.symm.trans hlookup')
    have hslot := h.slot_le hlookup
    -- a slot lies at or before the cursor, so its displacement is the gap between them
    obtain ⟨offset, hoffset, hstep⟩ := bind_eq_ok.mp hstep
    rw [displacement_eq (by omega) hcursor] at hoffset
    obtain rfl := Except.ok.inj hoffset
    obtain rfl := pure_eq_ok.mp hstep
    rw [← hinstruction]
    obtain ⟨ws', hs, hadv, hcases⟩ := h.patch hresolve j.instruction
    refine ⟨hfaithful, ws', hs, hadv, ?_⟩
    cases hfits : j.fits with
    | true =>
      obtain ⟨word, hword⟩ := hfaithful.assembles hfits
      rcases hcases with ⟨hfatal | ⟨e, herr, -⟩, -⟩ | ⟨word', hword', hsettled⟩
      · exact .inr ⟨hfatal, fun hn => by simp [hfits] at hn⟩
      · rw [hword] at herr
        cases herr
      · exact .inl ⟨hfits, word', hword', hsource ▸ hsettled⟩
    | false =>
      -- the only refusal is for the displacement, and that is a fatal fault
      obtain ⟨offset, low, high, hrefused⟩ := hfaithful.refused hfits
      rcases hcases with ⟨hbad, hkept⟩ | ⟨word, hword, -⟩
      · refine .inr ⟨?_, fun _ => ?_⟩
        · rcases hbad with hfatal | ⟨e, herr, hrange, -⟩
          · exact hfatal
          · rw [hrefused] at herr
            exact absurd (Except.error.inj herr).symm (hrange offset low high)
        · rw [hsource]
          exact hkept.imp (fun hsettled => ⟨slot.width, hsettled⟩) id
      · rw [hrefused] at hword
        cases hword
  | _ => cases hj

/-! ## Runs -/

/-- Within range the only way for a directive to stop is an undefined label. -/
theorem Sound.step_error (h : a.Sound ws) (hcursor : a.buffer.cursor ≤ 2 ^ 29) {d : Directive}
    {e : Trap} (hstep : a.step d = .error e) : e = .undefinedLabel := by
  have hback : ∀ label jump, d.backward? = some (label, jump) → e = .undefinedLabel := by
    intro label jump hd
    rcases h.step_backward hcursor hd with ⟨-, herr⟩ | ⟨target, fault, -, -, -, -, hok⟩
    · exact (Except.error.inj (herr.symm.trans hstep)).symm
    · rw [hok] at hstep
      cases hstep
  cases d with
  | branchTo label cond => exact hback label _ rfl
  | loopEnd label tailPredicated => exact hback label _ rfl
  | bind label fixup =>
    rcases bind_eq_error.mp hstep with hresolve | ⟨⟨slot, slots⟩, hresolve, hstep⟩
    · exact resolve_eq_error hresolve
    · have hslot := h.slot_le (resolve_eq_ok hresolve).1
      rcases bind_eq_error.mp hstep with hoffset | ⟨offset, -, hb⟩
      · rw [displacement_eq (by omega) hcursor] at hoffset
        cases hoffset
      · cases hb
  | patch label i =>
    rcases bind_eq_error.mp hstep with hresolve | ⟨⟨slot, slots⟩, -, hstep⟩
    · exact resolve_eq_error hresolve
    · cases hstep
  | _ => cases hstep

theorem Sound.run_error (h : a.Sound ws) (hcapacity : a.buffer.capacity ≤ 2 ^ 29)
    {script : Script} {e : Trap} (hrun : a.run script = .error e) : e = .undefinedLabel := by
  induction script generalizing a ws with
  | nil => cases hrun
  | cons d script ih =>
    have hcursor := h.buffer.cursor_le_capacity
    rcases bind_eq_error.mp hrun with hstep | ⟨a₁, hstep, hrun⟩
    · exact h.step_error (by omega) hstep
    · obtain ⟨ws₁, h₁, hadv⟩ := h.step hstep
      exact ih h₁ (hadv.capacity_eq ▸ hcapacity) hrun

/-- A settled word is read where it stands. -/
theorem Sound.decodeAt_eq (h : a.Sound ws) {p : Nat} {word : Word} {op : Operation}
    (hword : a.Settled ws p word) (hread : word.reading = some op) :
    decodeAt a.buffer.code p = .ok ⟨op, word.width⟩ :=
  h.buffer.spells.decodeAt_eq hword.1 hread

/-- What has landed is read at the end of the run, and what was out of reach is a no-op. -/
theorem Landed.decodeAt_eq {final : Assembler} {ws' : List Word} {j : Jump} (h : a.Landed ws j)
    (hadv : Advances a ws final ws') (hfinal : final.Sound ws') :
    (final.buffer.hasFatalFault = false → decodeAt final.buffer.code j.source =
      .ok ⟨j.instruction.meaning, j.instruction.width⟩) ∧
    (j.fits = false → a.buffer.hasFatalFault = true ∧ (j.source < final.buffer.cursor →
      ∃ width, decodeAt final.buffer.code j.source = .ok ⟨.nop, width⟩)) := by
  rcases h with ⟨hfits, word, hword, hsettled⟩ | ⟨hfatal, hmissed⟩
  · have htrip := Instruction.roundTrips_of_assemble hword
    refine ⟨fun _ => ?_, fun hn => by simp [hfits] at hn⟩
    rw [← htrip.width_eq]
    exact hfinal.decodeAt_eq (hadv.settled _ _ hsettled) htrip.reading_eq
  · refine ⟨fun hnone => ?_, fun hn => ⟨hfatal, fun hlt => ?_⟩⟩
    · rw [hadv.hasFatalFault hfatal] at hnone
      cases hnone
    · rcases hmissed hn with ⟨width, hsettled⟩ | ⟨hfull, hsource⟩
      · exact ⟨_, hfinal.decodeAt_eq (hadv.settled _ _ hsettled) (Instruction.reading_nop width)⟩
      · -- nothing is appended to a full buffer, so the source stays behind the code
        have hstuck := (hadv.stuck hfull).2
        omega

/-- Every jump of a kernel lands.  In a buffer of at most `2 ^ 29` half-words the
    directives since the last reset go through unless one names a label that is
    not open.  Without a fatal fault each jump decodes at its source to an
    instruction that leads to its destination, narrow for a branch to a target
    exactly if that reaches; a displacement out of reach is on record as a fatal
    fault right after its directive and leaves a no-op. -/
theorem jumps_land (b : Buffer) (hcapacity : b.capacity ≤ 2 ^ 29) (script : Script)
    (hlabels : (start b.reset).run script ≠ .error .undefinedLabel) :
    ∃ final, (start b.reset).run script = .ok final ∧
      ∀ done d rest, script = done ++ d :: rest →
        ∃ before after, (start b.reset).run done = .ok before ∧ before.step d = .ok after ∧
          after.run rest = .ok final ∧
          ∀ j, before.jump? d = some j →
            (final.buffer.hasFatalFault = false →
              decodeAt final.buffer.code j.source =
                .ok ⟨j.instruction.meaning, j.instruction.width⟩ ∧
              ∃ offset, j.instruction.meaning.branchOffset? = some offset ∧
                2 * (j.source : Int) + offset = 2 * j.destination) ∧
            (∀ label cond, d = .branchTo label cond → (j.instruction.width = .narrow ↔
              Instruction.branchFits cond .narrow (gap j.source j.destination) = true)) ∧
            (j.fits = false → after.buffer.hasFatalFault = true ∧
              (j.source < final.buffer.cursor →
                ∃ width, decodeAt final.buffer.code j.source = .ok ⟨.nop, width⟩)) := by
  have hstart := sound_start b
  cases hrun : (start b.reset).run script with
  | error e =>
    obtain rfl := hstart.run_error hcapacity hrun
    exact absurd hrun hlabels
  | ok final =>
    refine ⟨final, rfl, ?_⟩
    rintro done d rest rfl
    obtain ⟨before, hdone, hrun⟩ := run_append.mp hrun
    obtain ⟨after, hstep, hrest⟩ := run_cons.mp hrun
    refine ⟨before, after, hdone, hstep, hrest, ?_⟩
    intro j hj
    obtain ⟨ws, hbefore, hadv⟩ := hstart.run hdone
    have hcursor : before.buffer.cursor ≤ 2 ^ 29 := by
      have hle := hbefore.buffer.cursor_le_capacity
      rw [hadv.capacity_eq] at hle
      exact Nat.le_trans hle hcapacity
    obtain ⟨hfaithful, ws₁, hafter, -, hlanded⟩ := hbefore.jump hcursor hj hstep
    obtain ⟨ws₂, hfinal, hadv₂⟩ := hafter.run hrest
    obtain ⟨hlands, hmissed⟩ := hlanded.decodeAt_eq hadv₂ hfinal
    refine ⟨fun hnone => ⟨hlands hnone, hfaithful.leads⟩, ?_, hmissed⟩
    rintro label cond rfl
    obtain ⟨target, -, rfl⟩ := Option.map_eq_some_iff.mp hj
    exact Jump.width_branch _ _ _

/-- A loop that is left in the middle: a branch backward and a slot bound forward. -/
def crossing : Script :=
  [.mark "top", .emit (.cmpReg .r0 .r1), .reserve "out" .wide, .emit (.nop .narrow),
    .branchTo "top" .al, .bind "out" (.branch .eq .wide)]

/-- Both jumps of the crossing land, over each other. -/
theorem jumps_land_crossing :
    ∃ final, (start (Buffer.reset ⟨#[], 16, 0, [], false⟩)).run crossing = .ok final ∧
      final.buffer.hasFatalFault = false ∧
      decodeAt final.buffer.code 1 = .ok ⟨.branch .eq 4, .wide⟩ ∧
      decodeAt final.buffer.code 4 = .ok ⟨.branch .al (-12), .narrow⟩ := by
  let b : Buffer := ⟨#[], 16, 0, [], false⟩
  have hrun : (start b.reset).run crossing =
      .ok ⟨⟨#[0x4288, 0xF000, 0x8002, 0xBF00, 0xE7FA], 16, 5, [], false⟩, [], []⟩ := by cbv
  have hdone : (start b.reset).run (crossing.take 5) =
      .ok ⟨⟨#[0x4288, 0xF3AF, 0x8000, 0xBF00, 0xE7FA], 16, 5, [], false⟩, [],
        [("out", ⟨1, .wide⟩)]⟩ := by cbv
  have hdone' : (start b.reset).run (crossing.take 4) =
      .ok ⟨⟨#[0x4288, 0xF3AF, 0x8000, 0xBF00], 16, 4, [], false⟩, [("top", 0)],
        [("out", ⟨1, .wide⟩)]⟩ := by cbv
  obtain ⟨final, hfinal, hjumps⟩ := jumps_land b (by decide) crossing (by simp [hrun])
  obtain rfl := Except.ok.inj (hrun.symm.trans hfinal)
  obtain ⟨before, after, hbefore, -, -, hland⟩ := hjumps (crossing.take 5) _ [] rfl
  obtain rfl := Except.ok.inj (hdone.symm.trans hbefore)
  obtain ⟨before', after', hbefore', -, -, hland'⟩ := hjumps (crossing.take 4) _ _ rfl
  obtain rfl := Except.ok.inj (hdone'.symm.trans hbefore')
  exact ⟨_, hfinal, rfl, ((hland _ rfl).1 rfl).1, ((hland' _ rfl).1 rfl).1⟩

end Assembler

end HeliumKernels
