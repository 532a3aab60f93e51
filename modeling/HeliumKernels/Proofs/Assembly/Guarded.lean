/-
  HeliumKernels.Proofs.Assembly.Guarded

  Loops whose start is laid out last.  The start of a low-overhead loop says
  how far to go when there is nothing to do, so its slot is reserved before
  the body and bound behind it.  In the code of a kernel without a fatal
  fault the start stands right before the body, the end right behind it, and
  each leads to where the other leaves off.
-/
import HeliumKernels.Proofs.Assembly.Exposure

namespace HeliumKernels

/-- Lanes that a loop masks in its last round, if it does. -/
def loopLanes : Bool → Option LaneSize
  | true => some .b32
  | false => none

/-- Code holds a loop: its start at `p` with the body right behind, and its end at `q`.
    A guarded start skips the loop if the count is zero. -/
structure LoopAt (code : Array UInt16) (rn : Reg) (tail guarded : Bool) (p q : Nat) : Prop where
  start : decodeAt code p =
    .ok ⟨.loopStart rn (loopLanes tail) (if guarded then some (gap p (q + 2)) else none), .wide⟩
  close : decodeAt code q = .ok ⟨.loopEnd (-gap q (p + 2)) tail, .wide⟩

namespace Script

/-- A loop between two pieces of a script, with a start that is filled in behind it. -/
def guarded (entry body : Label) (rn : Reg) (tail : Bool) (before round after : Script) : Script :=
  before ++ (.reserve entry .wide :: ((.mark body :: (round ++ [.loopEnd body tail])) ++
    (.bind entry (.loopStart rn (loopLanes tail)) :: after)))

section Guarded

variable {entry body : Label} {rn : Reg} {tail : Bool} {before round after : Script}

theorem length_guarded : (guarded entry body rn tail before round after).length =
    before.length + round.length + after.length + 4 := by
  simp only [guarded, List.length_append, List.length_cons, List.length_nil]
  omega

/-- Only the instructions around the loop and in its body have to assemble. -/
theorem quiet_guarded (hbefore : before.Straight) (hround : round.Straight)
    (hafter : after.Straight) (hassembles : (before ++ (round ++ after)).Assembles) :
    ∀ d ∈ guarded entry body rn tail before round after, ∀ cursor,
      d.remarks cursor = d.notes := by
  refine Assembles.remarks_eq (fun i hi => hassembles i ?_) fun label i hi => ?_
  · simpa [guarded] using hi
  · have hnone : ∀ s : Script, s.Straight → .target label i ∉ s :=
      fun s hs hmem => Bool.false_ne_true (hs _ hmem)
    simp [guarded, hnone _ hbefore, hnone _ hround, hnone _ hafter] at hi

theorem notes_guarded (hbefore : before.Straight) (hround : round.Straight)
    (hafter : after.Straight) :
    (guarded entry body rn tail before round after).flatMap Directive.notes = [] := by
  simp [guarded, hbefore.closed.notes, hround.closed.notes, hafter.closed.notes, Directive.notes]

end Guarded

end Script

namespace Assembler

variable {a a' final : Assembler} {ws : List Word}

/-- Reserving a wide slot moves the cursor by two unless the buffer is full. -/
theorem Sound.cursor_reserve (h : a.Sound ws) {label : Label}
    (hstep : a.step (.reserve label .wide) = .ok a') (hroom : a'.buffer.exhausted = false) :
    a'.buffer.cursor = a.buffer.cursor + 2 ∧ a'.targets = a.targets ∧
      a'.slots.lookup label = some ⟨a.buffer.cursor, .wide⟩ := by
  obtain rfl := Except.ok.inj hstep
  obtain ⟨_, -, -, hcases⟩ := h.append [] (.nop .wide) h.targets_le
  rw [List.append_nil] at hcases
  refine ⟨?_, rfl, ?_⟩
  · rcases hcases with ⟨hfull, -⟩ | ⟨-, -, hcursor⟩
    · exact absurd (hroom.symm.trans hfull) Bool.false_ne_true
    · exact hcursor
  · show List.lookup label ((label, _) :: _) = _
    rw [List.lookup_cons, beq_self_eq_true]

/-- Binding a slot leaves the cursor and makes the start of the loop decode. -/
theorem Sound.decodeAt_bind (h : a.Sound ws) (hcursor : a.buffer.cursor ≤ 2 ^ 29) {label : Label}
    {rn : Reg} (hrn : rn ≠ .sp ∧ rn ≠ .pc) {tail : Option LaneSize} {p : Nat}
    (hlookup : a.slots.lookup label = some ⟨p, .wide⟩)
    (hstep : a.step (.bind label (.loopStart rn tail)) = .ok a') {after : Script}
    (hrun : a'.run after = .ok final) (hfatal : final.buffer.hasFatalFault = false) :
    decodeAt final.buffer.code p =
      .ok ⟨.loopStart rn tail (some (gap p a.buffer.cursor)), .wide⟩ ∧
      a'.buffer.cursor = a.buffer.cursor := by
  -- the loop start is a jump to the cursor, and every jump lands
  have hjump : a.jump? (.bind label (.loopStart rn tail)) =
      some ⟨p, a.buffer.cursor, .loopStart rn tail (some (gap p a.buffer.cursor))⟩ := by
    simp only [jump?, hlookup, Option.bind_some, Jump.bound?, hrn.1, hrn.2, or_self, ↓reduceIte]
  obtain ⟨-, ws₁, h₁, -, hlanded⟩ := h.jump hcursor hjump hstep
  obtain ⟨ws₂, hfinal, hadv⟩ := h₁.run hrun
  refine ⟨(hlanded.decodeAt_eq hadv hfinal).1 hfatal, ?_⟩
  obtain ⟨_, -, hstep⟩ := bind_eq_ok.mp hstep
  obtain ⟨_, -, hstep⟩ := bind_eq_ok.mp hstep
  rw [← pure_eq_ok.mp hstep]
  exact Buffer.cursor_patch _ _ _

end Assembler

open Assembler

/-- Where the pieces of a guarded loop stand in code. -/
structure Script.GuardedAt (code : Array UInt16) (rn : Reg) (tail : Bool)
    (before round after : Script) (p q p' : Nat) : Prop where
  before : ∃ env, Placed code [] 0 before env p
  loop : LoopAt code rn tail true p q
  round : ∃ env env', Placed code env (p + 2) round env' q
  after : ∃ env env', Placed code env (q + 2) after env' p'
  le : p' ≤ 2 ^ 29

/-- A guarded loop is laid out piece by piece in the code of a run that ends without a
    fatal fault. -/
theorem Script.exists_guardedAt {entry body : Label} {rn : Reg} {tail : Bool}
    {before round after : Script} (hrn : rn ≠ .sp ∧ rn ≠ .pc) (hbefore : before.Straight)
    (hround : round.Straight) (hafter : after.Straight)
    (hassembles : (before ++ (round ++ after)).Assembles)
    (hlength : 2 * (guarded entry body rn tail before round after).length ≤ 2 ^ 29) {b : Buffer}
    {final : Assembler}
    (hrun : (start b.reset).run (guarded entry body rn tail before round after) = .ok final)
    (hfatal : final.buffer.hasFatalFault = false) :
    ∃ p q, GuardedAt final.buffer.code rn tail before round after p q final.buffer.code.size := by
  have hloop : Closed (.mark body :: (round ++ [.loopEnd body tail])) [] :=
    hround.closed.loop rfl (by simp [hround.labels_eq_nil])
  simp only [assembles_append] at hassembles
  obtain ⟨hassembles₁, hassembles₂, hassembles₃⟩ := hassembles
  have hassemblesLoop : Assembles (.mark body :: (round ++ [.loopEnd body tail])) := by
    rw [assembles_cons rfl, assembles_append, assembles_cons rfl]
    exact ⟨hassembles₂, assembles_nil⟩
  rw [length_guarded] at hlength
  have hstart := sound_start b
  have hzero : (start b.reset).buffer.cursor = 0 := rfl
  -- the states before the slot, behind it, behind the loop, and behind the start that fills it
  obtain ⟨a₁, hrun₁, hon₁⟩ := run_append.mp hrun
  obtain ⟨a₂, hstep₂, hon₂⟩ := run_cons.mp hon₁
  obtain ⟨a₃, hrun₃, hon₃⟩ := run_append.mp hon₂
  obtain ⟨a₄, hstep₄, hrun₄⟩ := run_cons.mp hon₃
  obtain ⟨ws₁, h₁, -⟩ := hstart.run hrun₁
  obtain ⟨ws₂, h₂, -⟩ := h₁.step hstep₂
  obtain ⟨ws₃, h₃, -⟩ := h₂.run hrun₃
  obtain ⟨ws₄, h₄, -⟩ := h₃.step hstep₄
  obtain ⟨_, hfinal, hadv⟩ := h₂.run hon₂
  obtain ⟨hcursor₂, -, hlookup⟩ := h₁.cursor_reserve hstep₂ (h₂.not_exhausted hadv hfatal)
  have hcursor₁ := cursor_run_le hrun₁
  have hcursor₃ := cursor_run_le hrun₃
  simp only [List.length_append, List.length_cons, List.length_nil] at hcursor₃
  -- the slot is still open behind the body, which mentions no slot
  rw [← slots_run hloop.backward hrun₃] at hlookup
  obtain ⟨hdecode, hcursor₄⟩ :=
    h₃.decodeAt_bind (by omega) hrn hlookup hstep₄ hrun₄ hfatal
  -- each piece is placed in the code that is there at the end
  have hplaced₁ := hstart.placed_before hassembles₁ hbefore.closed.backward (by omega) hrun₁ hon₁
    hfatal
  have hplaced₃ := h₂.placed_before hassemblesLoop hloop.backward
    (by simp only [List.length_append, List.length_cons, List.length_nil]; omega) hrun₃ hon₃ hfatal
  have hplaced₄ := h₄.placed hassembles₃ hafter.closed.backward (by omega) hrun₄ hfatal
  have hcursor := cursor_run_le hrun₄
  obtain ⟨env, q, hbody, hclose, hend⟩ :=
    hplaced₃.loop rfl (label?_ne_of_not_mem (by simp [hround.labels_eq_nil]))
  -- both jumps are wide, so they are two half-words long
  have hwide : (Jump.loopEnd q a₂.buffer.cursor tail).instruction.width.halfWords = 2 := rfl
  rw [hwide] at hend
  rw [hcursor₂] at hbody hclose
  rw [hend] at hdecode
  rw [hcursor₄, hend] at hplaced₄
  have hsize : final.buffer.code.size = final.buffer.cursor := hfinal.buffer.size_code
  rw [hsize]
  exact ⟨a₁.buffer.cursor, q, ⟨_, hplaced₁⟩, ⟨hdecode, hclose⟩, ⟨_, _, hbody⟩, ⟨_, _, hplaced₄⟩,
    by omega⟩

/-- A short guarded loop is generated in every buffer.  Its pieces are laid out unless a
    fatal fault is recorded, and where there is room for all of it no fault is. -/
theorem Script.exists_generate_guarded (entry body : Label) {rn : Reg} (tail : Bool)
    {before round after : Script} (hrn : rn ≠ .sp ∧ rn ≠ .pc) (hbefore : before.Straight)
    (hround : round.Straight) (hafter : after.Straight)
    (hassembles : (before ++ (round ++ after)).Assembles)
    (hlength : 2 * (before.length + round.length + after.length + 4) ≤ Jump.reach) (b : Buffer) :
    ∃ b', b.generate (guarded entry body rn tail before round after) = .ok b' ∧
      (b'.hasFatalFault = false →
        ∃ p q, GuardedAt b'.code rn tail before round after p q b'.code.size) ∧
      (2 * (before.length + round.length + after.length + 4) ≤ b.capacity → b'.faults = []) := by
  have hreach : Jump.reach = 2045 := rfl
  have htame : Tame (guarded entry body rn tail before round after) :=
    tame_guardedLoop entry body hbefore hround hafter hrn hlength
  obtain ⟨a, _, hrun, hgenerate, -, -, -, hroom⟩ :=
    htame.exists_generate (quiet_guarded hbefore hround hafter hassembles) b
  refine ⟨a.buffer.finish, hgenerate, fun hfatal => ?_, fun hfits => ?_⟩
  · rw [Buffer.hasFatalFault, Buffer.faults_finish] at hfatal
    rw [Buffer.finish_of_not_fatal hfatal]
    exact exists_guardedAt hrn hbefore hround hafter hassembles (by rw [length_guarded]; omega) hrun
      hfatal
  · rw [Buffer.faults_finish, (hroom (by rw [length_guarded]; exact hfits)).2,
      notes_guarded hbefore hround hafter]

/-- A short guarded loop exposes one kernel, free of faults, that holds all its pieces and
    nothing else. -/
theorem Script.exists_exposes_guarded (entry body : Label) {rn : Reg} (tail : Bool)
    {before round after : Script} (hrn : rn ≠ .sp ∧ rn ≠ .pc) (hbefore : before.Straight)
    (hround : round.Straight) (hafter : after.Straight)
    (hassembles : (before ++ (round ++ after)).Assembles)
    (hlength : 2 * (before.length + round.length + after.length + 4) ≤ Jump.reach) :
    ∃ kernel : Kernel, (guarded entry body rn tail before round after).Exposes kernel ∧
      kernel.faults = [] ∧
      ∃ p q, GuardedAt kernel.code rn tail before round after p q kernel.code.size := by
  obtain ⟨kernel, hexposes, -⟩ :=
    (tame_guardedLoop entry body hbefore hround hafter hrn hlength).exists_exposes
  -- the kernel shows in a buffer that has room for it
  let roomy : Buffer :=
    ⟨#[], 2 * (before.length + round.length + after.length + 4), 0, [], false⟩
  obtain ⟨b', hgenerate, hplaced, hfaults⟩ :=
    exists_generate_guarded entry body tail hrn hbefore hround hafter hassembles hlength roomy
  obtain ⟨b'', hgenerate', hwhole, hfull⟩ :=
    hexposes roomy (show 2 ≤ 2 * (before.length + round.length + after.length + 4) by omega)
  obtain rfl := Except.ok.inj (hgenerate.symm.trans hgenerate')
  have hnone := hfaults (Nat.le_refl _)
  -- a kernel that outgrew this buffer would have left a fault
  have hfits : kernel.code.size ≤ roomy.capacity := by
    by_contra hlt
    have hcount := (hfull (Nat.not_le.mp hlt)).2
    rw [hnone] at hcount
    cases hcount
  have hsame := hwhole hfits
  refine ⟨kernel, hexposes, hsame ▸ hnone, ?_⟩
  rw [← hsame]
  exact hplaced (by rw [Buffer.hasFatalFault, hnone]; rfl)

end HeliumKernels
