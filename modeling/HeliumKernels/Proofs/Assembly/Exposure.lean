/-
  HeliumKernels.Proofs.Assembly.Exposure

  All or nothing.  A run in a small buffer keeps step with a run of the same
  script in a roomy one until an instruction does not fit; from then on
  nothing is appended, whatever is still marked, reserved or bound.  So what
  a tame script exposes is its one kernel if that fits, and a bare return
  with the fault of a full buffer if not.
-/
import HeliumKernels.Proofs.Assembly.Tame

namespace HeliumKernels

variable {b : Buffer}

theorem Effect.apply_append_of_room {faults : List Fault} {word : Word}
    (hroom : b.exhausted = false) (hfits : b.cursor + word.width.halfWords ≤ b.capacity) :
    ((Effect.append faults word).apply b).exhausted = false ∧
      ((Effect.append faults word).apply b).cursor = b.cursor + word.width.halfWords := by
  rw [Effect.apply, Buffer.append_of_room (b := { b with faults := b.faults ++ faults }) hroom hfits]
  exact ⟨hroom, rfl⟩

theorem Effect.apply_append_of_full {faults : List Fault} {word : Word}
    (hroom : b.exhausted = false) (hfull : b.capacity < b.cursor + word.width.halfWords) :
    ((Effect.append faults word).apply b).exhausted = true := by
  rw [Effect.apply, Buffer.append_of_full (b := { b with faults := b.faults ++ faults }) hroom hfull]
  rfl

/-- An effect does not fill a buffer that has room for two half-words. -/
theorem Effect.exhausted_apply (effect : Effect) (hroom : b.exhausted = false)
    (hfits : b.cursor + 2 ≤ b.capacity) : (effect.apply b).exhausted = false := by
  cases effect with
  | append faults word =>
    have hwidth : word.width.halfWords ≤ 2 := by cases word.width <;> decide
    exact (apply_append_of_room hroom (Nat.le_trans (Nat.add_le_add_left hwidth _) hfits)).1
  | patch slot i => exact (Buffer.exhausted_patch b slot i).trans hroom
  | record faults => exact hroom

namespace Assembler

variable {a a' c c' : Assembler} {ws vs : List Word} {d : Directive} {script : Script}

/-- A buffer with room for the whole script is never full. -/
theorem exhausted_run (hroom : a.buffer.exhausted = false)
    (hfits : a.buffer.cursor + 2 * script.length ≤ a.buffer.capacity)
    (hrun : a.run script = .ok a') : a'.buffer.exhausted = false := by
  induction script generalizing a with
  | nil => exact pure_eq_ok.mp hrun ▸ hroom
  | cons d script ih =>
    obtain ⟨a₁, hstep, hrun⟩ := run_cons.mp hrun
    rw [List.length_cons] at hfits
    have hcursor := cursor_step_le hstep
    obtain ⟨effect, hbuffer, -⟩ := exists_effect hstep
    refine ih ?_ ?_ hrun
    · rw [hbuffer]
      exact effect.exhausted_apply hroom (by omega)
    · rw [hbuffer, Effect.capacity_apply, ← hbuffer]
      omega

/-- A run compared with a run of the same script in a roomy buffer: they agree, or
    the small buffer is full and the code of the other is longer than its capacity. -/
inductive Confined (a c : Assembler) : Prop where
  | within (hbuffer : a.buffer.Agrees c.buffer) (hroom : a.buffer.exhausted = false)
      (htargets : a.targets = c.targets) (hslots : a.slots = c.slots) : Confined a c
  | outgrown (hfull : a.buffer.exhausted = true)
      (hcapacity : a.buffer.capacity < c.buffer.cursor) : Confined a c

theorem Confined.step (h : Confined a c) (ha : a.Sound ws) (hc : c.Sound vs)
    (hstep : a.step d = .ok a') (hstep' : c.step d = .ok c')
    (hroom' : c'.buffer.exhausted = false) : Confined a' c' := by
  cases h with
  | outgrown hfull hcapacity =>
    -- a full buffer stays full, and the other cursor only grows
    obtain ⟨_, -, hadv⟩ := ha.step hstep
    obtain ⟨_, -, hadv'⟩ := hc.step hstep'
    have hcursor := hadv'.cursor_le
    refine .outgrown (hadv.stuck hfull).1 ?_
    rw [hadv.capacity_eq]
    omega
  | within hbuffer hroom htargets hslots =>
    -- the cursors are equal, so both buffers see the same effect
    obtain ⟨effect, heq, heffect⟩ := exists_effect hstep'
    have hsame := heffect a.buffer hbuffer.cursor
    rw [← htargets, ← hslots, hstep] at hsame
    obtain rfl := Except.ok.inj hsame
    cases effect with
    | append faults word =>
      have hrecord := hbuffer.record faults
      have hroomy : c.buffer.exhausted = false := hbuffer.exhausted ▸ hroom
      -- the roomy buffer takes the word
      have hc' : c.buffer.cursor + word.width.halfWords ≤ c.buffer.capacity := by
        by_contra hnot
        rw [heq, Effect.apply_append_of_full hroomy (Nat.not_le.mp hnot)] at hroom'
        cases hroom'
      by_cases ha' : a.buffer.cursor + word.width.halfWords ≤ a.buffer.capacity
      · refine .within ?_ (Effect.apply_append_of_room hroom ha').1 rfl rfl
        rw [heq]
        exact hrecord.append_of_room hroom ha' hc'
      · refine .outgrown (Effect.apply_append_of_full hroom (Nat.not_le.mp ha')) ?_
        have hcursor := hbuffer.cursor
        rw [Effect.capacity_apply, heq, (Effect.apply_append_of_room hroomy hc').2]
        omega
    | patch slot i =>
      refine .within ?_ ((Buffer.exhausted_patch _ slot i).trans hroom) rfl rfl
      rw [heq]
      exact hbuffer.patch slot i
    | record faults =>
      refine .within ?_ hroom rfl rfl
      rw [heq]
      exact hbuffer.record faults

theorem Confined.run (h : Confined a c) (ha : a.Sound ws) (hc : c.Sound vs)
    (hrun : a.run script = .ok a') (hrun' : c.run script = .ok c')
    (hroom' : c'.buffer.exhausted = false) : Confined a' c' := by
  induction script generalizing a c ws vs with
  | nil =>
    obtain rfl := pure_eq_ok.mp hrun
    obtain rfl := pure_eq_ok.mp hrun'
    exact h
  | cons d script ih =>
    obtain ⟨a₁, hstep, hrun⟩ := run_cons.mp hrun
    obtain ⟨c₁, hstep', hrun'⟩ := run_cons.mp hrun'
    obtain ⟨ws₁, ha₁, -⟩ := ha.step hstep
    obtain ⟨vs₁, hc₁, -⟩ := hc.step hstep'
    obtain ⟨_, -, hadv⟩ := hc₁.run hrun'
    exact ih (h.step ha hc hstep hstep' (hadv.room hroom')) ha₁ hc₁ hrun hrun'

end Assembler

open Assembler

/-- What a script exposes in any buffer of at least the smallest capacity: one kernel
    if its code fits, and otherwise a bare return with one fault of a full buffer. -/
def Script.Exposes (script : Script) (kernel : Kernel) : Prop :=
  ∀ b : Buffer, Buffer.minCapacity ≤ b.capacity → ∃ b', b.generate script = .ok b' ∧
    (kernel.code.size ≤ b.capacity → b'.kernel = kernel) ∧
    (b.capacity < kernel.code.size → b'.code = #[Buffer.returnWord] ∧
      b'.faults.countP Fault.isCapacityExceeded = 1)

/-- A tame script exposes one kernel or nothing. -/
theorem Script.Tame.exists_exposes {s : Script} (h : s.Tame) :
    ∃ kernel : Kernel, s.Exposes kernel ∧ kernel.hasFatalFault = false := by
  -- no directive takes more than two half-words, so the whole script fits this one
  let roomy : Buffer := ⟨#[], 2 * s.length, 0, [], false⟩
  obtain ⟨c, vs, hrun', hc, hreports', hcalm', -, -⟩ := h.exists_run roomy
  have hroom' : c.buffer.exhausted = false :=
    exhausted_run (a := start roomy.reset) rfl (Nat.le_of_eq (Nat.zero_add _)) hrun'
  refine ⟨c.buffer.kernel, fun b _ => ?_, (hcalm'.hasFatalFault_eq hreports').trans hroom'⟩
  obtain ⟨a, ws, hrun, ha, hreports, hcalm, -, hcapacity⟩ := h.exists_run b
  -- the run in the given buffer is compared with that one
  have hstart : Confined (start b.reset) (start roomy.reset) :=
    .within (Buffer.agrees_reset b roomy) rfl rfl rfl
  have hsize : c.buffer.kernel.code.size = c.buffer.cursor := hc.buffer.size_code
  have hfatal := hcalm.hasFatalFault_eq hreports
  refine ⟨a.buffer.finish, Buffer.generate_eq hrun, ?_⟩
  cases hstart.run (sound_start b) (sound_start roomy) hrun hrun' hroom' with
  | within hbuffer hroom =>
    have hle := ha.buffer.cursor_le_capacity
    have hcursor := hbuffer.cursor
    refine ⟨fun _ => ?_, fun hlt => absurd hlt (by omega)⟩
    rw [Buffer.finish_of_not_fatal (hfatal.trans hroom), Buffer.kernel, Buffer.kernel,
      hbuffer.code_eq, hbuffer.faults]
  | outgrown hfull hlt =>
    refine ⟨fun hle => absurd hle (by omega), fun _ => ⟨?_, ?_⟩⟩
    · exact Buffer.code_finish_of_fatal (hfatal.trans hfull)
    · rw [Buffer.faults_finish, hreports, hfull]
      rfl

/-- A tame script whose instructions assemble: apart from a full buffer it records its
    notes, and where there is room for all of it nothing else. -/
theorem Script.Tame.exists_generate {s : Script} (h : s.Tame)
    (hquiet : ∀ d ∈ s, ∀ cursor, d.remarks cursor = d.notes) (b : Buffer) :
    ∃ a ws, (start b.reset).run s = .ok a ∧ b.generate s = .ok a.buffer.finish ∧ a.Sound ws ∧
      a.buffer.remarks = s.flatMap Directive.notes ∧
      a.buffer.faults.countP Fault.isCapacityExceeded ≤ 1 ∧
      (2 * s.length ≤ b.capacity →
        a.buffer.hasFatalFault = false ∧ a.buffer.faults = s.flatMap Directive.notes) := by
  obtain ⟨a, ws, hrun, hsound, hreports, hcalm, -, -⟩ := h.exists_run b
  have hremarks := h.remarks_eq hquiet hrun
  refine ⟨a, ws, hrun, Buffer.generate_eq hrun, hsound, hremarks, hreports.countP_le_one,
    fun hroom => ?_⟩
  have hcursor : (start b.reset).buffer.cursor = 0 := rfl
  have hfull : a.buffer.exhausted = false :=
    exhausted_run (a := start b.reset) rfl (by rw [hcursor, Nat.zero_add]; exact hroom) hrun
  refine ⟨(hcalm.hasFatalFault_eq hreports).trans hfull, ?_⟩
  -- no fault is that of a full buffer, so the remarks are all there are
  have hnone : ∀ fault ∈ a.buffer.faults, ¬fault.isCapacityExceeded = true :=
    List.countP_eq_zero.mp (hreports.trans (by rw [hfull]; rfl))
  rw [← hremarks, Buffer.remarks, List.filter_eq_self.mpr]
  simpa using hnone

/-- A short closed script whose instructions assemble, as above; it is placed from
    zero on. -/
theorem Script.Closed.exists_generate {s : Script} {faults : List Fault} (h : s.Closed faults)
    (hassembles : s.Assembles) (hsoft : ∀ fault ∈ faults, fault.isFatal = false)
    (hlength : 2 * s.length ≤ Jump.reach) (b : Buffer) :
    ∃ b', b.generate s = .ok b' ∧ b'.remarks = faults ∧
      b'.faults.countP Fault.isCapacityExceeded ≤ 1 ∧
      (2 * s.length ≤ b.capacity → b'.faults = faults ∧
        ∃ env, Placed b'.code [] 0 s env b'.code.size) := by
  have hreach : Jump.reach = 2045 := rfl
  have hcursor : (start b.reset).buffer.cursor = 0 := rfl
  obtain ⟨a, ws, hrun, hgenerate, hsound, hremarks, hcount, hroom⟩ :=
    (h.tame hsoft hlength).exists_generate (h.remarks_eq hassembles) b
  rw [h.notes] at hremarks hroom
  refine ⟨a.buffer.finish, hgenerate, ?_, ?_, fun hfits => ?_⟩
  · rw [Buffer.remarks, Buffer.faults_finish]
    exact hremarks
  · rw [Buffer.faults_finish]
    exact hcount
  · obtain ⟨hfatal, hfaults⟩ := hroom hfits
    have hplaced := (sound_start b).placed hassembles h.backward (by omega) hrun hfatal
    rw [← hsound.buffer.size_code] at hplaced
    rw [Buffer.finish_of_not_fatal hfatal]
    exact ⟨hfaults, _, hplaced⟩

/-- A script that notes a fatal fault exposes a bare return. -/
theorem Script.exposes_note {fault : Fault} (h : fault.isFatal = true) :
    Script.Exposes [.note fault] ⟨#[Buffer.returnWord], [fault]⟩ := by
  intro b hb
  have hfatal : (b.reset.record fault).hasFatalFault = true := Buffer.hasFatalFault_record h
  have htwo : Buffer.minCapacity = 2 := rfl
  refine ⟨(b.reset.record fault).finish, rfl, fun _ => ?_, fun hlt => ?_⟩
  · rw [Buffer.kernel, Buffer.code_finish_of_fatal hfatal, Buffer.faults_finish]
    rfl
  · change b.capacity < 1 at hlt
    omega

end HeliumKernels
