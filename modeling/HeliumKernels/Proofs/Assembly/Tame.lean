/-
  HeliumKernels.Proofs.Assembly.Tame

  Scripts that raise no alarm.  A tame script is short and keeps its labels in
  scope: whatever the buffer holds and however small it is, laying the script
  out stops nowhere, and the only fatal fault there can be is that of a full
  buffer.
-/
import HeliumKernels.Proofs.Assembly.Capacity
import HeliumKernels.Proofs.Assembly.Scope

namespace HeliumKernels

/-! ## Faults of tame directives -/

/-- What is recorded when an instruction is emitted at the cursor. -/
def Instruction.remarks (cursor : Nat) (i : Instruction) : List Fault :=
  match i.assemble with
  | .ok _ => []
  | .error e => [.encoding cursor e]

theorem Instruction.isFatal_of_mem_remarks {i : Instruction} {cursor : Nat} {fault : Fault}
    (h : fault ∈ i.remarks cursor) : fault.isFatal = false := by
  unfold remarks at h
  split at h
  · cases h
  · rw [List.mem_singleton.mp h]
    rfl

namespace Directive

/-- Whether a directive, close to the start of the code, raises no fatal fault but
    that of a full buffer. -/
def isTame : Directive → Bool
  | emit _ | mark _ | target .. | branchTo .. | loopEnd .. => true
  | reserve _ width => width == .wide
  | bind _ (.loopStart rn _) => rn != .sp && rn != .pc
  | note fault => !fault.isFatal
  | raw _ | bind .. | patch .. => false

/-- Faults a tame directive records at the cursor, apart from a full buffer. -/
def remarks (cursor : Nat) : Directive → List Fault
  | emit i | target _ i => i.remarks cursor
  | note fault => [fault]
  | raw _ | mark _ | branchTo .. | loopEnd .. | reserve .. | bind .. | patch .. => []

/-- The fault that a directive notes. -/
def notes : Directive → List Fault
  | note fault => [fault]
  | _ => []

theorem isRecord_of_isTame {d : Directive} (h : d.isTame = true) : d.isRecord = true := by
  cases d with
  | raw word => cases h
  | note fault =>
    cases fault with
    | capacityExceeded capacity => cases h
    | _ => rfl
  | _ => rfl

theorem isFatal_of_mem_remarks {d : Directive} {cursor : Nat} {fault : Fault}
    (h : d.isTame = true) (hfault : fault ∈ d.remarks cursor) : fault.isFatal = false := by
  cases d with
  | emit i => exact Instruction.isFatal_of_mem_remarks hfault
  | target label i => exact Instruction.isFatal_of_mem_remarks hfault
  | note f =>
    obtain rfl := List.mem_singleton.mp hfault
    simpa [isTame] using h
  | _ => cases hfault

end Directive

namespace Buffer

/-- Recorded faults, apart from that of a full buffer. -/
def remarks (b : Buffer) : List Fault :=
  b.faults.filter (!·.isCapacityExceeded)

variable {b : Buffer}

/-- No fatal fault is recorded, except perhaps that of a full buffer. -/
def Calm (b : Buffer) : Prop :=
  ∀ fault ∈ b.remarks, fault.isFatal = false

/-- A calm buffer has a fatal fault exactly if it is full. -/
theorem Calm.hasFatalFault_eq (h : b.Calm) (hreports : b.Reports) :
    b.hasFatalFault = b.exhausted := by
  rw [Bool.eq_iff_iff, hreports.exhausted_iff, hasFatalFault, List.any_eq_true]
  refine exists_congr fun fault => and_congr_right fun hmem => ?_
  constructor
  · intro hfatal
    -- any other fault is among the remarks, and none of those is fatal
    by_contra hother
    have := h fault (List.mem_filter.mpr ⟨hmem, by simpa using hother⟩)
    rw [hfatal] at this
    cases this
  · intro hfull
    cases fault with
    | capacityExceeded capacity => rfl
    | _ => cases hfull

theorem remarks_record {fault : Fault} (h : fault.isCapacityExceeded = false) :
    (b.record fault).remarks = b.remarks ++ [fault] := by
  simp [remarks, record, h]

theorem remarks_append (b : Buffer) (word : Word) : (b.append word).remarks = b.remarks := by
  unfold append
  split
  · rfl
  · split
    · simp [remarks, record, Fault.isCapacityExceeded]
    · rfl

theorem remarks_emit (b : Buffer) (i : Instruction) :
    (b.emit i).remarks = b.remarks ++ i.remarks b.cursor := by
  unfold emit Instruction.remarks
  cases i.assemble with
  | ok word => rw [remarks_append, List.append_nil]
  | error e => rw [remarks_append, remarks_record rfl]

theorem remarks_emit_of_ok {i : Instruction} {word : Word} (h : i.assemble = .ok word) :
    (b.emit i).remarks = b.remarks := by
  rw [remarks_emit, Instruction.remarks, h, List.append_nil]

end Buffer

namespace Jump

/-- Half-words that every branch back and every loop spans. -/
def reach : Nat := 2045

theorem fits_of_backward {d : Directive} {label : Label} {jump : Nat → Nat → Jump}
    {source target : Nat} (hd : d.backward? = some (label, jump)) (hle : target ≤ source)
    (hsource : source ≤ reach) : (jump source target).fits = true := by
  have hreach : reach = 2045 := rfl
  have hrange : Instruction.loopRange = 4094 := rfl
  have heven := gap_even source target
  -- the program counter is read two half-words ahead, hence 2045 and not 2047
  have hlow : -4094 ≤ gap source target := by unfold gap; omega
  have hhigh : gap source target ≤ -4 := by unfold gap; omega
  cases d with
  | branchTo l cond =>
    obtain ⟨-, rfl⟩ := Prod.mk.inj (Option.some.inj hd)
    have hwide : Instruction.branchFits cond .wide (gap source target) = true := by
      unfold Instruction.branchFits Instruction.branchRange
      cases cond == .al <;> simp <;> omega
    unfold branch fits
    split
    · rename_i offset width heq
      simp only [Instruction.branch.injEq] at heq
      obtain ⟨rfl, rfl, rfl⟩ := heq
      split
      · assumption
      · exact hwide
    all_goals simp_all
  | loopEnd l tailPredicated =>
    obtain ⟨-, rfl⟩ := Prod.mk.inj (Option.some.inj hd)
    simp only [loopEnd, fits, Bool.and_eq_true, decide_eq_true_eq]
    omega
  | _ => cases hd

end Jump

namespace Buffer

variable {b : Buffer}

/-- The start of a loop reaches the end of its body. -/
theorem faults_patch_loopStart (hcursor : b.cursor ≤ Jump.reach) {slot : Slot}
    (hwide : slot.width = .wide) {rn : Reg} (hrn : ¬(rn = .sp ∨ rn = .pc))
    (tail : Option LaneSize) :
    (b.patch slot (.loopStart rn tail (some (gap slot.position b.cursor)))).faults =
      b.faults := by
  unfold Buffer.patch
  split
  · rfl
  · rename_i hwithin
    have hreach : Jump.reach = 2045 := rfl
    have hrange : Instruction.loopRange = 4094 := rfl
    rw [hwide] at hwithin
    have htwo : Width.wide.halfWords = 2 := rfl
    have hfits : (Jump.mk slot.position b.cursor
        (.loopStart rn tail (some (gap slot.position b.cursor)))).fits = true := by
      show (decide (0 ≤ gap _ _) && decide (gap _ _ ≤ Instruction.loopRange)) = true
      rw [Bool.and_eq_true, decide_eq_true_eq, decide_eq_true_eq]
      unfold gap
      omega
    obtain ⟨word, hword⟩ := (Jump.faithful_loopStart _ _ tail hrn).assembles hfits
    change Instruction.assemble (.loopStart rn tail _) = .ok word at hword
    rw [hword, if_neg (by rw [hwide]; exact fun hne => hne rfl)]

end Buffer

namespace Assembler

variable {a a' : Assembler} {ws : List Word} {d : Directive} {script : Script} {o : Scope}

/-- All open slots are wide. -/
def SlotsWide (a : Assembler) : Prop :=
  ∀ s ∈ a.slots, s.2.width = .wide

theorem slotsWide_start (b : Buffer) : (start b.reset).SlotsWide :=
  fun _ hs => absurd hs List.not_mem_nil

theorem Sound.step_tame_backward (h : a.Sound ws) (hcursor : a.buffer.cursor ≤ Jump.reach)
    {label : Label} {jump : Nat → Nat → Jump} (hd : d.backward? = some (label, jump))
    (hstep : a.step d = .ok a') :
    a'.buffer.remarks = a.buffer.remarks ∧ a'.slots = a.slots := by
  have hreach : Jump.reach = 2045 := rfl
  rcases h.step_backward (by omega) hd with ⟨-, herr⟩ | ⟨target, fault, hlookup, -, hj, -, hok⟩
  · rw [herr] at hstep
    cases hstep
  · obtain rfl := Except.ok.inj (hok.symm.trans hstep)
    -- so close to the start every label that was marked is within reach
    have hfits := Jump.fits_of_backward hd (h.targets_le _ (lookup_mem hlookup)) hcursor
    obtain ⟨word, hword⟩ := hj.assembles hfits
    refine ⟨?_, rfl⟩
    rw [if_pos hfits]
    exact Buffer.remarks_emit_of_ok hword

/-- A tame directive adds its remarks and reserves wide slots only. -/
theorem Sound.step_tame (h : a.Sound ws) (hwide : a.SlotsWide)
    (hcursor : a.buffer.cursor ≤ Jump.reach) (hd : d.isTame = true) (hstep : a.step d = .ok a') :
    a'.buffer.remarks = a.buffer.remarks ++ d.remarks a.buffer.cursor ∧ a'.SlotsWide := by
  have hback : ∀ label jump, d.backward? = some (label, jump) → d.remarks a.buffer.cursor = [] →
      a'.buffer.remarks = a.buffer.remarks ++ d.remarks a.buffer.cursor ∧ a'.SlotsWide := by
    intro label jump hback hnone
    obtain ⟨hremarks, hslots⟩ := h.step_tame_backward hcursor hback hstep
    rw [hnone, List.append_nil, SlotsWide, hslots]
    exact ⟨hremarks, hwide⟩
  cases d with
  | emit i =>
    obtain rfl := Except.ok.inj hstep
    exact ⟨Buffer.remarks_emit _ i, hwide⟩
  | mark label =>
    obtain rfl := Except.ok.inj hstep
    exact ⟨(List.append_nil _).symm, hwide⟩
  | target label i =>
    obtain rfl := Except.ok.inj hstep
    exact ⟨Buffer.remarks_emit _ i, hwide⟩
  | branchTo label cond => exact hback label _ rfl rfl
  | loopEnd label tailPredicated => exact hback label _ rfl rfl
  | reserve label width =>
    obtain rfl := Except.ok.inj hstep
    refine ⟨(Buffer.remarks_append _ _).trans (List.append_nil _).symm, fun s hs => ?_⟩
    rcases List.mem_cons.mp hs with rfl | hs
    · simpa [Directive.isTame] using hd
    · exact hwide s hs
  | bind label fixup =>
    cases fixup with
    | loopStart rn tail =>
      obtain ⟨⟨slot, rest⟩, hresolve, hstep⟩ := bind_eq_ok.mp hstep
      obtain ⟨-, hsub, -⟩ := h.resolve hresolve
      have hlookup := (resolve_eq_ok hresolve).1
      have hslot := h.slot_le hlookup
      have hreach : Jump.reach = 2045 := rfl
      obtain ⟨offset, hoffset, hstep⟩ := bind_eq_ok.mp hstep
      rw [displacement_eq (by omega) (by omega)] at hoffset
      obtain rfl := Except.ok.inj hoffset
      obtain rfl := pure_eq_ok.mp hstep
      have hrn : ¬(rn = .sp ∨ rn = .pc) := by simpa [Directive.isTame, not_or] using hd
      -- the slot is wide and the loop ends within reach, so the patch is silent
      have hfaults := Buffer.faults_patch_loopStart hcursor (hwide _ (lookup_mem hlookup)) hrn tail
      refine ⟨?_, fun s hs => hwide s (hsub.subset hs)⟩
      exact (congrArg (List.filter _) hfaults).trans (List.append_nil _).symm
    | branch cond width => cases hd
    | loopEnd tailPredicated => cases hd
  | note fault =>
    obtain rfl := Except.ok.inj hstep
    have hfault : fault.isCapacityExceeded = false := by
      simpa [Directive.isRecord] using Directive.isRecord_of_isTame hd
    exact ⟨Buffer.remarks_record hfault, hwide⟩
  | raw word => cases hd
  | patch label i => cases hd

/-- A run of tame directives raises no fatal fault but that of a full buffer. -/
theorem Sound.calm_run (h : a.Sound ws) (hwide : a.SlotsWide) (hcalm : a.buffer.Calm)
    (htame : ∀ d ∈ script, d.isTame = true)
    (hlength : a.buffer.cursor + 2 * script.length ≤ Jump.reach)
    (hrun : a.run script = .ok a') : a'.buffer.Calm := by
  induction script generalizing a ws with
  | nil => exact pure_eq_ok.mp hrun ▸ hcalm
  | cons d script ih =>
    obtain ⟨a₁, hstep, hrun⟩ := run_cons.mp hrun
    rw [List.length_cons] at hlength
    obtain ⟨ws₁, h₁, -⟩ := h.step hstep
    have hd := htame d List.mem_cons_self
    have hcursor := cursor_step_le hstep
    obtain ⟨hremarks, hwide₁⟩ := h.step_tame hwide (by omega) hd hstep
    refine ih h₁ hwide₁ ?_ (fun d hd => htame d (List.mem_cons_of_mem _ hd)) (by omega) hrun
    intro fault hfault
    rw [hremarks, List.mem_append] at hfault
    rcases hfault with hfault | hfault
    · exact hcalm fault hfault
    · exact Directive.isFatal_of_mem_remarks hd hfault

/-- Where every instruction assembles, all that is recorded are the notes. -/
theorem Sound.remarks_run (h : a.Sound ws) (hwide : a.SlotsWide)
    (htame : ∀ d ∈ script, d.isTame = true)
    (hlength : a.buffer.cursor + 2 * script.length ≤ Jump.reach)
    (hquiet : ∀ d ∈ script, ∀ cursor, d.remarks cursor = d.notes)
    (hrun : a.run script = .ok a') :
    a'.buffer.remarks = a.buffer.remarks ++ script.flatMap Directive.notes := by
  induction script generalizing a ws with
  | nil => rw [pure_eq_ok.mp hrun, List.flatMap_nil, List.append_nil]
  | cons d script ih =>
    obtain ⟨a₁, hstep, hrun⟩ := run_cons.mp hrun
    rw [List.length_cons] at hlength
    obtain ⟨ws₁, h₁, -⟩ := h.step hstep
    have hcursor := cursor_step_le hstep
    obtain ⟨hremarks, hwide₁⟩ := h.step_tame hwide (by omega) (htame d List.mem_cons_self) hstep
    rw [ih h₁ hwide₁ (fun d hd => htame d (List.mem_cons_of_mem _ hd)) (by omega)
      (fun d hd => hquiet d (List.mem_cons_of_mem _ hd)) hrun, hremarks,
      hquiet d List.mem_cons_self, List.flatMap_cons, List.append_assoc]

end Assembler

namespace Script

/-- A short script of tame directives that finds every label open. -/
structure Tame (s : Script) : Prop where
  directives : ∀ d ∈ s, d.isTame = true
  scope : ∃ o, Scope.run? ⟨[], []⟩ s = some o
  length_le : 2 * s.length ≤ Jump.reach

/-- Directives without forward references that close every label they open, and note
    the given faults. -/
structure Closed (s : Script) (faults : List Fault) : Prop where
  backward : ∀ d ∈ s, d.isBackward = true
  balanced : s.Balanced
  notes : s.flatMap Directive.notes = faults

variable {s t : Script} {faults faults' : List Fault}

open Assembler

theorem Straight.closed (h : s.Straight) : s.Closed [] := by
  have hemit : ∀ d ∈ s, d.isBackward = true ∧ d.notes = [] := by
    intro d hd
    cases d with
    | emit i => exact ⟨rfl, rfl⟩
    | _ => cases h _ hd
  exact ⟨fun d hd => (hemit d hd).1, h.balanced,
    List.flatMap_eq_nil_iff.mpr fun d hd => (hemit d hd).2⟩

theorem Closed.append (hs : s.Closed faults) (ht : t.Closed faults') :
    (s ++ t).Closed (faults ++ faults') where
  backward := List.forall_mem_append.mpr ⟨hs.backward, ht.backward⟩
  balanced := hs.balanced.append ht.balanced
  notes := by rw [List.flatMap_append, hs.notes, ht.notes]

/-- A loop around a closed body. -/
theorem Closed.loop (h : s.Closed faults) {label : Label} {d : Directive}
    {jump : Nat → Nat → Jump} (hd : d.backward? = some (label, jump)) (hfresh : label ∉ s.labels) :
    Closed (.mark label :: (s ++ [d])) faults := by
  have hback : d.isBackward = true ∧ d.notes = [] := by
    cases d with
    | branchTo label cond => exact ⟨rfl, rfl⟩
    | loopEnd label tailPredicated => exact ⟨rfl, rfl⟩
    | _ => cases hd
  refine ⟨?_, h.balanced.loop hd hfresh, ?_⟩
  · refine List.forall_mem_cons.mpr ⟨rfl, List.forall_mem_append.mpr ⟨h.backward, ?_⟩⟩
    exact List.forall_mem_singleton.mpr hback.1
  · rw [List.flatMap_cons, List.flatMap_append, h.notes, List.flatMap_singleton, hback.2,
      List.append_nil]
    rfl

theorem closed_notes (faults : List Fault) : Closed (faults.map .note) faults where
  backward := by simp [Directive.isBackward]
  balanced := balanced_of_label? (by simp [Directive.label?])
  notes := by simp [List.flatMap_map, Directive.notes]

/-- Directives without forward references are tame if they note no fatal fault. -/
theorem Closed.isTame (h : s.Closed faults) (hfaults : ∀ fault ∈ faults, fault.isFatal = false) :
    ∀ d ∈ s, d.isTame = true := by
  intro d hd
  have hback := h.backward d hd
  cases d with
  | note fault =>
    have hmem : fault ∈ s.flatMap Directive.notes :=
      List.mem_flatMap.mpr ⟨_, hd, List.mem_singleton_self fault⟩
    simpa [Directive.isTame] using hfaults fault (h.notes ▸ hmem)
  | _ => first | rfl | cases hback

theorem Closed.tame (h : s.Closed faults) (hfaults : ∀ fault ∈ faults, fault.isFatal = false)
    (hlength : 2 * s.length ≤ Jump.reach) : s.Tame :=
  ⟨h.isTame hfaults, ⟨_, h.balanced ⟨[], []⟩⟩, hlength⟩

theorem Straight.isTame (h : s.Straight) : ∀ d ∈ s, d.isTame = true :=
  h.closed.isTame fun _ hfault => absurd hfault List.not_mem_nil

theorem Straight.tame (h : s.Straight) (hlength : 2 * s.length ≤ Jump.reach) : s.Tame :=
  h.closed.tame (fun _ hfault => absurd hfault List.not_mem_nil) hlength

/-- Where everything assembles, all that is recorded are the notes. -/
theorem Assembles.remarks_eq (h : s.Assembles) (htarget : ∀ label i, .target label i ∉ s) :
    ∀ d ∈ s, ∀ cursor, d.remarks cursor = d.notes := by
  intro d hd cursor
  cases d with
  | emit i =>
    obtain ⟨word, hword⟩ := h i hd
    simp [Directive.remarks, Instruction.remarks, Directive.notes, hword]
  | target label i => exact absurd hd (htarget label i)
  | _ => rfl

theorem Closed.remarks_eq (h : s.Closed faults) (hassembles : s.Assembles) :
    ∀ d ∈ s, ∀ cursor, d.remarks cursor = d.notes :=
  hassembles.remarks_eq fun _ _ hd => Bool.false_ne_true (h.backward _ hd)

/-- A loop whose start is filled in behind it, when its end is known. -/
theorem tame_guardedLoop {before round after : Script} (entry body : Label) {tailPredicated : Bool}
    {rn : Reg} {tail : Option LaneSize} (hbefore : before.Straight) (hround : round.Straight)
    (hafter : after.Straight) (hrn : rn ≠ .sp ∧ rn ≠ .pc)
    (hlength : 2 * (before.length + round.length + after.length + 4) ≤ Jump.reach) :
    Tame (before ++ (.reserve entry .wide :: ((.mark body :: (round ++
      [.loopEnd body tailPredicated])) ++ (.bind entry (.loopStart rn tail) :: after)))) := by
  have hloop : Closed (.mark body :: (round ++ [.loopEnd body tailPredicated])) [] :=
    hround.closed.loop rfl (by simp [hround.labels_eq_nil])
  refine ⟨?_, ?_, ?_⟩
  · refine List.forall_mem_append.mpr ⟨hbefore.isTame, List.forall_mem_cons.mpr ⟨rfl, ?_⟩⟩
    refine List.forall_mem_append.mpr ⟨hloop.isTame ?_, List.forall_mem_cons.mpr ⟨?_, ?_⟩⟩
    · exact fun _ hfault => absurd hfault List.not_mem_nil
    · simp [Directive.isTame, hrn]
    · exact hafter.isTame
  · -- the reserved slot is the one label open behind the loop, and it is bound there
    have hbound : ∀ o : Scope, o.targets = [] → o.slots = [entry] →
        o.run? (.bind entry (.loopStart rn tail) :: after) = some ⟨[], []⟩ := by
      rintro ⟨targets, slots⟩ rfl rfl
      rw [Scope.run?_cons]
      simp [Scope.after?, hafter.balanced ⟨[], []⟩]
    refine ⟨⟨[], []⟩, ?_⟩
    rw [Scope.run?_append, hbefore.balanced ⟨[], []⟩, Option.bind_some, Scope.run?_cons,
      Scope.after?, Option.bind_some, Scope.run?_append, hloop.balanced, Option.bind_some]
    exact hbound _ rfl rfl
  · simp only [List.length_append, List.length_cons, List.length_nil]
    omega

/-- A tame script is laid out in any buffer, without a fatal fault but that of a full
    buffer. -/
theorem Tame.exists_run (h : s.Tame) (b : Buffer) :
    ∃ a ws, (start b.reset).run s = .ok a ∧ a.Sound ws ∧ a.buffer.Reports ∧ a.buffer.Calm ∧
      a.buffer.cursor ≤ 2 * s.length ∧ a.buffer.capacity = b.capacity := by
  have hreach : Jump.reach = 2045 := rfl
  have hlength := h.length_le
  have hcursor : (start b.reset).buffer.cursor = 0 := rfl
  have hstart := sound_start b
  obtain ⟨o, ho⟩ := h.scope
  obtain ⟨a, hrun, -⟩ := hstart.exists_run (by omega) ho
  have hle := cursor_run_le hrun
  obtain ⟨ws, hsound, hadv⟩ := hstart.run hrun
  have hcalm : (start b.reset).buffer.Calm := fun _ hfault => absurd hfault List.not_mem_nil
  refine ⟨a, ws, hrun, hsound, ?_, ?_, by omega, hadv.capacity_eq⟩
  · exact reports_run (Buffer.reports_reset b)
      (fun d hd => Directive.isRecord_of_isTame (h.directives d hd)) hrun
  · exact hstart.calm_run (slotsWide_start b) hcalm h.directives (by omega) hrun

/-- Where every instruction of a tame script assembles, all that is recorded are its
    notes and a full buffer. -/
theorem Tame.remarks_eq (h : s.Tame) (hquiet : ∀ d ∈ s, ∀ cursor, d.remarks cursor = d.notes)
    {b : Buffer} {a : Assembler} (hrun : (start b.reset).run s = .ok a) :
    a.buffer.remarks = s.flatMap Directive.notes := by
  have hlength := h.length_le
  have hcursor : (start b.reset).buffer.cursor = 0 := rfl
  rw [(sound_start b).remarks_run (slotsWide_start b) h.directives (by omega) hquiet hrun]
  rfl

end Script

end HeliumKernels
