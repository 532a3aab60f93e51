/-
  HeliumKernels.Proofs.Assembly.Capacity

  A full buffer says so once.  The first instruction that does not fit sets
  the exhausted flag and records the fault; from then on nothing is appended
  and the fault is not repeated.  So the number of these faults is one or
  zero, as the flag says, at every point of a kernel.
-/
import HeliumKernels.Proofs.Assembly.Landing

namespace HeliumKernels

/-- Whether the fault reports a full buffer. -/
def Fault.isCapacityExceeded : Fault → Bool
  | capacityExceeded _ => true
  | _ => false

/-- Whether a directive writes instruction records only, and leaves the report
    of a full buffer to the buffer. -/
def Directive.isRecord : Directive → Bool
  | raw _ => false
  | note fault => !fault.isCapacityExceeded
  | _ => true

namespace Buffer

/-- The fault of a full buffer is on record once if the buffer is full, and
    otherwise not at all. -/
def Reports (b : Buffer) : Prop :=
  b.faults.countP Fault.isCapacityExceeded = b.exhausted.toNat

variable {b b' : Buffer} {fault : Fault}

theorem reports_reset (b : Buffer) : b.reset.Reports := rfl

theorem Reports.record (h : b.Reports) (hfault : fault.isCapacityExceeded = false) :
    (b.record fault).Reports := by
  simp only [Reports, Buffer.record, List.countP_append, List.countP_singleton, hfault,
    Bool.false_eq_true, ↓reduceIte, Nat.add_zero]
  exact h

theorem Reports.append (h : b.Reports) (word : Word) : (b.append word).Reports := by
  unfold Buffer.append
  split
  · exact h
  · rename_i hroom
    simp only [Bool.not_eq_true] at hroom
    -- the flag is down, so the fault is not on record yet
    rw [Reports, hroom, Bool.toNat_false] at h
    split
    · simp [Reports, Buffer.record, h, Fault.isCapacityExceeded]
    · rw [Reports, hroom, Bool.toNat_false]
      exact h

theorem Reports.emit (h : b.Reports) (i : Instruction) : (b.emit i).Reports := by
  unfold Buffer.emit
  split
  · exact h.append _
  · exact (h.record rfl).append _

theorem Reports.branchTo (h : b.Reports) {target : Nat} {cond : Condition}
    (hb : b.branchTo target cond = .ok b') : b'.Reports := by
  obtain ⟨offset, -, hb⟩ := bind_eq_ok.mp hb
  split at hb
  · exact pure_eq_ok.mp hb ▸ h.emit _
  · split at hb
    · exact pure_eq_ok.mp hb ▸ h.emit _
    · exact pure_eq_ok.mp hb ▸ (h.record rfl).append _

theorem Reports.loopEnd (h : b.Reports) {target : Nat} {tailPredicated : Bool}
    (hb : b.loopEnd target tailPredicated = .ok b') : b'.Reports := by
  obtain ⟨offset, -, hb⟩ := bind_eq_ok.mp hb
  obtain ⟨back, -, hb⟩ := bind_eq_ok.mp hb
  split at hb
  · exact pure_eq_ok.mp hb ▸ h.emit _
  · exact pure_eq_ok.mp hb ▸ (h.record rfl).append _

theorem Reports.patch (h : b.Reports) (slot : Slot) (i : Instruction) :
    (b.patch slot i).Reports := by
  unfold Buffer.patch
  split
  · exact h
  split
  · exact h.record rfl
  split
  · exact h
  · exact h.record rfl
  · exact h.record rfl
  · exact h.record rfl

/-- A buffer reports at most once that it is full. -/
theorem Reports.countP_le_one (h : b.Reports) :
    b.faults.countP Fault.isCapacityExceeded ≤ 1 := by
  rw [h]
  exact Bool.toNat_le _

theorem Reports.exhausted_iff (h : b.Reports) :
    b.exhausted = true ↔ ∃ fault ∈ b.faults, fault.isCapacityExceeded = true := by
  rw [← List.countP_pos_iff, h]
  cases b.exhausted <;> simp

end Buffer

namespace Assembler

variable {a a' : Assembler} {d : Directive} {script : Script}

theorem reports_step (h : a.buffer.Reports) (hd : d.isRecord = true) (hstep : a.step d = .ok a') :
    a'.buffer.Reports := by
  cases d with
  | emit i => exact Except.ok.inj hstep ▸ h.emit i
  | raw word => cases hd
  | mark label => exact Except.ok.inj hstep ▸ h
  | target label i => exact Except.ok.inj hstep ▸ h.emit i
  | branchTo label cond =>
    obtain ⟨found, -, hstep⟩ := bind_eq_ok.mp hstep
    obtain ⟨b, hb, hstep⟩ := bind_eq_ok.mp hstep
    exact pure_eq_ok.mp hstep ▸ h.branchTo hb
  | loopEnd label tailPredicated =>
    obtain ⟨found, -, hstep⟩ := bind_eq_ok.mp hstep
    obtain ⟨b, hb, hstep⟩ := bind_eq_ok.mp hstep
    exact pure_eq_ok.mp hstep ▸ h.loopEnd hb
  | reserve label width => exact Except.ok.inj hstep ▸ h.append _
  | bind label fixup =>
    obtain ⟨found, -, hstep⟩ := bind_eq_ok.mp hstep
    obtain ⟨offset, -, hstep⟩ := bind_eq_ok.mp hstep
    exact pure_eq_ok.mp hstep ▸ h.patch _ _
  | patch label i =>
    obtain ⟨found, -, hstep⟩ := bind_eq_ok.mp hstep
    exact pure_eq_ok.mp hstep ▸ h.patch _ _
  | note fault => exact Except.ok.inj hstep ▸ h.record (by simpa [Directive.isRecord] using hd)

theorem reports_run (h : a.buffer.Reports) (hrecords : ∀ d ∈ script, d.isRecord = true)
    (hrun : a.run script = .ok a') : a'.buffer.Reports := by
  induction script generalizing a with
  | nil => exact pure_eq_ok.mp hrun ▸ h
  | cons d script ih =>
    obtain ⟨a₁, hstep, hrun⟩ := run_cons.mp hrun
    exact ih (reports_step h (hrecords d List.mem_cons_self) hstep)
      (fun d hd => hrecords d (List.mem_cons_of_mem _ hd)) hrun

end Assembler

end HeliumKernels
