/-
  HeliumKernels.Proofs.Machine.Execution

  Runs of the machine.  `Steps` counts the instructions between two states;
  a run that reaches the return address after `n` of them ends there with
  any limit of at least `n`, and stops at the limit with any other.  The
  instruction that stands at a position of the code is what the machine
  executes at the address of that position.
-/
import HeliumKernels.Proofs.Assembly.Landing
import HeliumKernels.Proofs.Machine.Limit
import HeliumKernels.Proofs.Machine.Stack

namespace HeliumKernels

namespace Machine

open Run

/-- Count one instruction. -/
def tick (m : Machine) : Machine :=
  { m with steps := m.steps + 1 }

@[simp] theorem reg_tick (m : Machine) (r : Reg) : m.tick.reg r = m.reg r := rfl

@[simp] theorem lane_tick (m : Machine) (q : QReg) (l : Lane) : m.tick.lane q l = m.lane q l := rfl

@[simp] theorem memory_tick (m : Machine) : m.tick.memory = m.memory := rfl

@[simp] theorem flags_tick (m : Machine) : m.tick.flags = m.flags := rfl

@[simp] theorem predicate_tick (m : Machine) : m.tick.predicate = m.predicate := rfl

@[simp] theorem vptRemaining_tick (m : Machine) : m.tick.vptRemaining = m.vptRemaining := rfl

theorem Plain.tick {m : Machine} (h : m.Plain) : m.tick.Plain := ⟨h.block, h.tail⟩

/-! ## Steps -/

/-- `n` instructions lead from one program counter and state to another. -/
inductive Steps (mulAdd : MulAdd) (program : Program) :
    Nat → UInt32 → Machine → UInt32 → Machine → Prop where
  | refl {pc : UInt32} {m : Machine} : Steps mulAdd program 0 pc m pc m
  | step {n : Nat} {pc pc₁ pc' : UInt32} {m m₁ m' : Machine} (hpc : pc ≠ returnAddress)
      (hstep : step mulAdd program pc m = .ok pc₁ m₁)
      (hrest : Steps mulAdd program n pc₁ m₁.tick pc' m') :
      Steps mulAdd program (n + 1) pc m pc' m'

namespace Steps

variable {mulAdd : MulAdd} {program : Program} {n k : Nat} {pc pc₁ pc' : UInt32}
  {m m₁ m' : Machine}

theorem one (hpc : pc ≠ returnAddress) (hstep : Machine.step mulAdd program pc m = .ok pc₁ m₁) :
    Steps mulAdd program 1 pc m pc₁ m₁.tick :=
  .step hpc hstep .refl

theorem trans (h : Steps mulAdd program n pc m pc₁ m₁)
    (h' : Steps mulAdd program k pc₁ m₁ pc' m') : Steps mulAdd program (n + k) pc m pc' m' := by
  induction h with
  | refl => rwa [Nat.zero_add]
  | step hpc hstep _ ih =>
    rw [Nat.add_right_comm]
    exact .step hpc hstep (ih h')

/-- The same steps are taken with another limit. -/
theorem withLimit (h : Steps mulAdd program n pc m pc' m') (limit : Nat) :
    Steps mulAdd program n pc (m.withLimit limit) pc' (m'.withLimit limit) := by
  induction h with
  | refl => exact .refl
  | @step _ pc _ _ _ _ _ hpc hstep _ ih =>
    -- no instruction looks at the limit
    exact .step hpc ((Unmetered.step mulAdd program pc).ok_withLimit hstep limit) ih

theorem runFrom_succ {fuel : Nat} (hpc : pc ≠ returnAddress)
    (hstep : Machine.step mulAdd program pc m = .ok pc₁ m₁) :
    runFrom mulAdd program (fuel + 1) pc m = runFrom mulAdd program fuel pc₁ m₁.tick := by
  rw [runFrom, if_neg hpc]
  simp only [bind, EStateM.bind, hstep]
  rfl

theorem runFrom_return {fuel : Nat} : runFrom mulAdd program fuel returnAddress m = .ok () m := by
  cases fuel <;>
  · rw [runFrom, if_pos rfl]
    rfl

/-- With enough fuel a run ends at the return address. -/
theorem runFrom_eq_ok (h : Steps mulAdd program n pc m returnAddress m') {fuel : Nat}
    (hfuel : n ≤ fuel) : runFrom mulAdd program fuel pc m = .ok () m' := by
  -- the induction needs the last address as a variable
  generalize hend : returnAddress = pc' at h
  induction h generalizing fuel with
  | refl =>
    subst hend
    exact runFrom_return
  | step hpc hstep _ ih =>
    obtain ⟨fuel, rfl⟩ := Nat.exists_eq_succ_of_ne_zero (n := fuel) (by omega)
    rw [runFrom_succ hpc hstep]
    exact ih (by omega) hend

/-- With less it stops at the limit. -/
theorem runFrom_eq_error (h : Steps mulAdd program n pc m pc' m') {fuel : Nat}
    (hfuel : fuel < n) :
    ∃ stopped, runFrom mulAdd program fuel pc m =
      .error (.error (.stepLimit m.stepLimit)) stopped := by
  induction h generalizing fuel with
  | refl => omega
  | @step n pc _ _ m _ _ hpc hstep _ ih =>
    cases fuel with
    | zero =>
      refine ⟨m, ?_⟩
      rw [runFrom, if_neg hpc]
      rfl
    | succ fuel =>
      rw [runFrom_succ hpc hstep, ← (Unmetered.step mulAdd program pc).stepLimit_eq hstep]
      exact ih (by omega)

/-- A run that meets an instruction that stops it, stops there with enough fuel. -/
theorem runFrom_eq_error_of_step (h : Steps mulAdd program n pc m pc' m') {halt : Halt}
    {stopped : Machine} (hpc' : pc' ≠ returnAddress)
    (hstop : Machine.step mulAdd program pc' m' = .error halt stopped) {fuel : Nat}
    (hfuel : n < fuel) : runFrom mulAdd program fuel pc m = .error halt stopped := by
  induction h generalizing fuel with
  | refl =>
    obtain ⟨fuel, rfl⟩ := Nat.exists_eq_succ_of_ne_zero (n := fuel) (by omega)
    rw [runFrom, if_neg hpc']
    simp only [bind, EStateM.bind, hstop]
  | step hpc hstep _ ih =>
    obtain ⟨fuel, rfl⟩ := Nat.exists_eq_succ_of_ne_zero (n := fuel) (by omega)
    rw [runFrom_succ hpc hstep]
    exact ih hpc' hstop (by omega)

/-- The machine counts its steps. -/
theorem steps_eq (h : Steps mulAdd program n pc m pc' m') : m'.steps = m.steps + n := by
  induction h with
  | refl => rfl
  | @step n pc _ _ m m₁ _ _ hstep _ ih =>
    have hone : m₁.steps = m.steps := (Unmetered.step mulAdd program pc).steps_eq hstep
    have htick : m₁.tick.steps = m₁.steps + 1 := rfl
    omega

end Steps

/-! ## Addresses of code

The last position that can hold code is the one before the return address.
-/

/-- Address of a half-word of code. -/
def codeAddress (p : Nat) : UInt32 :=
  codeBase + UInt32.ofNat (2 * p)

theorem codeAddress_zero : codeAddress 0 = codeBase := rfl

variable {mulAdd : MulAdd} {code : Array UInt16} {p : Nat} {m m' : Machine} {op : Operation}
  {width : Width}

theorem toNat_codeAddress (hp : 4096 + 2 * p < 2 ^ 32) : (codeAddress p).toNat = 4096 + 2 * p := by
  simp only [codeAddress, codeBase, UInt32.toNat_add, UInt32.toNat_ofNat', UInt32.reduceToNat]
  omega

theorem codeAddress_ne_return (hp : 4096 + 2 * p < 0xFFFFFFF0) : codeAddress p ≠ returnAddress := by
  intro h
  have hnat := congrArg UInt32.toNat h
  rw [toNat_codeAddress (by omega)] at hnat
  simp only [returnAddress, UInt32.reduceToNat] at hnat
  omega

theorem lt_size_of_decodeAt {decoded : Decoded} (h : decodeAt code p = .ok decoded) :
    p < code.size := by
  by_contra hp
  rw [decodeAt, Array.getElem?_eq_none (by omega)] at h
  cases h

theorem fetch?_codeAddress (hp : 4096 + 2 * p < 0xFFFFFFF0) {decoded : Decoded}
    (h : decodeAt code p = .ok decoded) :
    fetch? (Program.ofCode code) (codeAddress p) = some (.ok decoded) := by
  have hnat := toNat_codeAddress (p := p) (by omega)
  have hbase : codeBase ≤ codeAddress p := by
    rw [UInt32.le_iff_toNat_le, hnat]
    simp only [codeBase, UInt32.reduceToNat]
    omega
  have heven : codeAddress p % 2 = 0 := by
    apply UInt32.toNat.inj
    simp only [UInt32.toNat_mod, hnat, UInt32.reduceToNat]
    omega
  have hindex : codeIndex (codeAddress p) = p := by
    simp only [codeIndex, UInt32.toNat_div, UInt32.toNat_sub, hnat, codeBase, UInt32.reduceToNat]
    omega
  rw [fetch?, hindex, Program.getElem?_ofCode, if_pos (lt_size_of_decodeAt h), h]
  simp [hbase, heven]

/-- The next position is where the instruction ends. -/
theorem codeAddress_add_halfWords (hp : 4096 + 2 * p < 0xFFFFFFF0) :
    codeAddress (p + width.halfWords) = codeAddress p + byteWidth width := by
  have hnat := toNat_codeAddress (p := p) (by omega)
  apply UInt32.toNat.inj
  cases width <;>
    rw [toNat_codeAddress (by simp only [Width.halfWords]; omega), UInt32.toNat_add, hnat] <;>
    simp only [Width.halfWords, byteWidth, UInt32.reduceToNat] <;>
    omega

/-- One step at an address executes the instruction that is read there. -/
theorem step_of_fetch {program : Program} {pc : UInt32}
    (hfetch : fetch? program pc = some (.ok ⟨op, width⟩))
    (hroom : pc.toNat + (byteWidth width).toNat < 2 ^ 32) :
    step mulAdd program pc m =
      (laneMask op pc >>= fun mask => execute mulAdd pc (pc + byteWidth width) mask op) m := by
  have hadvance : ∀ m, advance pc (byteWidth width) m = .ok (pc + byteWidth width) m :=
    fun m => advance_eq rfl hroom
  simp only [step, hfetch, bind, EStateM.bind, hadvance]

/-- One step at a position executes the instruction that stands there. -/
theorem step_codeAddress (hp : 4096 + 2 * p < 0xFFFFFFF0)
    (h : decodeAt code p = .ok ⟨op, width⟩) :
    step mulAdd (Program.ofCode code) (codeAddress p) m =
      (laneMask op (codeAddress p) >>= fun mask =>
        execute mulAdd (codeAddress p) (codeAddress (p + width.halfWords)) mask op) m := by
  have hwidth : (byteWidth width).toNat ≤ 4 := by cases width <;> decide
  have hnat := toNat_codeAddress (p := p) (by omega)
  rw [codeAddress_add_halfWords hp]
  exact step_of_fetch (fetch?_codeAddress hp h) (by omega)

/-- A branch starts from the address four bytes behind its own. -/
theorem branchTarget_eq {pc : UInt32} (hroom : pc.toNat + 4 < 2 ^ 32) (offset : Int) :
    branchTarget pc offset m = .ok (displaced (pc + 4) offset) m :=
  bind_of_ok (advance_four hroom)

/-- An operation that runs on leads to the next position. -/
theorem Effect.steps (h : Effect mulAdd op m m') (hp : 4096 + 2 * p < 0xFFFFFFF0)
    (hdecode : decodeAt code p = .ok ⟨op, width⟩) :
    Steps mulAdd (Program.ofCode code) 1 (codeAddress p) m (codeAddress (p + width.halfWords))
      m'.tick :=
  .one (codeAddress_ne_return hp) ((step_codeAddress hp hdecode).trans (h _ _))

/-- An operation that fails stops the machine at its position. -/
theorem Fails.step_eq {halt : Halt} (h : Fails mulAdd op m halt) (hp : 4096 + 2 * p < 0xFFFFFFF0)
    (hdecode : decodeAt code p = .ok ⟨op, width⟩) :
    ∃ stopped, step mulAdd (Program.ofCode code) (codeAddress p) m = .error halt stopped := by
  obtain ⟨stopped, hstop⟩ := h (codeAddress p) (codeAddress (p + width.halfWords))
  exact ⟨stopped, (step_codeAddress hp hdecode).trans hstop⟩

end Machine

end HeliumKernels
