/-
  HeliumKernels.Proofs.Kernel.Constant

  Constants as code.  The sequences that load a constant or add one may be
  appended to any kernel that has room for them.  They record nothing, and
  wherever they then stand they run through to the instruction behind them
  and change the destination alone.  Tail predication makes no difference,
  since none of their instructions is a vector instruction.
-/
import HeliumKernels.Binary32.Fused
import HeliumKernels.Proofs.Assembly.Span
import HeliumKernels.Proofs.Kernel.Sequence
import HeliumKernels.Proofs.Machine.Straight

namespace HeliumKernels

open Machine Assembler

/-- At most the given scalar registers and the flags differ. -/
structure Machine.AgreeBut (changed : Reg → Prop) (m m' : Machine) : Prop where
  reg : ∀ r, ¬changed r → m'.reg r = m.reg r
  lane : ∀ q l, m'.lane q l = m.lane q l
  memory : m'.memory = m.memory
  predicate : m'.predicate = m.predicate
  block : m'.vptRemaining = m.vptRemaining
  tail : m'.tailPredicated = m.tailPredicated

theorem Machine.Frame.agreeBut {changed : Reg → Prop} {m m' : Machine}
    (h : Frame (Touch.regs changed) m m') : AgreeBut changed m m' :=
  ⟨h.reg, fun q l => h.lane q l id, h.memory.eq_of_none, h.predicate id, h.block id, h.tail⟩

namespace Script

/-- Appended to any kernel with room for it, a script records nothing.  In the code of
    whatever is appended behind it, it runs from its first half-word to the one behind its
    last, on every machine without a pending block, and relates the states before and
    after.  The code has to end at or below the return address, where every run stops. -/
def Realises (s : Script) (R : Machine → Machine → Prop) : Prop :=
  ∀ (b : Buffer) (before : Script) (a : Assembler), (start b.reset).run before = .ok a →
    a.buffer.exhausted = false → a.buffer.cursor + s.span ≤ a.buffer.capacity →
  ∃ a', a.run s = .ok a' ∧ a'.buffer.faults = a.buffer.faults ∧
    a'.buffer.cursor = a.buffer.cursor + s.span ∧
    ∀ (after : Script) (final : Assembler), a'.run after = .ok final →
      codeBase.toNat + 2 * a'.buffer.cursor ≤ returnAddress.toNat →
    ∀ (mulAdd : MulAdd) (m : Machine), m.vptRemaining = 0 →
    ∃ m', Steps mulAdd (Program.ofCode final.buffer.code) s.length
        (codeAddress a.buffer.cursor) m (codeAddress a'.buffer.cursor) m' ∧ R m m'

/-- Instructions in a row realise what they achieve on every machine without a pending
    block. -/
theorem realises_of_achieves {s : Script} {changed : Reg → Prop} {Q : Machine → Machine → Prop}
    (hs : s.Straight) (hassembles : s.Assembles)
    (h : ∀ (mulAdd : MulAdd) (m : Machine), m.vptRemaining = 0 →
      Achieves mulAdd s (Touch.regs changed) m (Q m)) :
    s.Realises fun m m' => Q m m' ∧ AgreeBut changed m m' := by
  intro b before a hbefore hroom hfits
  obtain ⟨ws, ha, -⟩ := (sound_start b).run hbefore
  obtain ⟨a', hrun, hroom', hfaults, hcursor⟩ := run_straight hs hassembles hroom hfits
  refine ⟨a', hrun, hfaults, hcursor, fun after final hafter hend mulAdd m hblock => ?_⟩
  obtain ⟨m', hdoes, hframe, hQ⟩ := h mulAdd m hblock
  have hplaced := ha.placed_straight hs hassembles hrun hroom' hafter
  exact ⟨m', hdoes.steps_of_straight hs hplaced hend, hQ, hframe.agreeBut⟩

end Script

namespace Sequence

theorem realises_loadConstant {rd : Reg} (hrd : rd.General) (value : UInt32) :
    (loadConstant rd value).Realises fun m m' =>
      m'.reg rd = value ∧ AgreeBut (· = rd) m m' :=
  Script.realises_of_achieves (straight_loadConstant rd value) (assembles_loadConstant hrd value)
    fun _ _ hblock => achieves_loadConstant hblock hrd value

theorem realises_addConstant {rd rn scratch : Reg} (hrd : rd.General) (hrn : rn.General)
    (hscratch : scratch.General) (hne : scratch ≠ rn) (value : Int) :
    (addConstant rd rn value scratch).Realises fun m m' =>
      m'.reg rd = m.reg rn + UInt32.ofInt value ∧
        AgreeBut (fun r => r = rd ∨ r = scratch ∧ NeedsScratch value) m m' :=
  Script.realises_of_achieves (straight_addConstant rd rn value scratch)
    (assembles_addConstant hrd hrn hscratch value)
    fun _ _ hblock => achieves_addConstant_sparing hblock hrd hrn hscratch hne value

/-- Constant sequences put the constant in the destination, or add it modulo `2 ^ 32`, and
    change nothing else; a sum takes the scratch register only if no immediate operand takes
    the constant. -/
theorem constants_realised :
    (∀ (rd : Reg) (value : UInt32), rd.General →
      (loadConstant rd value).Realises fun m m' =>
        m'.reg rd = value ∧ AgreeBut (· = rd) m m') ∧
    ∀ (rd rn scratch : Reg) (value : Int), rd.General → rn.General → scratch.General →
      scratch ≠ rn →
      (addConstant rd rn value scratch).Realises fun m m' =>
        m'.reg rd = m.reg rn + UInt32.ofInt value ∧
          AgreeBut (fun r => r = rd ∨ r = scratch ∧ NeedsScratch value) m m' :=
  ⟨fun _ value hrd => realises_loadConstant hrd value,
    fun _ _ _ value hrd hrn hscratch hne => realises_addConstant hrd hrn hscratch hne value⟩

/-- A machine inside a tail-predicated loop. -/
def predicatedMachine : Machine :=
  { Machine.fresh with tailPredicated := true }.setReg .r1 5

/-- In a tail-predicated loop and in a buffer that just holds them: a constant of two halves
    in the link register, and a difference that wraps around, with the destination as the
    scratch register. -/
theorem constants_realised_predicated :
    (∃ a' m', (start (Buffer.reset ⟨#[], 4, 0, [], false⟩)).run (loadConstant .lr 0x12345678) =
        .ok a' ∧ a'.buffer.faults = [] ∧
      Steps Binary32.mulAdd (Program.ofCode a'.buffer.code) 2 codeBase predicatedMachine
        (codeAddress 4) m' ∧ m'.reg .lr = 0x12345678 ∧ m'.memory = predicatedMachine.memory) ∧
    ∃ a' m', (start (Buffer.reset ⟨#[], 6, 0, [], false⟩)).run
        (addConstant .r0 .r1 (-0x12345) .r0) = .ok a' ∧ a'.buffer.faults = [] ∧
      Steps Binary32.mulAdd (Program.ofCode a'.buffer.code) 3 codeBase predicatedMachine
        (codeAddress 6) m' ∧ m'.reg .r0 = 0xFFFEDCC0 ∧ m'.reg .r1 = 5 := by
  obtain ⟨hload, hadd⟩ := constants_realised
  constructor
  · obtain ⟨a', hrun, hfaults, hcursor, hsteps⟩ := hload .lr 0x12345678 (by decide)
      ⟨#[], 4, 0, [], false⟩ [] _ rfl rfl (by decide)
    have hend : a'.buffer.cursor = 4 := hcursor
    obtain ⟨m', hsteps, hvalue, hagree⟩ := hsteps [] a' rfl (by rw [hend]; decide)
      Binary32.mulAdd predicatedMachine rfl
    rw [hend] at hsteps
    exact ⟨a', m', hrun, hfaults, hsteps, hvalue, hagree.memory⟩
  · obtain ⟨a', hrun, hfaults, hcursor, hsteps⟩ := hadd .r0 .r1 .r0 (-0x12345) (by decide)
      (by decide) (by decide) (by decide) ⟨#[], 6, 0, [], false⟩ [] _ rfl rfl (by decide)
    have hend : a'.buffer.cursor = 6 := hcursor
    obtain ⟨m', hsteps, hvalue, hagree⟩ := hsteps [] a' rfl (by rw [hend]; decide)
      Binary32.mulAdd predicatedMachine rfl
    rw [hend] at hsteps
    exact ⟨a', m', hrun, hfaults, hsteps, hvalue, hagree.reg .r1 (by decide)⟩

end Sequence

end HeliumKernels
