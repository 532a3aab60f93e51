/-
  HeliumKernels.Proofs.Machine.Composition

  What instructions are put together from.  `Composed` lists the ways in
  which computations on the machine are combined, and tells those that may
  end in a trap from those that do not; the execution of every instruction is
  composed like that.  What is closed under these ways holds of instructions.
-/
import HeliumKernels.Machine.Step
import Mathlib

namespace HeliumKernels

/-- Whether an operation saves registers on the stack or restores them. -/
def Operation.usesStack : Operation → Bool
  | push .. | pop .. | vpush .. | vpop .. => true
  | _ => false

namespace Machine

open Run

/-- The machine with another step limit and another count of steps. -/
def metered (m : Machine) (limit steps : Nat) : Machine :=
  { m with stepLimit := limit, steps := steps }

/-- Computations that look neither at the step limit nor at the step count.  Only if
    `trapping` holds may they end in a trap. -/
inductive Composed (trapping : Bool) : {α : Type} → Run α → Prop where
  | pure {α : Type} (a : α) : Composed trapping (Pure.pure a : Run α)
  | fail {α : Type} (cause : MachineError) : Composed trapping (Run.fail cause : Run α)
  | trap {α : Type} (cause : Trap) (h : trapping = true) :
      Composed trapping (throw (.trap cause) : Run α)
  | bind {α β : Type} {x : Run α} {f : α → Run β} (hx : Composed trapping x)
      (hf : ∀ a, Composed trapping (f a)) : Composed trapping (x >>= f)
  | get_bind {β : Type} {f : Machine → Run β}
      (hsame : ∀ m limit steps, f (m.metered limit steps) = f m)
      (hf : ∀ m, Composed trapping (f m)) : Composed trapping (get >>= f)
  | modified {f : Machine → Machine}
      (hf : ∀ m limit steps, f (m.metered limit steps) = (f m).metered limit steps) :
      Composed trapping (modify f : Run Unit)
  | load (address : UInt32) : Composed trapping (Run.load address)
  | store (address value : UInt32) : Composed trapping (Run.store address value)

namespace Composed

variable {trapping : Bool} {α : Type}

theorem ite {c : Prop} [Decidable c] {x y : Run α} (hx : Composed trapping x)
    (hy : Composed trapping y) : Composed trapping (if c then x else y) := by
  split
  · exact hx
  · exact hy

theorem forM {xs : List α} {f : α → Run Unit} (hf : ∀ a, Composed trapping (f a)) :
    Composed trapping (xs.forM f) := by
  induction xs with
  | nil => exact pure ()
  | cons a xs ih => exact bind (hf a) fun _ => ih

/-! ## Parts of instructions -/

theorem advance (address distance : UInt32) : Composed true (Run.advance address distance) :=
  ite (trap _ rfl) (pure _)

theorem checked (x : Except Trap α) : Composed true (Run.checked x) := by
  cases x
  · exact trap _ rfl
  · exact pure _

theorem writeReg (r : Reg) (value : UInt32) : Composed trapping (Run.writeReg r value) :=
  modified fun _ _ _ => rfl

theorem exchange (target : UInt32) : Composed trapping (Machine.exchange target) :=
  ite (fail _) (pure _)

theorem branchTarget (pc : UInt32) (offset : Int) : Composed true (Machine.branchTarget pc offset) :=
  bind (advance _ _) fun _ => pure _

theorem requireWords (size : LaneSize) (pc : UInt32) :
    Composed trapping (Machine.requireWords size pc) :=
  ite (pure _) (fail _)

theorem arithmetic (op : AddSub) (x y : UInt32) (setFlags : Bool) :
    Composed trapping (Machine.arithmetic op x y setFlags) := by
  cases setFlags
  · exact pure _
  · exact bind (modified fun _ _ _ => rfl) fun _ => pure _

theorem storeRegs (pc : UInt32) (regs : List Reg) (address : UInt32) :
    Composed true (Machine.storeRegs pc regs address) := by
  induction regs generalizing address with
  | nil => exact pure _
  | cons r regs ih =>
    exact get_bind (fun _ _ _ => rfl) fun _ => bind (store _ _) fun _ =>
      bind (advance _ _) fun _ => ih _

theorem loadRegs (regs : List Reg) (address next : UInt32) :
    Composed true (Machine.loadRegs regs address next) := by
  induction regs generalizing address next with
  | nil => exact pure _
  | cons r regs ih =>
    refine bind (load _) fun value => ?_
    -- a program counter is exchanged, any other register written; then both go on alike
    have hrest : ∀ next, Composed true (Run.advance address 4 >>= fun a =>
        Machine.loadRegs regs a next) := fun next => bind (advance _ _) fun _ => ih _ _
    exact ite (bind (exchange _) hrest) (bind (writeReg _ _) fun _ => bind (pure _) hrest)

theorem doubleHalf (d half : Nat) : Composed true (Machine.doubleHalf d half) := by
  unfold Machine.doubleHalf
  split
  · exact pure _
  · exact trap _ rfl

theorem storeDoubles (count d : Nat) (address : UInt32) :
    Composed true (Machine.storeDoubles count d address) := by
  induction count generalizing d address with
  | zero => exact pure _
  | succ count ih =>
    exact bind (doubleHalf _ _) fun _ => bind (doubleHalf _ _) fun _ =>
      get_bind (fun _ _ _ => rfl) fun _ => bind (store _ _) fun _ => bind (advance _ _) fun _ =>
        get_bind (fun _ _ _ => rfl) fun _ => bind (store _ _) fun _ =>
          bind (advance _ _) fun _ => ih _ _

theorem loadDoubles (count d : Nat) (address : UInt32) :
    Composed true (Machine.loadDoubles count d address) := by
  induction count generalizing d address with
  | zero => exact pure _
  | succ count ih =>
    exact bind (load _) fun _ => bind (doubleHalf _ _) fun _ =>
      bind (modified fun _ _ _ => rfl) fun _ => bind (advance _ _) fun _ =>
        bind (load _) fun _ => bind (doubleHalf _ _) fun _ =>
          bind (modified fun _ _ _ => rfl) fun _ => bind (advance _ _) fun _ => ih _ _

theorem loadLanes (mask : LaneMask) (q : QReg) (address : UInt32) :
    Composed trapping (Machine.loadLanes mask q address) :=
  forM fun _ => ite (bind (load _) fun _ => modified fun _ _ _ => rfl)
    (bind (pure _) fun _ => modified fun _ _ _ => rfl)

theorem storeLanes (mask : LaneMask) (q : QReg) (address : UInt32) :
    Composed trapping (Machine.storeLanes mask q address) :=
  forM fun _ => ite (get_bind (fun _ _ _ => rfl) fun _ => store _ _) (pure _)

theorem mapLanes (mask : LaneMask) (q : QReg) {value : Machine → Lane → UInt32}
    (hvalue : ∀ m limit steps, value (m.metered limit steps) = value m) :
    Composed trapping (modify fun m => m.mapLanes mask q value : Run Unit) := by
  refine modified fun m limit steps => ?_
  unfold Machine.mapLanes
  generalize Lane.all = lanes
  induction lanes generalizing m with
  | nil => rfl
  | cons lane lanes ih =>
    rw [List.foldl_cons, List.foldl_cons, ← ih, hvalue]
    split <;> rfl

/-! ## Instructions -/

theorem laneMask (op : Operation) (pc : UInt32) : Composed true (Machine.laneMask op pc) := by
  refine get_bind (fun _ _ _ => rfl) fun m => ?_
  -- the mask is cut to the tail the same way on every path
  have hrest : ∀ mask : LaneMask, Composed true (if m.tailPredicated && op.isVector then
      Pure.pure (LaneMask.below mask (m.reg .lr)) else Pure.pure mask : Run LaneMask) :=
    fun _ => ite (pure _) (pure _)
  refine ite (pure _) (ite (ite ?_ ?_) (hrest _))
  · exact bind (checked _) fun _ => bind (fail _) fun _ =>
      bind (modified fun _ _ _ => rfl) fun _ => hrest _
  · exact bind (modified fun _ _ _ => rfl) fun _ => hrest _

/-- Starting a loop, or leaving it for its exit when the count is zero. -/
theorem startLoop (pc next : UInt32) (rn : Reg) (tail : Option LaneSize) {exit : Option Int}
    (h : trapping = false → exit = none) :
    Composed trapping (get >>= fun m : Machine =>
      match exit, m.read pc rn == 0 with
      | some exit, true => Machine.branchTarget pc exit
      | _, _ => do
        Run.writeReg .lr (m.read pc rn)
        modify fun m => { m with tailPredicated := tail.isSome }
        return next) := by
  refine get_bind (fun _ _ _ => rfl) fun m => ?_
  split
  · obtain rfl : trapping = true := Bool.eq_true_of_not_eq_false fun hnot => nomatch h hnot
    exact branchTarget _ _
  · exact bind (writeReg _ _) fun _ => bind (modified fun _ _ _ => rfl) fun _ => pure _

/-- Writing an address back after a vector access. -/
theorem writeBack (indexing : Indexing) (rn : Reg) (moved next : UInt32) :
    Composed trapping (match indexing with
      | .offset => return next
      | _ => do
        Run.writeReg rn moved
        return next : Run UInt32) := by
  cases indexing
  · exact pure _
  · exact bind (writeReg _ _) fun _ => pure _
  · exact bind (writeReg _ _) fun _ => pure _

/-- Only stack accesses and branches may trap. -/
theorem execute {op : Operation}
    (h : trapping = false → op.usesStack = false ∧ op.branchOffset? = none) (mulAdd : MulAdd)
    (pc next : UInt32) (mask : LaneMask) :
    Composed trapping (Machine.execute mulAdd pc next mask op) := by
  have hstack : op.usesStack = true → trapping = true := by
    intro hop
    refine Bool.eq_true_of_not_eq_false fun hnot => ?_
    cases hop.symm.trans (h hnot).1
  have hbranch : op.branchOffset? ≠ none → trapping = true := fun hop =>
    Bool.eq_true_of_not_eq_false fun hnot => hop (h hnot).2
  cases op with
  | nop => exact pure _
  | movImm rd imm setFlags =>
    exact bind (writeReg _ _) fun _ =>
      ite (bind (modified fun _ _ _ => rfl) fun _ => pure _) (pure _)
  | movTop | movReg =>
    exact get_bind (fun _ _ _ => rfl) fun _ => bind (writeReg _ _) fun _ => pure _
  | addImm | subImm | addReg | subReg =>
    exact get_bind (fun _ _ _ => rfl) fun _ => bind (arithmetic _ _ _ _) fun _ =>
      bind (writeReg _ _) fun _ => pure _
  | cmpImm | cmpReg =>
    exact get_bind (fun _ _ _ => rfl) fun _ => bind (arithmetic _ _ _ _) fun _ => pure _
  | ldrImm rt rn offset indexing =>
    exact get_bind (fun _ _ _ => rfl) fun _ => bind (load _) fun _ =>
      ite (bind (writeReg _ _) fun _ => bind (writeReg _ _) fun _ => pure _)
        (bind (writeReg _ _) fun _ => pure _)
  | ldrReg =>
    exact get_bind (fun _ _ _ => rfl) fun _ => bind (load _) fun _ =>
      bind (writeReg _ _) fun _ => pure _
  | branch =>
    obtain rfl := hbranch nofun
    exact get_bind (fun _ _ _ => rfl) fun _ => ite (branchTarget _ _) (pure _)
  | bx => exact get_bind (fun _ _ _ => rfl) fun _ => exchange _
  | push =>
    obtain rfl := hstack rfl
    exact get_bind (fun _ _ _ => rfl) fun _ => bind (checked _) fun _ => bind (writeReg _ _) fun _ =>
      bind (storeRegs _ _ _) fun _ => pure _
  | pop =>
    obtain rfl := hstack rfl
    exact get_bind (fun _ _ _ => rfl) fun _ => bind (loadRegs _ _ _) fun _ =>
      bind (writeReg _ _) fun _ => pure _
  | vpush =>
    obtain rfl := hstack rfl
    exact get_bind (fun _ _ _ => rfl) fun _ => bind (checked _) fun _ => bind (writeReg _ _) fun _ =>
      bind (storeDoubles _ _ _) fun _ => pure _
  | vpop =>
    obtain rfl := hstack rfl
    exact get_bind (fun _ _ _ => rfl) fun _ => bind (loadDoubles _ _ _) fun _ =>
      bind (writeReg _ _) fun _ => pure _
  | loopStart rn tail exit =>
    have hexit : trapping = false → exit = none := by
      intro hnot
      have hnone := (h hnot).2
      cases exit with
      | none => rfl
      | some offset => cases hnone
    have hrest := startLoop pc next rn tail hexit
    cases tail with
    | none => exact hrest
    | some size => exact bind (requireWords _ _) fun _ => hrest
  | loopEnd back tailPredicated =>
    obtain rfl := hbranch nofun
    refine get_bind (fun _ _ _ => rfl) fun m => ite ?_ (ite ?_ (pure _))
    · exact bind (writeReg _ _) fun _ => branchTarget _ _
    · exact bind (modified fun _ _ _ => rfl) fun _ => pure _
  | vecMem access qd rn offset indexing =>
    refine get_bind (fun _ _ _ => rfl) fun m => ?_
    cases access
    · exact bind (loadLanes _ _ _) fun _ => writeBack indexing rn _ next
    · exact bind (storeLanes _ _ _) fun _ => writeBack indexing rn _ next
  | vfmaScalar =>
    exact get_bind (fun _ _ _ => rfl) fun _ => bind (mapLanes _ _ fun _ _ _ => rfl) fun _ => pure _
  | vfmaVector | vmovImm => exact bind (mapLanes _ _ fun _ _ _ => rfl) fun _ => pure _
  | vctp =>
    exact bind (requireWords _ _) fun _ => get_bind (fun _ _ _ => rfl) fun _ =>
      bind (modified fun _ _ _ => rfl) fun _ => pure _
  | vpst => exact bind (modified fun _ _ _ => rfl) fun _ => pure _
  | vmovSr =>
    exact get_bind (fun _ _ _ => rfl) fun _ => bind (modified fun _ _ _ => rfl) fun _ => pure _

theorem executes (mulAdd : MulAdd) (pc next : UInt32) (mask : LaneMask) (op : Operation) :
    Composed true (Machine.execute mulAdd pc next mask op) :=
  execute Bool.noConfusion ..

theorem step (mulAdd : MulAdd) (program : Program) (pc : UInt32) :
    Composed true (Machine.step mulAdd program pc) := by
  unfold Machine.step
  split
  · exact fail _
  · exact fail _
  · exact bind (laneMask _ _) fun _ => bind (advance _ _) fun _ => executes ..

end Composed

end Machine

end HeliumKernels
