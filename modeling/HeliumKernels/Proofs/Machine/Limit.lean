/-
  HeliumKernels.Proofs.Machine.Limit

  The step limit and the step count play no part in the execution of an
  instruction: with another limit or count the machine does the same.
  `Unmetered` states this for a computation; it is closed under the ways
  computations are put together, so that it holds of `step`.
-/
import HeliumKernels.Proofs.Machine.Composition

namespace HeliumKernels

namespace Machine

open Run

/-- The machine with another step limit. -/
def withLimit (m : Machine) (limit : Nat) : Machine :=
  { m with stepLimit := limit }

/-- The outcome with another step limit and another count of steps. -/
def remetered {α : Type} (limit steps : Nat) :
    EStateM.Result Halt Machine α → EStateM.Result Halt Machine α
  | .ok a m => .ok a (m.metered limit steps)
  | .error e m => .error e (m.metered limit steps)

/-- A computation on which step limit and step count have no influence. -/
def Unmetered {α : Type} (x : Run α) : Prop :=
  ∀ m limit steps, x (m.metered limit steps) = remetered limit steps (x m)

namespace Unmetered

variable {α : Type} {x : Run α}

/-- No computation of the machine looks at its meter. -/
theorem of_composed {trapping : Bool} (h : Composed trapping x) : Unmetered x := by
  induction h with
  | pure | fail | trap => exact fun _ _ _ => rfl
  | @bind _ _ x f _ _ ihx ihf =>
    intro m limit steps
    show EStateM.bind x f _ = remetered limit steps (EStateM.bind x f m)
    rw [EStateM.bind, EStateM.bind, ihx]
    cases x m with
    | ok a m' => exact ihf a m' limit steps
    | error e m' => rfl
  | @get_bind _ f hsame _ ihf =>
    intro m limit steps
    -- what follows reads the state only to pass it on, so both sides run the same computation
    show f (m.metered limit steps) (m.metered limit steps) = remetered limit steps (f m m)
    rw [hsame, ihf m]
  | @modified f hf =>
    intro m limit steps
    show EStateM.Result.ok () (f (m.metered limit steps)) = _
    rw [hf]
    rfl
  | load address =>
    intro m limit steps
    have hmemory : (m.metered limit steps).memory = m.memory := rfl
    simp only [load, hmemory]
    cases m.memory.read address <;> rfl
  | store address value =>
    intro m limit steps
    have hmemory : (m.metered limit steps).memory = m.memory := rfl
    simp only [store, hmemory]
    cases m.memory.writeError? address <;> rfl

theorem step (mulAdd : MulAdd) (program : Program) (pc : UInt32) :
    Unmetered (Machine.step mulAdd program pc) :=
  .of_composed (.step mulAdd program pc)

/-- Such a computation leaves both alone. -/
theorem eq_metered (h : Unmetered x) {m m' : Machine} {a : α} (hx : x m = .ok a m') :
    m' = m'.metered m.stepLimit m.steps := by
  have hm : x m = remetered m.stepLimit m.steps (x m) := h m m.stepLimit m.steps
  rw [hx] at hm
  injection hm

theorem stepLimit_eq (h : Unmetered x) {m m' : Machine} {a : α} (hx : x m = .ok a m') :
    m'.stepLimit = m.stepLimit := by
  rw [h.eq_metered hx]
  rfl

theorem steps_eq (h : Unmetered x) {m m' : Machine} {a : α} (hx : x m = .ok a m') :
    m'.steps = m.steps := by
  rw [h.eq_metered hx]
  rfl

/-- With another limit it gives the same result. -/
theorem ok_withLimit (h : Unmetered x) {m m' : Machine} {a : α} (hx : x m = .ok a m')
    (limit : Nat) : x (m.withLimit limit) = .ok a (m'.withLimit limit) := by
  show x (m.metered limit m.steps) = .ok a (m'.metered limit m'.steps)
  rw [h, hx, h.steps_eq hx]
  rfl

/-- With another limit it stops for the same reason. -/
theorem error_withLimit (h : Unmetered x) {m m' : Machine} {e : Halt}
    (hx : x m = .error e m') (limit : Nat) :
    ∃ stopped, x (m.withLimit limit) = .error e stopped := by
  have hlimit := h m limit m.steps
  rw [hx] at hlimit
  exact ⟨_, hlimit⟩

end Unmetered

end Machine

end HeliumKernels
