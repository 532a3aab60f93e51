/-
  HeliumKernels.Proofs.Machine.Duration

  How long scripts take.  Straight code takes one step for each directive,
  and a loop as many times more as it has rounds.  `AchievesWithin` bounds
  the steps of a script by a multiple of its length, so that one bound for
  all pieces is a bound for what they are put together to.
-/
import HeliumKernels.Proofs.Machine.Straight

namespace HeliumKernels

namespace Machine

variable {mulAdd : MulAdd} {s s' : Script} {t u : Touch} {m m' : Machine} {Q Q' : Machine → Prop}
  {rounds : Nat}

/-! ## Counting steps -/

/-- No operation counts itself. -/
theorem steps_eq_of_execute {op : Operation} {pc next target : UInt32}
    (h : (laneMask op pc >>= fun mask => execute mulAdd pc next mask op) m = .ok target m') :
    m'.steps = m.steps :=
  Unmetered.steps_eq (.of_composed (.bind (.laneMask op pc) fun _ => .executes ..)) h

theorem Exits.steps_eq {op : Operation} {target : UInt32} (h : Exits mulAdd op target m m') :
    m'.steps = m.steps :=
  steps_eq_of_execute (h 0 0)

theorem Effect.steps_eq {op : Operation} (h : Effect mulAdd op m m') : m'.steps = m.steps :=
  steps_eq_of_execute (h 0 0)

theorem Closing.steps_eq {d : Directive} {again : Bool} (h : Closing d m m' again) :
    m'.steps = m.steps := by
  cases h <;> rfl

/-- The machine counts the instructions of straight code. -/
theorem Does.steps_eq (h : Does mulAdd s m m') (hs : s.Straight) :
    m'.steps = m.steps + s.length := by
  induction h with
  | nil => rfl
  | append _ _ ihs iht =>
    obtain ⟨hs, ht⟩ := Script.straight_append.mp hs
    rw [iht ht, ihs hs, List.length_append, Nat.add_assoc]
  | @emit _ _ _ m' _ heffect => exact congrArg (· + 1) heffect.steps_eq
  | note fault => exact absurd (hs _ List.mem_cons_self) (by simp [Directive.isEmit])
  | again | leave => exact absurd (hs _ List.mem_cons_self) (by simp [Directive.isEmit])

/-! ## Achieving within a bound -/

/-- Running a script achieves a postcondition and takes at most `rounds` steps for each
    directive. -/
def AchievesWithin (rounds : Nat) (mulAdd : MulAdd) (script : Script) (t : Touch) (m : Machine)
    (Q : Machine → Prop) : Prop :=
  Achieves mulAdd script t m fun m' => Q m' ∧ m'.steps ≤ m.steps + rounds * script.length

theorem Achieves.within (h : Achieves mulAdd s t m Q) (hs : s.Straight) (hrounds : 0 < rounds) :
    AchievesWithin rounds mulAdd s t m Q := by
  obtain ⟨m', hdoes, hframe, hQ⟩ := h
  have hle := Nat.le_mul_of_pos_left s.length hrounds
  have hsteps := hdoes.steps_eq hs
  exact ⟨m', hdoes, hframe, hQ, by omega⟩

namespace AchievesWithin

theorem achieves (h : AchievesWithin rounds mulAdd s t m Q) : Achieves mulAdd s t m Q :=
  h.imp fun _ _ hm' => hm'.1

theorem nil (h : Q m) : AchievesWithin rounds mulAdd [] t m Q :=
  Achieves.nil ⟨h, Nat.le_add_right _ _⟩

theorem note (fault : Fault) (h : Q m) : AchievesWithin rounds mulAdd [.note fault] t m Q :=
  Achieves.note fault ⟨h, Nat.le_add_right _ _⟩

theorem mono (h : AchievesWithin rounds mulAdd s t m Q) (hle : t.Within u)
    (hQ : ∀ m', Frame t m m' → Q m' → Q' m') : AchievesWithin rounds mulAdd s u m Q' :=
  Achieves.mono h hle fun m' hframe hm' => ⟨hQ m' hframe hm'.1, hm'.2⟩

theorem imp (h : AchievesWithin rounds mulAdd s t m Q) (hQ : ∀ m', Frame t m m' → Q m' → Q' m') :
    AchievesWithin rounds mulAdd s t m Q' :=
  h.mono (.refl t) hQ

theorem more {rounds' : Nat} (h : AchievesWithin rounds mulAdd s t m Q) (hle : rounds ≤ rounds') :
    AchievesWithin rounds' mulAdd s t m Q := by
  have hmul := Nat.mul_le_mul_right s.length hle
  exact Achieves.imp h fun m' _ hm' => ⟨hm'.1, by omega⟩

theorem seq (h : AchievesWithin rounds mulAdd s t m Q)
    (h' : ∀ m', Frame t m m' → Q m' → AchievesWithin rounds mulAdd s' u m' Q') (hle : t.Within u) :
    AchievesWithin rounds mulAdd (s ++ s') u m Q' := by
  refine Achieves.seq h (fun m₁ hframe₁ hm₁ => ?_) hle
  refine Achieves.imp (h' m₁ hframe₁ hm₁.1) fun m₂ _ hm₂ => ⟨hm₂.1, ?_⟩
  have hfirst := hm₁.2
  have hsecond := hm₂.2
  rw [List.length_append, Nat.mul_add]
  omega

/-- A loop that runs `n` times takes `n` times as long as its body. -/
theorem loop {label : Label} {jump : Nat → Nat → Jump} {body : Script} {d : Directive} {n : Nat}
    {I : Nat → Machine → Prop} (hd : d.backward? = some (label, jump))
    (hfresh : label ∉ body.labels) (hn : 0 < n) (hrounds : 0 < rounds)
    (hround : ∀ c < n, ∀ m₁, Frame t m m₁ → I c m₁ →
      AchievesWithin rounds mulAdd body t m₁ fun m₂ =>
        ∃ m₃, Closing d m₂ m₃ (decide (c + 1 < n)) ∧ Frame t m₂ m₃ ∧ I (c + 1) m₃.tick)
    (hI : I 0 m) :
    AchievesWithin (rounds * n) mulAdd (.mark label :: (body ++ [d])) t m (I n) := by
  -- each round takes the steps of the body and one for the jump
  have hloop : Achieves mulAdd (.mark label :: (body ++ [d])) t m fun m' =>
      I n m' ∧ m'.steps ≤ m.steps + (rounds * body.length + 1) * n := by
    refine Achieves.loop (I := fun c m' => I c m' ∧
      m'.steps ≤ m.steps + (rounds * body.length + 1) * c) hd hfresh hn
      (fun c hc m₁ hframe₁ hI₁ => ?_) ⟨hI, Nat.le_add_right _ _⟩
    refine Achieves.imp (hround c hc m₁ hframe₁ hI₁.1) ?_
    rintro m₂ - ⟨⟨m₃, hclosing, hframe₃, hI₃⟩, hbody⟩
    refine ⟨m₃, hclosing, hframe₃, hI₃, ?_⟩
    have hbefore := hI₁.2
    have hjump : m₃.tick.steps = m₂.steps + 1 := congrArg (· + 1) hclosing.steps_eq
    rw [Nat.mul_succ]
    omega
  refine Achieves.imp hloop fun m' _ hm' => ⟨hm'.1, Nat.le_trans hm'.2 ?_⟩
  have hlength : (Directive.mark label :: (body ++ [d])).length = body.length + 2 := by simp
  have hone : rounds * body.length + 1 ≤ rounds * (body.length + 2) := by
    rw [Nat.mul_add]
    omega
  have hall := Nat.mul_le_mul_right n hone
  rw [hlength, Nat.mul_right_comm]
  omega

end AchievesWithin

end Machine

end HeliumKernels
