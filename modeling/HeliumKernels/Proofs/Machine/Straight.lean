/-
  HeliumKernels.Proofs.Machine.Straight

  Instructions in a row.  A script that only emits instructions has one
  outcome for each state it starts in, so that whatever it achieves is what
  every run of it does; and it takes as many steps as it has instructions.
-/
import HeliumKernels.Proofs.Machine.Frame

namespace HeliumKernels

namespace Machine

variable {mulAdd : MulAdd} {s t : Script} {m m₁ m₂ m' : Machine}

/-! ## One outcome -/

/-- Instructions take effect one after the other.  Unlike `Does`, this can be taken
    apart in one way only. -/
def Follows (mulAdd : MulAdd) : Script → Machine → Machine → Prop
  | [], m, m' => m' = m
  | .emit i :: rest, m, m' =>
    ∃ m₁, Effect mulAdd i.meaning m m₁ ∧ Follows mulAdd rest m₁.tick m'
  | _ :: _, _, _ => False

theorem Follows.append (hs : Follows mulAdd s m m₁) (ht : Follows mulAdd t m₁ m') :
    Follows mulAdd (s ++ t) m m' := by
  induction s generalizing m with
  | nil =>
    obtain rfl : m₁ = m := hs
    exact ht
  | cons d s ih =>
    cases d with
    | emit i =>
      obtain ⟨m₂, heffect, hrest⟩ := hs
      exact ⟨m₂, heffect, ih hrest⟩
    | _ => exact hs.elim

theorem Effect.unique {op : Operation} (h : Effect mulAdd op m m₁) (h' : Effect mulAdd op m m₂) :
    m₁ = m₂ := by
  have heq := (h 0 0).symm.trans (h' 0 0)
  injection heq

theorem Follows.unique (h : Follows mulAdd s m m₁) (h' : Follows mulAdd s m m₂) : m₁ = m₂ := by
  induction s generalizing m with
  | nil => exact Eq.trans h (Eq.symm h')
  | cons d s ih =>
    cases d with
    | emit i =>
      obtain ⟨_, heffect, hrest⟩ := h
      obtain ⟨_, heffect', hrest'⟩ := h'
      obtain rfl := heffect.unique heffect'
      exact ih hrest hrest'
    | _ => exact h.elim

theorem Does.follows (h : Does mulAdd s m m') (hs : s.Straight) : Follows mulAdd s m m' := by
  induction h with
  | nil => rfl
  | append _ _ ihs iht =>
    obtain ⟨hs, ht⟩ := Script.straight_append.mp hs
    exact (ihs hs).append (iht ht)
  | emit _ heffect => exact ⟨_, heffect, rfl⟩
  | note fault => exact absurd (hs _ List.mem_cons_self) (by simp [Directive.isEmit])
  | again | leave => exact absurd (hs _ List.mem_cons_self) (by simp [Directive.isEmit])

/-- What straight code achieves, every run of it does. -/
theorem Achieves.of_does {touch : Touch} {Q : Machine → Prop} (h : Achieves mulAdd s touch m Q)
    (hs : s.Straight) (hdoes : Does mulAdd s m m') : Frame touch m m' ∧ Q m' := by
  obtain ⟨m₁, hdoes₁, hframe, hQ⟩ := h
  obtain rfl := (hdoes₁.follows hs).unique (hdoes.follows hs)
  exact ⟨hframe, hQ⟩

/-! ## Counting -/

/-- Straight code takes one step for each of its instructions. -/
theorem Does.steps_of_straight (h : Does mulAdd s m m') (hs : s.Straight) {code : Array UInt16}
    {env env' : List (Label × Nat)} {p p' : Nat} (hplaced : Placed code env p s env' p')
    (hp' : 4096 + 2 * p' ≤ 0xFFFFFFF0) :
    Steps mulAdd (Program.ofCode code) s.length (codeAddress p) m (codeAddress p') m' := by
  induction h generalizing env env' p p' with
  | nil =>
    cases hplaced
    exact .refl
  | append _ _ ihs iht =>
    obtain ⟨hs, ht⟩ := Script.straight_append.mp hs
    obtain ⟨env₁, p₁, hplaced, hplaced'⟩ := Placed.append_iff.mp hplaced
    rw [List.length_append]
    have hle := hplaced'.le
    exact (ihs hs hplaced (by omega)).trans (iht ht hplaced' hp')
  | @emit i _ _ _ _ heffect =>
    have hwidth := Spelling.width_pos i.width
    obtain ⟨hdecode, hrest⟩ := Placed.emit_iff.mp hplaced
    cases hrest
    exact heffect.steps (by omega) hdecode
  | note fault => exact absurd (hs _ List.mem_cons_self) (by simp [Directive.isEmit])
  | again | leave => exact absurd (hs _ List.mem_cons_self) (by simp [Directive.isEmit])

/-- Straight code whose last instruction goes on at a given address. -/
theorem Does.steps_of_exits {i : Instruction} {target : UInt32} {m₁ : Machine}
    (h : Does mulAdd s m m₁) (hs : s.Straight) (hexits : Exits mulAdd i.meaning target m₁ m')
    {code : Array UInt16} {env env' : List (Label × Nat)} {p p' : Nat}
    (hplaced : Placed code env p (s ++ [.emit i]) env' p') (hp' : 4096 + 2 * p' ≤ 0xFFFFFFF0) :
    Steps mulAdd (Program.ofCode code) (s.length + 1) (codeAddress p) m target m'.tick := by
  obtain ⟨env₁, p₁, hbody, hlast⟩ := Placed.append_iff.mp hplaced
  obtain ⟨hdecode, hrest⟩ := Placed.emit_iff.mp hlast
  have hle := hrest.le
  have hwidth := Spelling.width_pos i.width
  exact (h.steps_of_straight hs hbody (by omega)).trans (hexits.steps (by omega) hdecode)

end Machine

end HeliumKernels
