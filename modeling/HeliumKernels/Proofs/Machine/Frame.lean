/-
  HeliumKernels.Proofs.Machine.Frame

  What scripts achieve and what they leave alone.  A `Touch` names the
  registers, vectors and words a piece of code may change; `Frame` says that
  everything else is as it was.  `Achieves` combines both with a
  postcondition, and has one rule for each way of putting scripts together:
  one after the other, one piece for each element of a list, and loops.
-/
import HeliumKernels.Proofs.Machine.Structured

namespace HeliumKernels

/-- What a piece of code may change.  The flags are always among it. -/
structure Touch where
  reg : Reg → Prop := fun _ => False
  vec : QReg → Prop := fun _ => False
  predicate : Prop := False
  block : Prop := False
  memory : UInt32 → Prop := fun _ => False

namespace Touch

/-- One may change no more than the other. -/
structure Within (t u : Touch) : Prop where
  reg : ∀ r, t.reg r → u.reg r
  vec : ∀ q, t.vec q → u.vec q
  predicate : t.predicate → u.predicate
  block : t.block → u.block
  memory : ∀ a, t.memory a → u.memory a

theorem Within.refl (t : Touch) : t.Within t :=
  ⟨fun _ => id, fun _ => id, id, id, fun _ => id⟩

/-- Scalar registers alone. -/
def regs (p : Reg → Prop) : Touch := { reg := p }

/-- Vector registers alone. -/
def vecs (p : QReg → Prop) : Touch := { vec := p }

theorem regs_within {p : Reg → Prop} {t : Touch} (h : ∀ r, p r → t.reg r) :
    (regs p).Within t :=
  ⟨h, fun _ => False.elim, False.elim, False.elim, fun _ => False.elim⟩

theorem vecs_within {p : QReg → Prop} {t : Touch} (h : ∀ q, p q → t.vec q) :
    (vecs p).Within t :=
  ⟨fun _ => False.elim, h, False.elim, False.elim, fun _ => False.elim⟩

theorem block_within {t : Touch} (h : t.block) : Within { block := True } t :=
  ⟨fun _ => False.elim, fun _ => False.elim, False.elim, fun _ => h, fun _ => False.elim⟩

/-- All that the members of a family may change. -/
def union {α : Type} (p : α → Prop) (touch : α → Touch) : Touch where
  reg r := ∃ x, p x ∧ (touch x).reg r
  vec q := ∃ x, p x ∧ (touch x).vec q
  predicate := ∃ x, p x ∧ (touch x).predicate
  block := ∃ x, p x ∧ (touch x).block
  memory a := ∃ x, p x ∧ (touch x).memory a

/-- All that the elements of a list but one may change. -/
def others {α : Type} (xs : List α) (touch : α → Touch) (x : α) : Touch :=
  union (fun y => y ∈ xs ∧ y ≠ x) touch

/-- Also the predication block. -/
def blocked (t : Touch) : Touch := { t with block := True }

theorem Within.blocked {t u : Touch} (h : t.Within u) : t.blocked.Within u.blocked :=
  ⟨h.reg, h.vec, h.predicate, fun _ => trivial, h.memory⟩

theorem union_within {α : Type} {p : α → Prop} {touch : α → Touch} {t : Touch}
    (h : ∀ x, p x → (touch x).Within t) : (union p touch).Within t where
  reg r := fun ⟨x, hx, hr⟩ => (h x hx).reg r hr
  vec q := fun ⟨x, hx, hq⟩ => (h x hx).vec q hq
  predicate := fun ⟨x, hx, hp⟩ => (h x hx).predicate hp
  block := fun ⟨x, hx, hb⟩ => (h x hx).block hb
  memory a := fun ⟨x, hx, ha⟩ => (h x hx).memory a ha

theorem within_union {α : Type} {p : α → Prop} {touch : α → Touch} {x : α} (hx : p x) :
    (touch x).Within (union p touch) where
  reg _ hr := ⟨x, hx, hr⟩
  vec _ hq := ⟨x, hx, hq⟩
  predicate hp := ⟨x, hx, hp⟩
  block hb := ⟨x, hx, hb⟩
  memory _ ha := ⟨x, hx, ha⟩

theorem union_mono {α : Type} {p q : α → Prop} {touch : α → Touch} (h : ∀ x, p x → q x) :
    (union p touch).Within (union q touch) :=
  union_within fun x hx => within_union (h x hx)

theorem union_blocked_within {α : Type} {p q : α → Prop} {touch : α → Touch} (h : ∀ x, p x → q x) :
    (union p fun x => (touch x).blocked).Within (union q touch).blocked :=
  union_within fun x hx => (within_union (h x hx)).blocked

end Touch

namespace Machine

/-- Everything that a piece of code may not change is as it was. -/
structure Frame (t : Touch) (m m' : Machine) : Prop where
  reg : ∀ r, ¬t.reg r → m'.reg r = m.reg r
  lane : ∀ q l, ¬t.vec q → m'.lane q l = m.lane q l
  predicate : ¬t.predicate → m'.predicate = m.predicate
  block : ¬t.block → m'.vptRemaining = m.vptRemaining
  tail : m'.tailPredicated = m.tailPredicated
  memory : Memory.Writes t.memory m.memory m'.memory

namespace Frame

variable {t u : Touch} {m m₁ m' : Machine}

theorem refl (t : Touch) (m : Machine) : Frame t m m :=
  ⟨fun _ _ => rfl, fun _ _ _ => rfl, fun _ => rfl, fun _ => rfl, rfl, .refl⟩

theorem trans (h : Frame t m m₁) (h' : Frame t m₁ m') : Frame t m m' where
  reg r hr := (h'.reg r hr).trans (h.reg r hr)
  lane q l hq := (h'.lane q l hq).trans (h.lane q l hq)
  predicate hp := (h'.predicate hp).trans (h.predicate hp)
  block hb := (h'.block hb).trans (h.block hb)
  tail := h'.tail.trans h.tail
  memory := h.memory.trans h'.memory

theorem mono (h : Frame t m m') (hle : t.Within u) : Frame u m m' where
  reg r hr := h.reg r fun hr' => hr (hle.reg r hr')
  lane q l hq := h.lane q l fun hq' => hq (hle.vec q hq')
  predicate hp := h.predicate fun hp' => hp (hle.predicate hp')
  block hb := h.block fun hb' => hb (hle.block hb')
  tail := h.tail
  memory := h.memory.mono hle.memory

theorem tick (h : Frame t m m') : Frame t m m'.tick := ⟨h.1, h.2, h.3, h.4, h.5, h.6⟩

theorem plain (h : Frame t m m') (hblock : ¬t.block) (hm : m.Plain) : m'.Plain :=
  ⟨(h.block hblock).trans hm.block, h.tail.trans hm.tail⟩

end Frame

theorem frame_setReg (m : Machine) (r : Reg) (value : UInt32) (flags : Flags) :
    Frame (Touch.regs (· = r)) m { m.setReg r value with flags } where
  reg _ hs := reg_setReg_of_ne m value (Ne.symm hs)
  lane _ _ _ := rfl
  predicate _ := rfl
  block _ := rfl
  tail := rfl
  memory := .refl

theorem frame_setVector (m : Machine) (q : QReg) (values : Vector UInt32 4) :
    Frame (Touch.vecs (· = q)) m (m.setVector q values) where
  reg _ _ := rfl
  lane _ l hp := lane_setVector_of_ne m values l (Ne.symm hp)
  predicate _ := rfl
  block _ := rfl
  tail := rfl
  memory := .refl

theorem frame_setSingles (m : Machine) (values : SReg → UInt32) (singles : List SReg) :
    Frame (Touch.vecs fun q => ∃ l, laneIndex q l ∈ singles) m (m.setSingles values singles) where
  reg _ _ := by
    rw [setSingles_eq]
    rfl
  lane q l hq := (single_setSingles m values singles _).trans (if_neg fun hl => hq ⟨l, hl⟩)
  predicate _ := by rw [setSingles_eq]
  block _ := by rw [setSingles_eq]
  tail := by rw [setSingles_eq]
  memory := by
    rw [setSingles_eq]
    exact .refl

/-! ## Achieving a postcondition -/

/-- Running a script ends in a state with the postcondition, and changes no more
    than it may. -/
def Achieves (mulAdd : MulAdd) (script : Script) (t : Touch) (m : Machine)
    (Q : Machine → Prop) : Prop :=
  ∃ m', Does mulAdd script m m' ∧ Frame t m m' ∧ Q m'

namespace Achieves

variable {mulAdd : MulAdd} {s s' : Script} {t t' u : Touch} {m : Machine} {Q Q' : Machine → Prop}

theorem nil (h : Q m) : Achieves mulAdd [] t m Q :=
  ⟨m, .nil, .refl t m, h⟩

theorem note (fault : Fault) (h : Q m) : Achieves mulAdd [.note fault] t m Q :=
  ⟨m, .note fault, .refl t m, h⟩

theorem emit {i : Instruction} {m' : Machine} (hword : ∃ word, i.assemble = .ok word)
    (heffect : Effect mulAdd i.meaning m m') (hframe : Frame t m m') (hQ : Q m'.tick) :
    Achieves mulAdd [.emit i] t m Q := by
  obtain ⟨word, hword⟩ := hword
  exact ⟨m'.tick, .emit hword heffect, hframe.tick, hQ⟩

theorem mono (h : Achieves mulAdd s t m Q) (hle : t.Within u)
    (hQ : ∀ m', Frame t m m' → Q m' → Q' m') : Achieves mulAdd s u m Q' := by
  obtain ⟨m', hdoes, hframe, hm'⟩ := h
  exact ⟨m', hdoes, hframe.mono hle, hQ m' hframe hm'⟩

theorem imp (h : Achieves mulAdd s t m Q) (hQ : ∀ m', Frame t m m' → Q m' → Q' m') :
    Achieves mulAdd s t m Q' :=
  h.mono (.refl t) hQ

/-- One script after the other; the second may rely on what the first leaves alone. -/
theorem seq (h : Achieves mulAdd s t m Q)
    (h' : ∀ m', Frame t m m' → Q m' → Achieves mulAdd s' u m' Q') (hle : t.Within u) :
    Achieves mulAdd (s ++ s') u m Q' := by
  obtain ⟨m₁, hdoes₁, hframe₁, hm₁⟩ := h
  obtain ⟨m₂, hdoes₂, hframe₂, hm₂⟩ := h' m₁ hframe₁ hm₁
  exact ⟨m₂, .append hdoes₁ hdoes₂, (hframe₁.mono hle).trans hframe₂, hm₂⟩

/-- A predication block that was used up leaves no trace. -/
theorem unblock (h : Achieves mulAdd s t.blocked m Q)
    (hblock : ∀ m', Q m' → m'.vptRemaining = m.vptRemaining) : Achieves mulAdd s t m Q := by
  obtain ⟨m', hdoes, hframe, hm'⟩ := h
  exact ⟨m', hdoes, ⟨hframe.reg, hframe.lane, hframe.predicate, fun _ => hblock m' hm', hframe.tail,
    hframe.memory⟩, hm'⟩

/-! ### Lists -/

section Each

variable {α : Type} {xs : List α} {f : α → Script} {touch : α → Touch}
  {P : α → Machine → Prop} {J : List α → Machine → Prop}

/-- A piece for each element of a list.  Each piece makes its own postcondition
    true, whatever the others did, and spoils none of theirs; `J` tells of the
    elements that are left. -/
theorem each_with (hnodup : xs.Nodup)
    (hstep : ∀ x rest, x :: rest <:+ xs → ∀ m',
      Frame (Touch.others xs touch x) m m' → J (x :: rest) m' →
      Achieves mulAdd (f x) (touch x) m' fun m'' => P x m'' ∧ J rest m'')
    (hkeep : ∀ x ∈ xs, ∀ m₁ m₂, Frame (Touch.others xs touch x) m₁ m₂ → P x m₁ → P x m₂)
    (hJ : J xs m) :
    Achieves mulAdd (xs.flatMap f) (Touch.union (· ∈ xs) touch) m
      fun m' => (∀ x ∈ xs, P x m') ∧ J [] m' := by
  -- induction on the elements that are left, from any state the others may have led to
  suffices hmain : ∀ rest done, xs = done ++ rest → ∀ m₁,
      Frame (Touch.union (· ∈ done) touch) m m₁ → (∀ x ∈ done, P x m₁) → J rest m₁ →
      Achieves mulAdd (rest.flatMap f) (Touch.union (· ∈ xs) touch) m₁
        fun m' => (∀ x ∈ xs, P x m') ∧ J [] m' from
    hmain xs [] rfl m (.refl _ m) (fun _ h => absurd h List.not_mem_nil) hJ
  intro rest
  induction rest with
  | nil =>
    intro done hxs m₁ _ hdone hJ
    rw [List.append_nil] at hxs
    exact .nil ⟨hxs ▸ hdone, hJ⟩
  | cons x rest ih =>
    intro done hxs m₁ hframe hdone hJ
    have hmem : ∀ y ∈ done, y ∈ xs := fun y hy => hxs ▸ List.mem_append_left _ hy
    have hx : x ∈ xs := hxs ▸ List.mem_append_right _ List.mem_cons_self
    have hne : ∀ y ∈ done, y ≠ x := by
      intro y hy heq
      rw [hxs, List.nodup_append] at hnodup
      exact hnodup.2.2 y hy x List.mem_cons_self heq
    -- what was done so far is the work of others, since no element stands twice in the list
    have hothers : Frame (Touch.others xs touch x) m m₁ :=
      hframe.mono (Touch.union_within fun y hy => Touch.within_union ⟨hmem y hy, hne y hy⟩)
    refine (hstep x rest ⟨done, hxs.symm⟩ m₁ hothers hJ).seq ?_ (Touch.within_union hx)
    intro m₂ hframe₂ ⟨hPx, hJ₂⟩
    refine ih (done ++ [x]) (by rw [hxs, List.append_assoc]; rfl) m₂ ?_ ?_ hJ₂
    · refine (hframe.mono (Touch.union_within fun y hy => ?_)).trans
        (hframe₂.mono (Touch.within_union (List.mem_append_right _ List.mem_cons_self)))
      exact Touch.within_union (List.mem_append_left _ hy)
    · intro y hy
      -- the postconditions of the earlier elements survive this piece; its own is new
      rcases List.mem_append.mp hy with hy | hy
      · exact hkeep y (hmem y hy) m₁ m₂ (hframe₂.mono (Touch.within_union ⟨hx, (hne y hy).symm⟩))
          (hdone y hy)
      · rw [List.mem_singleton.mp hy]
        exact hPx

theorem each (hnodup : xs.Nodup)
    (hstep : ∀ x ∈ xs, ∀ m', Frame (Touch.others xs touch x) m m' →
      Achieves mulAdd (f x) (touch x) m' (P x))
    (hkeep : ∀ x ∈ xs, ∀ m₁ m₂, Frame (Touch.others xs touch x) m₁ m₂ → P x m₁ → P x m₂) :
    Achieves mulAdd (xs.flatMap f) (Touch.union (· ∈ xs) touch) m fun m' => ∀ x ∈ xs, P x m' := by
  have h : Achieves mulAdd (xs.flatMap f) (Touch.union (· ∈ xs) touch) m
      fun m' => (∀ x ∈ xs, P x m') ∧ True :=
    each_with (J := fun _ _ => True) hnodup
      (fun x rest hrest m' hframe _ =>
        (hstep x (hrest.mem List.mem_cons_self) m' hframe).imp fun _ _ hP => ⟨hP, trivial⟩)
      hkeep trivial
  exact h.imp fun _ _ hm' => hm'.1

end Each

/-! ### Loops -/

/-- A loop that runs `n` times; `I c` holds after `c` rounds. -/
theorem loop {label : Label} {jump : Nat → Nat → Jump} {body : Script} {d : Directive} {n : Nat}
    {I : Nat → Machine → Prop} (hd : d.backward? = some (label, jump))
    (hfresh : label ∉ body.labels) (hn : 0 < n)
    (hround : ∀ c < n, ∀ m₁, Frame t m m₁ → I c m₁ →
      Achieves mulAdd body t m₁ fun m₂ =>
        ∃ m₃, Closing d m₂ m₃ (decide (c + 1 < n)) ∧ Frame t m₂ m₃ ∧ I (c + 1) m₃.tick)
    (hI : I 0 m) : Achieves mulAdd (.mark label :: (body ++ [d])) t m (I n) := by
  -- induction on the rounds that are left after this one, which the closing jump counts
  suffices hmain : ∀ left c, c + (left + 1) = n → ∀ m₁, Frame t m m₁ → I c m₁ →
      Achieves mulAdd (.mark label :: (body ++ [d])) t m₁ (I n) from
    hmain (n - 1) 0 (by omega) m (.refl t m) hI
  intro left
  induction left with
  | zero =>
    intro c hc m₁ hframe hIc
    obtain ⟨m₂, hdoes, hframe₂, m₃, hclosing, hframe₃, hI₃⟩ := hround c (by omega) m₁ hframe hIc
    rw [decide_eq_false (by omega)] at hclosing
    rw [hc] at hI₃
    exact ⟨m₃.tick, .leave hd hfresh hdoes hclosing, (hframe₂.trans hframe₃).tick, hI₃⟩
  | succ left ih =>
    intro c hc m₁ hframe hIc
    obtain ⟨m₂, hdoes, hframe₂, m₃, hclosing, hframe₃, hI₃⟩ := hround c (by omega) m₁ hframe hIc
    rw [decide_eq_true (by omega)] at hclosing
    have hframe' := (hframe₂.trans hframe₃).tick
    obtain ⟨m', hrest, hframe'', hI'⟩ := ih (c + 1) (by omega) _ (hframe.trans hframe') hI₃
    exact ⟨m', .again hd hfresh hdoes hclosing hrest, hframe'.trans hframe'', hI'⟩

end Achieves

end Machine

end HeliumKernels
