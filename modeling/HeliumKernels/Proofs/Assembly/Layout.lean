/-
  HeliumKernels.Proofs.Assembly.Layout

  Where the pieces of a script end up.  `Placed` says that code holds a
  script between two positions: each emitted instruction decodes at its
  place, and each branch back decodes to a jump to the position its label
  stands for.  The code of a kernel without a fatal fault has its whole
  script placed from zero on.
-/
import HeliumKernels.Proofs.Assembly.Agreement
import HeliumKernels.Proofs.Assembly.Landing

namespace HeliumKernels

namespace Directive

/-- Label a directive defines or uses up. -/
def label? : Directive → Option Label
  | mark label | target label _ | branchTo label _ | loopEnd label _ | reserve label _
  | bind label _ | patch label _ => some label
  | emit _ | raw _ | note _ => none

/-- Whether a directive belongs to a script without forward references. -/
def isBackward : Directive → Bool
  | emit _ | mark _ | branchTo .. | loopEnd .. | note _ => true
  | raw _ | target .. | reserve .. | bind .. | patch .. => false

/-- Whether a directive appends an instruction and nothing else. -/
def isEmit : Directive → Bool
  | emit _ => true
  | _ => false

theorem label?_of_isEmit {d : Directive} (h : d.isEmit = true) : d.label? = none := by
  cases d with
  | emit i => rfl
  | _ => cases h

theorem label?_of_backward? {d : Directive} {label : Label} {jump : Nat → Nat → Jump}
    (h : d.backward? = some (label, jump)) : d.label? = some label := by
  cases d <;> simp only [backward?, Option.some.injEq, Prod.mk.injEq, reduceCtorEq] at h
  · rw [← h.1]; rfl
  · rw [← h.1]; rfl

end Directive

namespace Script

variable {s t : Script}

/-- Every emitted instruction assembles. -/
def Assembles (script : Script) : Prop :=
  ∀ i, .emit i ∈ script → ∃ word, i.assemble = .ok word

@[simp] theorem assembles_nil : Assembles [] := fun _ hi => absurd hi List.not_mem_nil

@[simp] theorem assembles_append : Assembles (s ++ t) ↔ Assembles s ∧ Assembles t := by
  simp only [Assembles, List.mem_append, or_imp, forall_and]

@[simp] theorem assembles_emit {i : Instruction} :
    Assembles (.emit i :: s) ↔ (∃ word, i.assemble = .ok word) ∧ Assembles s := by
  simp only [Assembles, List.mem_cons, or_imp, forall_and, Directive.emit.injEq, forall_eq]

theorem assembles_singleton {i : Instruction} :
    Assembles [.emit i] ↔ ∃ word, i.assemble = .ok word := by
  rw [assembles_emit, and_iff_left assembles_nil]

/-- Only what is emitted has to assemble. -/
theorem assembles_cons {d : Directive} (hd : d.isEmit = false) :
    Assembles (d :: s) ↔ Assembles s := by
  have hne : ∀ i, Directive.emit i ≠ d := by
    rintro i rfl
    cases hd
  simp [Assembles, hne]

theorem assembles_flatMap {α : Type} {xs : List α} {f : α → Script}
    (h : ∀ x ∈ xs, Assembles (f x)) : Assembles (xs.flatMap f) := by
  intro i hi
  obtain ⟨x, hx, hi⟩ := List.mem_flatMap.mp hi
  exact h x hx i hi

theorem assembles_map {α : Type} {xs : List α} {f : α → Directive}
    (h : ∀ x ∈ xs, Assembles [f x]) : Assembles (xs.map f) := by
  rw [List.map_eq_flatMap]
  exact assembles_flatMap h

/-- Instructions in a row. -/
def Straight (s : Script) : Prop :=
  ∀ d ∈ s, d.isEmit = true

@[simp] theorem straight_nil : Straight [] := fun _ hd => absurd hd List.not_mem_nil

@[simp] theorem straight_append : Straight (s ++ t) ↔ Straight s ∧ Straight t :=
  List.forall_mem_append

@[simp] theorem straight_emit {i : Instruction} : Straight (.emit i :: s) ↔ Straight s := by
  simp [Straight, Directive.isEmit]

theorem straight_flatMap {α : Type} {xs : List α} {f : α → Script}
    (h : ∀ x ∈ xs, Straight (f x)) : Straight (xs.flatMap f) := by
  intro d hd
  obtain ⟨x, hx, hd⟩ := List.mem_flatMap.mp hd
  exact h x hx d hd

theorem straight_map {α : Type} {xs : List α} {f : α → Directive}
    (h : ∀ x ∈ xs, (f x).isEmit = true) : Straight (xs.map f) := by
  intro d hd
  obtain ⟨x, hx, rfl⟩ := List.mem_map.mp hd
  exact h x hx

/-- Labels that the directives of a script define or use up. -/
def labels (script : Script) : List Label :=
  script.filterMap Directive.label?

@[simp] theorem labels_nil : labels [] = [] := rfl

theorem labels_eq_nil (h : ∀ d ∈ s, d.label? = none) : s.labels = [] :=
  List.filterMap_eq_nil_iff.mpr h

theorem Straight.labels_eq_nil (h : s.Straight) : s.labels = [] :=
  Script.labels_eq_nil fun d hd => Directive.label?_of_isEmit (h d hd)

@[simp] theorem labels_append (s t : Script) : labels (s ++ t) = labels s ++ labels t :=
  List.filterMap_append

@[simp] theorem labels_emit (i : Instruction) (s : Script) : labels (.emit i :: s) = labels s := rfl

@[simp] theorem labels_note (fault : Fault) (s : Script) : labels (.note fault :: s) = labels s :=
  rfl

@[simp] theorem labels_mark (label : Label) (s : Script) :
    labels (.mark label :: s) = label :: labels s := rfl

@[simp] theorem labels_branchTo (label : Label) (cond : Condition) (s : Script) :
    labels (.branchTo label cond :: s) = label :: labels s := rfl

@[simp] theorem labels_loopEnd (label : Label) (tail : Bool) (s : Script) :
    labels (.loopEnd label tail :: s) = label :: labels s := rfl

theorem label?_ne_of_not_mem {script : Script} {label : Label} (h : label ∉ labels script) :
    ∀ d ∈ script, d.label? ≠ some label :=
  fun _ hd hlabel => h (List.mem_filterMap.mpr ⟨_, hd, hlabel⟩)

end Script

/-- Code holds a script from the first to the second position; the lists give the
    open labels before and after. -/
inductive Placed (code : Array UInt16) :
    List (Label × Nat) → Nat → Script → List (Label × Nat) → Nat → Prop where
  | nil {env : List (Label × Nat)} {p : Nat} : Placed code env p [] env p
  | emit {env env' : List (Label × Nat)} {p p' : Nat} {i : Instruction} {rest : Script}
      (hdecode : decodeAt code p = .ok ⟨i.meaning, i.width⟩)
      (hrest : Placed code env (p + i.width.halfWords) rest env' p') :
      Placed code env p (.emit i :: rest) env' p'
  | mark {env env' : List (Label × Nat)} {p p' : Nat} {label : Label} {rest : Script}
      (hrest : Placed code ((label, p) :: env) p rest env' p') :
      Placed code env p (.mark label :: rest) env' p'
  | back {env env' : List (Label × Nat)} {p p' target : Nat} {label : Label} {d : Directive}
      {jump : Nat → Nat → Jump} {rest : Script} (hd : d.backward? = some (label, jump))
      (hlookup : env.lookup label = some target)
      (hdecode : decodeAt code p =
        .ok ⟨(jump p target).instruction.meaning, (jump p target).instruction.width⟩)
      (hrest : Placed code (env.filter fun entry => entry.1 != label)
        (p + (jump p target).instruction.width.halfWords) rest env' p') :
      Placed code env p (d :: rest) env' p'
  | note {env env' : List (Label × Nat)} {p p' : Nat} {fault : Fault} {rest : Script}
      (hrest : Placed code env p rest env' p') :
      Placed code env p (.note fault :: rest) env' p'

namespace Placed

variable {code : Array UInt16} {env env' : List (Label × Nat)} {p p' : Nat} {s t : Script}

theorem append_iff : Placed code env p (s ++ t) env' p' ↔
    ∃ env₁ p₁, Placed code env p s env₁ p₁ ∧ Placed code env₁ p₁ t env' p' := by
  constructor
  · intro h
    induction s generalizing env p with
    | nil => exact ⟨env, p, .nil, h⟩
    | cons d s ih =>
      cases h with
      | emit hdecode hrest =>
        obtain ⟨env₁, p₁, hs, ht⟩ := ih hrest
        exact ⟨env₁, p₁, .emit hdecode hs, ht⟩
      | mark hrest =>
        obtain ⟨env₁, p₁, hs, ht⟩ := ih hrest
        exact ⟨env₁, p₁, .mark hs, ht⟩
      | back hd hlookup hdecode hrest =>
        obtain ⟨env₁, p₁, hs, ht⟩ := ih hrest
        exact ⟨env₁, p₁, .back hd hlookup hdecode hs, ht⟩
      | note hrest =>
        obtain ⟨env₁, p₁, hs, ht⟩ := ih hrest
        exact ⟨env₁, p₁, .note hs, ht⟩
  · rintro ⟨env₁, p₁, hs, ht⟩
    induction hs with
    | nil => exact ht
    | emit hdecode _ ih => exact .emit hdecode (ih ht)
    | mark _ ih => exact .mark (ih ht)
    | back hd hlookup hdecode _ ih => exact .back hd hlookup hdecode (ih ht)
    | note _ ih => exact .note (ih ht)

theorem emit_iff {i : Instruction} : Placed code env p (.emit i :: s) env' p' ↔
    decodeAt code p = .ok ⟨i.meaning, i.width⟩ ∧
      Placed code env (p + i.width.halfWords) s env' p' := by
  constructor
  · intro h
    cases h with
    | emit hdecode hrest => exact ⟨hdecode, hrest⟩
    | back hd => cases hd
  · rintro ⟨hdecode, hrest⟩
    exact .emit hdecode hrest

theorem le (h : Placed code env p s env' p') : p ≤ p' := by
  induction h with
  | nil => exact Nat.le_refl _
  | emit _ _ ih => omega
  | mark _ ih => exact ih
  | back _ _ _ _ ih => omega
  | note _ ih => exact ih

theorem lookup_filter_ne {label other : Label} (h : other ≠ label) :
    (env.filter fun entry => entry.1 != label).lookup other = env.lookup other := by
  induction env with
  | nil => rfl
  | cons entry env ih =>
    obtain ⟨l, t⟩ := entry
    by_cases hl : l = label
    · subst hl
      rw [List.filter_cons_of_neg (by simp), List.lookup_cons, ih, beq_eq_false_iff_ne.mpr h]
    · rw [List.filter_cons_of_pos (by simpa using hl), List.lookup_cons, List.lookup_cons, ih]

/-- A label that a script does not mention keeps its position. -/
theorem lookup_eq (h : Placed code env p s env' p') {label : Label}
    (hfresh : ∀ d ∈ s, d.label? ≠ some label) : env'.lookup label = env.lookup label := by
  induction h with
  | nil => rfl
  | emit _ _ ih => exact ih fun d hd => hfresh d (List.mem_cons_of_mem _ hd)
  | @mark _ _ _ _ l _ _ ih =>
    rw [ih fun d hd => hfresh d (List.mem_cons_of_mem _ hd), List.lookup_cons]
    have hne : label ≠ l := fun heq => hfresh _ List.mem_cons_self (heq ▸ rfl)
    rw [beq_eq_false_iff_ne.mpr hne]
  | @back _ _ _ _ _ l _ _ _ hd _ _ _ ih =>
    rw [ih fun d hd => hfresh d (List.mem_cons_of_mem _ hd)]
    have hne : label ≠ l := fun heq =>
      hfresh _ List.mem_cons_self (heq ▸ Directive.label?_of_backward? hd)
    exact lookup_filter_ne hne
  | note _ ih => exact ih fun d hd => hfresh d (List.mem_cons_of_mem _ hd)

/-- A loop: the body stands between its first position and the jump back there. -/
theorem loop {label : Label} {d : Directive} {jump : Nat → Nat → Jump}
    (hd : d.backward? = some (label, jump)) (hfresh : ∀ d ∈ s, d.label? ≠ some label)
    (h : Placed code env p (.mark label :: (s ++ [d])) env' p') :
    ∃ env₁ p₁, Placed code ((label, p) :: env) p s env₁ p₁ ∧
      decodeAt code p₁ =
        .ok ⟨(jump p₁ p).instruction.meaning, (jump p₁ p).instruction.width⟩ ∧
      p' = p₁ + (jump p₁ p).instruction.width.halfWords := by
  cases h with
  | back hd' => cases hd'
  | mark h =>
    obtain ⟨env₁, p₁, hs, ht⟩ := append_iff.mp h
    -- the body does not mention the label, so it still stands for the first position
    have hlookup : env₁.lookup label = some p := by
      rw [hs.lookup_eq hfresh, List.lookup_cons, beq_self_eq_true]
    cases ht with
    | emit => cases hd
    | mark => cases hd
    | note => cases hd
    | back hd' hlookup' hdecode hrest =>
      obtain ⟨rfl, rfl⟩ := Prod.mk.inj (Option.some.inj (hd.symm.trans hd'))
      obtain rfl := Option.some.inj (hlookup.symm.trans hlookup')
      cases hrest
      exact ⟨env₁, p₁, hs, hdecode, rfl⟩

end Placed

/-! ## Kernels are placed -/

namespace Assembler

variable {a a' final : Assembler} {ws ws' : List Word}

/-- A directive without forward references opens no slot. -/
theorem slots_step {d : Directive} (hd : d.isBackward = true) (hstep : a.step d = .ok a') :
    a'.slots = a.slots := by
  cases d with
  | emit | mark | note => exact Except.ok.inj hstep ▸ rfl
  | branchTo | loopEnd =>
    obtain ⟨_, -, hstep⟩ := bind_eq_ok.mp hstep
    obtain ⟨_, -, hstep⟩ := bind_eq_ok.mp hstep
    exact pure_eq_ok.mp hstep ▸ rfl
  | _ => cases hd

theorem slots_run {script : Script} (hback : ∀ d ∈ script, d.isBackward = true)
    (hrun : a.run script = .ok a') : a'.slots = a.slots := by
  induction script generalizing a with
  | nil => rw [pure_eq_ok.mp hrun]
  | cons d script ih =>
    obtain ⟨a₁, hstep, hrun⟩ := run_cons.mp hrun
    rw [ih (fun d hd => hback d (List.mem_cons_of_mem _ hd)) hrun,
      slots_step (hback d List.mem_cons_self) hstep]

/-- Without a fatal fault at the end the buffer never was full. -/
theorem Sound.not_exhausted (h : a.Sound ws) (hadv : Advances a ws final ws')
    (hfatal : final.buffer.hasFatalFault = false) : a.buffer.exhausted = false := by
  have hnone := hadv.not_fatal hfatal
  by_contra hfull
  rw [h.buffer.fatal_of_exhausted (by simpa using hfull)] at hnone
  cases hnone

/-- An instruction that was appended decodes where the cursor stood, in the code of every
    run that goes on behind it. -/
theorem Sound.decodeAt_emit (h : a.Sound ws) {i : Instruction}
    (hword : ∃ word, i.assemble = .ok word) (hroom : (a.buffer.emit i).exhausted = false)
    {after : Script} (hafter : { a with buffer := a.buffer.emit i }.run after = .ok final) :
    decodeAt final.buffer.code a.buffer.cursor = .ok ⟨i.meaning, i.width⟩ ∧
      (a.buffer.emit i).cursor = a.buffer.cursor + i.width.halfWords ∧
      ∃ ws₁, Sound { a with buffer := a.buffer.emit i } ws₁ := by
  obtain ⟨word, hword⟩ := hword
  obtain ⟨faults, word', heq, hsame⟩ := Buffer.emit_eq_append a.buffer i
  obtain rfl := hsame word hword
  have htrip := Instruction.roundTrips_of_assemble hword
  obtain ⟨ws₁, h₁, -, hcases⟩ := h.append faults word' h.targets_le
  rw [← heq] at h₁ hcases
  obtain ⟨ws', hfinal, hadv⟩ := h₁.run hafter
  -- the word is settled as soon as it is appended, and no later directive moves it
  rcases hcases with ⟨hfull, -⟩ | ⟨hsettled, -, hmoved⟩
  · rw [hfull] at hroom
    cases hroom
  · have hdecode := hfinal.decodeAt_eq (hadv.settled _ _ hsettled) htrip.reading_eq
    rw [htrip.width_eq] at hdecode hmoved
    exact ⟨hdecode, hmoved, ws₁, h₁⟩

/-- A script without forward references is placed in the code of every run that goes
    on behind it and ends without a fatal fault. -/
theorem Sound.placed_before (h : a.Sound ws) {script after : Script}
    (hassembles : script.Assembles) (hback : ∀ d ∈ script, d.isBackward = true)
    (hlength : a.buffer.cursor + 2 * script.length ≤ 2 ^ 29) (hrun : a.run script = .ok a')
    (hafter : a'.run after = .ok final) (hfatal : final.buffer.hasFatalFault = false) :
    Placed final.buffer.code a.targets a.buffer.cursor script a'.targets a'.buffer.cursor := by
  induction script generalizing a ws with
  | nil =>
    obtain rfl := pure_eq_ok.mp hrun
    exact .nil
  | cons d script ih =>
    obtain ⟨a₁, hstep, hrun⟩ := run_cons.mp hrun
    have hd := hback d List.mem_cons_self
    have hcursor := cursor_step_le hstep
    rw [List.length_cons] at hlength
    have hon : a₁.run (script ++ after) = .ok final := run_append.mpr ⟨a', hrun, hafter⟩
    -- the rest is placed from wherever this directive leaves the cursor
    have hrest : ∀ ws₁, a₁.Sound ws₁ → Placed final.buffer.code a₁.targets a₁.buffer.cursor script
        a'.targets a'.buffer.cursor := fun ws₁ h₁ =>
      ih h₁ (fun i hi => hassembles i (List.mem_cons_of_mem _ hi))
        (fun d hd => hback d (List.mem_cons_of_mem _ hd)) (by omega) hrun
    -- branches and loop ends land alike; only their records differ
    have hjump : ∀ label jump, d.backward? = some (label, jump) →
        Placed final.buffer.code a.targets a.buffer.cursor (d :: script) a'.targets
          a'.buffer.cursor := by
      intro label jump hd
      obtain ⟨target, hlookup, htargets, -, hsource, -, ws₁, h₁, -, hlanded, hcursor₁⟩ :=
        h.jump_backward (by omega) hd hstep
      obtain ⟨ws', hfinal, hadv⟩ := h₁.run hon
      have hdecode := (hlanded.decodeAt_eq hadv hfinal).1 hfatal
      rw [hsource] at hdecode
      refine .back hd hlookup hdecode ?_
      rw [← htargets, ← hcursor₁ (hadv.not_fatal hfatal)]
      exact hrest ws₁ h₁
    cases d with
    | emit i =>
      obtain ⟨ws₁, h₁, -⟩ := h.step hstep
      obtain ⟨_, -, hadv⟩ := h₁.run hon
      -- no fatal fault at the end means that this word found room
      have hroom := h₁.not_exhausted hadv hfatal
      obtain rfl := Except.ok.inj hstep
      obtain ⟨hdecode, hmoved, -⟩ :=
        h.decodeAt_emit (hassembles i List.mem_cons_self) hroom hon
      refine .emit hdecode ?_
      rw [← hmoved]
      exact hrest ws₁ h₁
    | mark label =>
      obtain ⟨ws₁, h₁, -⟩ := h.step hstep
      have hplaced := hrest ws₁ h₁
      obtain rfl := Except.ok.inj hstep
      exact .mark hplaced
    | branchTo label cond => exact hjump _ _ rfl
    | loopEnd label tailPredicated => exact hjump _ _ rfl
    | note fault =>
      obtain ⟨ws₁, h₁, -⟩ := h.step hstep
      have hplaced := hrest ws₁ h₁
      obtain rfl := Except.ok.inj hstep
      exact .note hplaced
    | _ => cases hd

/-- A script without forward references is placed in the code of a run that ends
    without a fatal fault. -/
theorem Sound.placed (h : a.Sound ws) {script : Script} (hassembles : script.Assembles)
    (hback : ∀ d ∈ script, d.isBackward = true)
    (hlength : a.buffer.cursor + 2 * script.length ≤ 2 ^ 29) (hrun : a.run script = .ok final)
    (hfatal : final.buffer.hasFatalFault = false) :
    Placed final.buffer.code a.targets a.buffer.cursor script final.targets
      final.buffer.cursor :=
  h.placed_before hassembles hback hlength hrun (show final.run [] = .ok final from rfl) hfatal

end Assembler

end HeliumKernels
