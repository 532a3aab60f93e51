/-
  HeliumKernels.Proofs.Machine.Iteration

  How often a low-overhead loop runs its body.  A loop is given by the two
  instructions that the machine reads at its start and at its end, wherever
  in the code they stand.  Nothing is asked of the body but that, whenever
  it is entered, it comes to the end of the loop with the count and the tail
  predication it was entered with.  `Performs` lists the rounds that follow;
  their number and the lanes that are active in each depend on the count
  alone.
-/
import HeliumKernels.Binary32.Fused
import HeliumKernels.Proofs.Machine.LowOverhead

namespace HeliumKernels

namespace LaneMask

theorem get_below_mask_iff (mask : LaneMask) (count : UInt32) (l : Lane) :
    (below mask count).get l = true ↔ mask.get l = true ∧ l.val < count.toNat := by
  have hl := l.isLt
  unfold below
  split
  · next hcount =>
    simp only [UInt32.le_iff_toNat_le, UInt32.reduceToNat] at hcount
    exact (and_iff_left (by omega)).symm
  · rw [Vector.get_ofFn, Bool.and_eq_true, decide_eq_true_eq]

/-- Number of lanes of a mask. -/
def active (mask : LaneMask) : Nat :=
  Lane.all.countP mask.get

/-- A mask of the lanes below a bound has as many of them, up to four. -/
theorem active_eq {mask : LaneMask} {bound : Nat}
    (h : ∀ l : Lane, mask.get l = true ↔ l.val < bound) : mask.active = min 4 bound := by
  have hget : ∀ l, mask.get l = decide (l.val < bound) := fun l => by
    rw [Bool.eq_iff_iff, h, decide_eq_true_eq]
  simp only [active, Lane.all, List.countP_cons, List.countP_nil, hget, decide_eq_true_eq]
  rcases Nat.lt_or_ge bound 4 with hbound | hbound
  · interval_cases bound <;> rfl
  · have hall : ∀ l : Lane, l.val < bound := fun l => l.isLt.trans_le hbound
    simp only [hall, ↓reduceIte]
    omega

end LaneMask

namespace Machine

open Run

/-- A vector operation acts on the lanes below a bound, and in a predication block on those
    of them that the predicate has. -/
def Activates (m : Machine) (bound : Nat) : Prop :=
  ∀ op pc, op.isVector = true → ∃ mask m₁, laneMask op pc m = .ok mask m₁ ∧
    (∀ l : Lane, mask.get l = true ↔
      l.val < bound ∧ (m.vptRemaining = 0 ∨ m.predicate.get l = true)) ∧
    (m.vptRemaining = 0 → mask.active = min 4 bound)

theorem activates_of_tail {m : Machine} (htail : m.tailPredicated = true) :
    m.Activates (m.reg .lr).toNat := by
  intro op pc hop
  -- the count masks in both cases; a block adds its predicate
  cases hblock : m.vptRemaining with
  | zero =>
    have hmask := LaneMask.get_below_iff (m.reg .lr)
    refine ⟨_, m, laneMask_of_tail hblock htail hop pc, fun l => ?_, fun _ =>
      LaneMask.active_eq hmask⟩
    rw [hmask, and_iff_left (Or.inl rfl)]
  | succ count =>
    refine ⟨_, _, laneMask_of_block_tail hblock htail hop pc, fun l => ?_, nofun⟩
    rw [LaneMask.get_below_mask_iff, and_comm, or_iff_right (Nat.succ_ne_zero count)]

/-! ## Rounds -/

/-- A run up to an address, which it does not meet before.  `passed` holds the states in
    which it executes its instructions. -/
inductive Passes (mulAdd : MulAdd) (program : Program) (stop : UInt32) :
    UInt32 → Machine → List Machine → Machine → Prop where
  | done {m : Machine} : Passes mulAdd program stop stop m [] m
  | step {pc pc₁ : UInt32} {m m₁ m' : Machine} {passed : List Machine} (hstop : pc ≠ stop)
      (hpc : pc ≠ returnAddress) (hstep : step mulAdd program pc m = .ok pc₁ m₁)
      (hrest : Passes mulAdd program stop pc₁ m₁.tick passed m') :
      Passes mulAdd program stop pc m (m :: passed) m'

/-- One execution of the body of a loop: the state in which it is entered, those in which
    its instructions are executed, and the one in which the end of the loop is. -/
structure Round where
  entry : Machine
  passed : List Machine
  close : Machine

/-- The instructions at two addresses start and end a loop.  The end goes back to the body,
    which stands right behind the start; the exit of the start, if it has one, is right
    behind the end. -/
structure Encloses (program : Program) (rn : Reg) (tail : Bool) (exit : Option Int) (back : Int)
    (start stop : UInt32) : Prop where
  first : fetch? program start = some (.ok ⟨.loopStart rn (loopLanes tail) exit, .wide⟩)
  last : fetch? program stop = some (.ok ⟨.loopEnd back tail, .wide⟩)
  before : start.toNat + 4 ≤ stop.toNat
  behind : stop.toNat + 4 < 2 ^ 32
  back_lands : displaced (stop + 4) (-back) = start + 4
  exit_lands : ∀ offset, exit = some offset → displaced (start + 4) offset = stop + 4

section Rounds

variable (mulAdd : MulAdd) (program : Program) (start stop : UInt32)

/-- States in which the body of a loop is entered that is started in state `m`. -/
inductive Enters (m : Machine) : Machine → Prop where
  | first {m₁ : Machine} (hstep : step mulAdd program start m = .ok (start + 4) m₁) :
      Enters m m₁.tick
  | again {x y y₁ : Machine} {passed : List Machine} (hx : Enters m x)
      (hpasses : Passes mulAdd program stop (start + 4) x passed y)
      (hstep : step mulAdd program stop y = .ok (start + 4) y₁) : Enters m y₁.tick

/-- What is asked of the body of a loop: whenever it is entered, outside of a predication
    block, it comes to the end of the loop, again outside of one and with the count and the
    tail predication it was entered with. -/
def BodyReturns (m : Machine) : Prop :=
  ∀ x, Enters mulAdd program start stop m x → x.vptRemaining = 0 →
    ∃ passed y, Passes mulAdd program stop (start + 4) x passed y ∧ y.vptRemaining = 0 ∧
      y.reg .lr = x.reg .lr ∧ y.tailPredicated = x.tailPredicated

/-- From the entry of its body on, a loop executes the given rounds and is left. -/
inductive Rounds : Machine → List Round → Machine → Prop where
  | last {x y m' : Machine} {passed : List Machine}
      (hpasses : Passes mulAdd program stop (start + 4) x passed y)
      (hstep : step mulAdd program stop y = .ok (stop + 4) m') : Rounds x [⟨x, passed, y⟩] m'.tick
  | again {x y y₁ m' : Machine} {passed : List Machine} {rounds : List Round}
      (hpasses : Passes mulAdd program stop (start + 4) x passed y)
      (hstep : step mulAdd program stop y = .ok (start + 4) y₁)
      (hrest : Rounds y₁.tick rounds m') : Rounds x (⟨x, passed, y⟩ :: rounds) m'

/-- A loop that is started in one state executes the given rounds and is left in another. -/
inductive Performs (m : Machine) : List Round → Machine → Prop where
  | skip {m' : Machine} (hstep : step mulAdd program start m = .ok (stop + 4) m') :
      Performs m [] m'.tick
  | enter {m₁ m' : Machine} {rounds : List Round}
      (hstep : step mulAdd program start m = .ok (start + 4) m₁)
      (hrounds : Rounds mulAdd program start stop m₁.tick rounds m') : Performs m rounds m'

end Rounds

/-! ## Runs are determined

What a loop does is no matter of choice: passes, rounds and whole loops that start in the
same state are the same.
-/

section Determined

variable {mulAdd : MulAdd} {program : Program} {start stop pc : UInt32} {m y y' : Machine}

theorem Passes.unique {passed passed' : List Machine}
    (h : Passes mulAdd program stop pc m passed y)
    (h' : Passes mulAdd program stop pc m passed' y') : passed = passed' ∧ y = y' := by
  -- both stop at the first arrival, so neither can go on where the other is done
  induction h generalizing passed' with
  | done =>
    cases h' with
    | done => exact ⟨rfl, rfl⟩
    | step hstop => exact absurd rfl hstop
  | step hstop _ hstep _ ih =>
    cases h' with
    | done => exact absurd rfl hstop
    | step _ _ hstep' hrest' =>
      cases hstep.symm.trans hstep'
      obtain ⟨rfl, rfl⟩ := ih hrest'
      exact ⟨rfl, rfl⟩

theorem Rounds.unique (hne : stop + 4 ≠ start + 4) {rs rs' : List Round}
    (h : Rounds mulAdd program start stop m rs y)
    (h' : Rounds mulAdd program start stop m rs' y') : rs = rs' ∧ y = y' := by
  -- the end of the loop leads to one place only, which tells the last round from the others
  induction h generalizing rs' with
  | last hpasses hstep =>
    cases h' with
    | last hpasses' hstep' =>
      obtain ⟨rfl, rfl⟩ := hpasses.unique hpasses'
      cases hstep.symm.trans hstep'
      exact ⟨rfl, rfl⟩
    | again hpasses' hstep' =>
      obtain ⟨rfl, rfl⟩ := hpasses.unique hpasses'
      injection hstep.symm.trans hstep' with hpc
      exact absurd hpc hne
  | again hpasses hstep _ ih =>
    cases h' with
    | last hpasses' hstep' =>
      obtain ⟨rfl, rfl⟩ := hpasses.unique hpasses'
      injection hstep'.symm.trans hstep with hpc
      exact absurd hpc hne
    | again hpasses' hstep' hrest' =>
      obtain ⟨rfl, rfl⟩ := hpasses.unique hpasses'
      cases hstep.symm.trans hstep'
      obtain ⟨rfl, rfl⟩ := ih hrest'
      exact ⟨rfl, rfl⟩

theorem Performs.unique (hne : stop + 4 ≠ start + 4) {rs rs' : List Round}
    (h : Performs mulAdd program start stop m rs y)
    (h' : Performs mulAdd program start stop m rs' y') : rs = rs' ∧ y = y' := by
  cases h with
  | skip hstep =>
    cases h' with
    | skip hstep' =>
      cases hstep.symm.trans hstep'
      exact ⟨rfl, rfl⟩
    | enter hstep' =>
      injection hstep.symm.trans hstep' with hpc
      exact absurd hpc hne
  | enter hstep hrounds =>
    cases h' with
    | skip hstep' =>
      injection hstep'.symm.trans hstep with hpc
      exact absurd hpc hne
    | enter hstep' hrounds' =>
      cases hstep.symm.trans hstep'
      exact hrounds.unique hne hrounds'

end Determined

/-! ## Runs of the machine -/

section Steps

variable {mulAdd : MulAdd} {program : Program} {start stop pc : UInt32} {m y : Machine}

theorem Passes.steps {passed : List Machine} (h : Passes mulAdd program stop pc m passed y) :
    Steps mulAdd program passed.length pc m stop y := by
  induction h with
  | done => exact .refl
  | step _ hpc hstep _ ih => exact .step hpc hstep ih

theorem Rounds.exists_steps (hstop : stop ≠ returnAddress) {rs : List Round}
    (h : Rounds mulAdd program start stop m rs y) :
    ∃ k, Steps mulAdd program k (start + 4) m (stop + 4) y := by
  induction h with
  | last hpasses hstep => exact ⟨_, hpasses.steps.trans (.one hstop hstep)⟩
  | again hpasses hstep _ ih =>
    obtain ⟨k, hrest⟩ := ih
    exact ⟨_, hpasses.steps.trans (.step hstop hstep hrest)⟩

/-- The rounds of a loop are steps of the machine. -/
theorem Performs.exists_steps (hstart : start ≠ returnAddress) (hstop : stop ≠ returnAddress)
    {rs : List Round} (h : Performs mulAdd program start stop m rs y) :
    ∃ k, Steps mulAdd program k start m (stop + 4) y := by
  cases h with
  | skip hstep => exact ⟨1, .one hstart hstep⟩
  | enter hstep hrounds =>
    obtain ⟨k, hrest⟩ := hrounds.exists_steps hstop
    exact ⟨k + 1, .step hstart hstep hrest⟩

end Steps

/-! ## Counting the rounds -/

/-- A round of a tail-predicated loop over `n` elements that comes after `c` others: as long
    as count and predication are as they were when it was entered, its instructions act on
    one lane for each element that is left. -/
def Round.Masked (r : Round) (n c : Nat) : Prop :=
  r.entry.Activates (n - 4 * c) ∧
  ∀ x ∈ r.passed, x.reg .lr = r.entry.reg .lr → x.tailPredicated = r.entry.tailPredicated →
    x.Activates (n - 4 * c)

theorem Looping.masked {n c : Nat} {r : Round} (h : Looping true n c r.entry) : r.Masked n c := by
  have hleft : (r.entry.reg .lr).toNat = n - 4 * c := h.left
  constructor
  · rw [← hleft]
    exact activates_of_tail h.predicated
  · intro x _ hcount htail
    rw [← hleft, ← hcount]
    exact activates_of_tail (htail.trans h.predicated)

/-- Each of several rounds is masked if the first is and the others are. -/
theorem masked_cons {n c : Nat} {r : Round} {rs : List Round} (hr : r.Masked n c)
    (hrs : ∀ (t : Nat) r, rs[t]? = some r → r.Masked n (c + 1 + t)) :
    ∀ (t : Nat) r', (r :: rs)[t]? = some r' → r'.Masked n (c + t) := by
  intro t r' ht
  cases t with
  | zero =>
    obtain rfl := Option.some.inj ht
    exact hr
  | succ t =>
    rw [List.getElem?_cons_succ] at ht
    rw [← Nat.add_assoc, Nat.add_right_comm]
    exact hrs t r' ht

namespace Encloses

variable {program : Program} {rn : Reg} {tail : Bool} {exit : Option Int} {back : Int}
  {start stop : UInt32} {m x : Machine} {n c : Nat}
  (h : Encloses program rn tail exit back start stop)

include h

theorem room : start.toNat + 4 < 2 ^ 32 := by
  have := h.before
  have := stop.toNat_lt
  omega

theorem ne : stop + 4 ≠ start + 4 := by
  intro heq
  have hnat := congrArg UInt32.toNat ((UInt32.add_left_inj 4).mp heq)
  have := h.before
  omega

theorem step_enter (mulAdd : MulAdd) (hblock : m.vptRemaining = 0)
    (hcount : exit.isSome = true → m.read start rn ≠ 0) :
    step mulAdd program start m =
      .ok (start + 4) { m.setReg .lr (m.read start rn) with tailPredicated := tail } := by
  rw [step_of_fetch h.first h.room, laneMask_bind_of_scalar hblock rfl]
  exact execute_loopStart_enter hcount

theorem step_skip (mulAdd : MulAdd) (hblock : m.vptRemaining = 0) (hexit : exit.isSome = true)
    (hcount : m.read start rn = 0) : step mulAdd program start m = .ok (stop + 4) m := by
  obtain ⟨offset, rfl⟩ := Option.isSome_iff_exists.mp hexit
  rw [step_of_fetch h.first h.room, laneMask_bind_of_scalar hblock rfl,
    execute_loopStart_skip hcount, branchTarget_eq h.room, h.exit_lands offset rfl]

theorem step_again (mulAdd : MulAdd) (hblock : m.vptRemaining = 0)
    (hmore : stride tail < (m.reg .lr).toNat) :
    step mulAdd program stop m =
      .ok (start + 4) (m.setReg .lr (m.reg .lr - UInt32.ofNat (stride tail))) := by
  rw [step_of_fetch h.last h.behind, laneMask_bind_of_scalar hblock rfl,
    execute_loopEnd_again hmore, branchTarget_eq h.behind, h.back_lands]

theorem step_leave (mulAdd : MulAdd) (hblock : m.vptRemaining = 0)
    (hpredicated : m.tailPredicated = tail) (hlast : (m.reg .lr).toNat ≤ stride tail) :
    step mulAdd program stop m = .ok (stop + 4) { m with tailPredicated := false } := by
  rw [step_of_fetch h.last h.behind, laneMask_bind_of_scalar hblock rfl]
  exact execute_loopEnd_leave hpredicated hlast

/-- From a round on, a loop executes this round and those that are still to come. -/
theorem exists_rounds {mulAdd : MulAdd} {guarded : Bool}
    (hbody : BodyReturns mulAdd program start stop m)
    (hx : Enters mulAdd program start stop m x) (hlooping : Looping tail n c x)
    (hc : c < rounds tail guarded n) :
    ∃ rs m', Rounds mulAdd program start stop x rs m' ∧
      rs.length = rounds tail guarded n - c ∧ m'.tailPredicated = false ∧
      (tail = true → ∀ (t : Nat) r, rs[t]? = some r → r.Masked n (c + t)) := by
  -- on the number of rounds that are left
  obtain ⟨left, hleft⟩ : ∃ left, rounds tail guarded n = c + 1 + left :=
    Nat.exists_eq_add_of_le hc
  induction left generalizing c x with
  | zero =>
    obtain ⟨passed, y, hpasses, hblock, hcount, hpredicated⟩ := hbody x hx hlooping.block
    have hlast : (y.reg .lr).toNat ≤ stride tail := by
      have hmore := lt_rounds_iff hc
      rw [hcount, hlooping.left]
      omega
    have hstep := h.step_leave mulAdd hblock
      (hpredicated.trans hlooping.predicated) hlast
    refine ⟨_, _, .last hpasses hstep, ?_, rfl, ?_⟩
    · rw [List.length_singleton]
      omega
    · rintro rfl
      exact masked_cons hlooping.masked fun t r hr => by cases hr
  | succ left ih =>
    obtain ⟨passed, y, hpasses, hblock, hcount, hpredicated⟩ := hbody x hx hlooping.block
    have hlooping' : Looping tail n c y :=
      ⟨hcount ▸ hlooping.left, hblock, hpredicated.trans hlooping.predicated⟩
    have hmore : stride tail < (y.reg .lr).toNat := by
      have hmore := lt_rounds_iff hc
      rw [hlooping'.left]
      omega
    have hstep := h.step_again mulAdd hblock hmore
    obtain ⟨rs, m', hrounds, hlength, hoff, hmasked⟩ :=
      ih (.again hx hpasses hstep) (hlooping'.next hmore) (by omega) (by omega)
    refine ⟨_, m', .again hpasses hstep hrounds, ?_, hoff, ?_⟩
    · rw [List.length_cons, hlength]
      omega
    · rintro rfl
      exact masked_cons hlooping.masked (hmasked rfl)

/-- A loop executes its rounds and is left; a guarded loop over nothing is not entered. -/
theorem exists_performs {mulAdd : MulAdd} (hm : m.Plain)
    (hbody : BodyReturns mulAdd program start stop m) :
    ∃ rs m', Performs mulAdd program start stop m rs m' ∧
      rs.length = rounds tail exit.isSome (m.read start rn).toNat ∧ m'.tailPredicated = false ∧
      (rs = [] → m' = m.tick) ∧
      (tail = true → ∀ (t : Nat) r, rs[t]? = some r → r.Masked (m.read start rn).toNat t) := by
  by_cases hskip : exit.isSome = true ∧ m.read start rn = 0
  · obtain ⟨hexit, hcount⟩ := hskip
    refine ⟨[], m.tick, .skip (h.step_skip mulAdd hm.block hexit hcount), ?_, hm.tail,
      fun _ => rfl, fun _ t r hr => by cases hr⟩
    have hzero : (m.read start rn).toNat = 0 := congrArg UInt32.toNat hcount
    rw [List.length_nil, hzero]
    exact (rounds_eq_zero_iff.mpr ⟨hexit, rfl⟩).symm
  · -- the body is entered with the whole count before it
    have hstep := h.step_enter mulAdd hm.block fun hexit hcount => hskip ⟨hexit, hcount⟩
    have hlooping : Looping tail (m.read start rn).toNat 0
        (m.counted (m.read start rn) tail) :=
      Looping.first hm (m.read start rn) tail
    have hpos : 0 < rounds tail exit.isSome (m.read start rn).toNat := by
      refine Nat.pos_of_ne_zero fun hzero => hskip ?_
      obtain ⟨hexit, hcount⟩ := rounds_eq_zero_iff.mp hzero
      exact ⟨hexit, UInt32.toNat.inj hcount⟩
    obtain ⟨rs, m', hrounds, hlength, hoff, hmasked⟩ :=
      h.exists_rounds hbody (.first hstep) hlooping hpos
    rw [Nat.sub_zero] at hlength
    refine ⟨rs, m', .enter hstep hrounds, hlength, hoff, ?_, fun htail t r hr => ?_⟩
    · rintro rfl
      exact absurd hlength hpos.ne
    · have hround := hmasked htail t r hr
      rwa [Nat.zero_add] at hround

end Encloses

/-- A loop that is started with count `n` and whose body always comes to the end of the loop
    is left, in one way only, after `n` rounds, or `⌈n / 4⌉` if it is tail-predicated, and
    after at least one if it is not guarded.  A guarded loop over nothing leaves everything
    but the instruction count alone.  Tail predication is off afterwards; before that a
    round after `t` others acts on `min 4 (n - 4 * t)` lanes.  All this is a run of the
    machine unless the loop stands at the return address. -/
theorem Encloses.performs_rounds (mulAdd : MulAdd) (code : Array UInt16) (rn : Reg) (tail : Bool)
    (exit : Option Int) (back : Int) (start stop : UInt32) (m : Machine)
    (h : Encloses (Program.ofCode code) rn tail exit back start stop) (hm : m.Plain)
    (hbody : BodyReturns mulAdd (Program.ofCode code) start stop m) (n : Nat)
    (hn : (m.read start rn).toNat = n) :
    ∃ rs m', Performs mulAdd (Program.ofCode code) start stop m rs m' ∧
      (∀ rs₁ m₁, Performs mulAdd (Program.ofCode code) start stop m rs₁ m₁ →
        rs₁ = rs ∧ m₁ = m') ∧
      rs.length = (match tail, exit with
        | false, some _ => n
        | false, none => max n 1
        | true, some _ => (n + 3) / 4
        | true, none => max ((n + 3) / 4) 1) ∧
      (rs = [] → m' = m.tick) ∧
      m'.tailPredicated = false ∧
      (tail = true → ∀ (t : Nat) r, rs[t]? = some r → r.Masked n t) ∧
      (start ≠ returnAddress → stop ≠ returnAddress →
        ∃ k, Steps mulAdd (Program.ofCode code) k start m (stop + 4) m') := by
  subst hn
  obtain ⟨rs, m', hperforms, hlength, hoff, hnone, hmasked⟩ := h.exists_performs hm hbody
  refine ⟨rs, m', hperforms, fun rs₁ m₁ h₁ => h₁.unique h.ne hperforms, ?_, hnone, hoff, hmasked,
    fun hstart hstop => hperforms.exists_steps hstart hstop⟩
  rw [hlength]
  cases tail <;> cases exit <;> simp only [rounds, stride, Option.isSome] <;> simp <;> omega

/-- A guarded tail-predicated loop over the elements counted by the first register, which
    sets the lanes of a vector register to one. -/
def fillLoop : Array UInt16 :=
  #[0xF020, 0xC005, 0xEF80, 0x0051, 0xF01F, 0xC005]

theorem encloses_fillLoop :
    Encloses (Program.ofCode fillLoop) .r0 true (some 8) 8 0x1000 0x1008 where
  first := rfl
  last := rfl
  before := by decide
  behind := by decide
  back_lands := by decide
  exit_lands := by
    rintro offset ⟨⟩
    decide

theorem bodyReturns_fillLoop (mulAdd : MulAdd) (m : Machine) :
    BodyReturns mulAdd (Program.ofCode fillLoop) 0x1000 0x1008 m := by
  intro x _ hblock
  obtain ⟨mask, hmasks⟩ : ∃ mask, x.Masks mask x := by
    cases htail : x.tailPredicated with
    | false => exact ⟨_, masks_of_plain ⟨hblock, htail⟩⟩
    | true => exact ⟨_, masks_of_tail hblock htail⟩
  have hstep : step mulAdd (Program.ofCode fillLoop) 0x1004 x = .ok 0x1008 _ :=
    (step_of_fetch rfl (by decide)).trans
      (effect_vmovImm hmasks 0 1 0x1004 0x1008)
  exact ⟨_, _, .step (by decide) (by decide) hstep .done, hblock, rfl, rfl⟩

/-- Five elements take two rounds, the second of them on one lane. -/
theorem performs_rounds_fillLoop :
    ∃ rs m', Performs Binary32.mulAdd (Program.ofCode fillLoop) 0x1000 0x1008
        (fresh.setReg .r0 5) rs m' ∧
      rs.length = 2 ∧ m'.tailPredicated = false ∧
      (∀ (t : Nat) r, rs[t]? = some r → r.Masked 5 t) ∧
      ∃ k, Steps Binary32.mulAdd (Program.ofCode fillLoop) k 0x1000 (fresh.setReg .r0 5)
        0x100C m' := by
  obtain ⟨rs, m', hperforms, -, hlength, -, hoff, hmasked, hsteps⟩ :=
    Encloses.performs_rounds Binary32.mulAdd fillLoop .r0 true (some 8) 8 0x1000 0x1008
      (fresh.setReg .r0 5) encloses_fillLoop ⟨rfl, rfl⟩ (bodyReturns_fillLoop _ _) 5 rfl
  exact ⟨rs, m', hperforms, hlength, hoff, hmasked rfl, hsteps (by decide) (by decide)⟩

end Machine

end HeliumKernels
