/-
  HeliumKernels.Proofs.Machine.LowOverhead

  Low-overhead loops.  The start of a loop takes a count; its end takes off
  what one round handles and goes back as long as more is left.  A round
  handles one element, or four with tail predication, where the last round
  is masked to what is left.  Whatever the body does, it is run once for
  each round, and tail predication is off behind the loop.
-/
import HeliumKernels.Proofs.Assembly.Guarded
import HeliumKernels.Proofs.Machine.Structured

namespace HeliumKernels

namespace Machine

open Run

/-! ## Counting -/

/-- Elements that one round handles. -/
def stride (tail : Bool) : Nat :=
  if tail then 4 else 1

/-- Rounds of a loop over `n` elements.  Without a guard the body is run at least once. -/
def rounds (tail guarded : Bool) (n : Nat) : Nat :=
  max (if guarded then 0 else 1) ((n + (stride tail - 1)) / stride tail)

/-- Another round follows exactly if more is left than one round handles. -/
theorem lt_rounds_iff {tail guarded : Bool} {n c : Nat} (h : c < rounds tail guarded n) :
    c + 1 < rounds tail guarded n ↔ stride tail < n - stride tail * c := by
  cases tail <;> cases guarded <;> simp only [rounds, stride] at h ⊢ <;> simp at h ⊢ <;> omega

/-- The rounds handle all elements. -/
theorem le_stride_mul_rounds (tail guarded : Bool) (n : Nat) :
    n ≤ stride tail * rounds tail guarded n := by
  cases tail <;> cases guarded <;> simp only [rounds, stride] <;> simp <;> omega

theorem rounds_eq_zero_iff {tail guarded : Bool} {n : Nat} :
    rounds tail guarded n = 0 ↔ guarded = true ∧ n = 0 := by
  cases tail <;> cases guarded <;> simp [rounds, stride]
  omega

/-- Without predication a guarded loop has as many rounds as it was given. -/
theorem rounds_guarded (n : Nat) : rounds false true n = n := by
  simp [rounds, stride]

/-- In round `c` of a loop over `n` elements. -/
structure Looping (tail : Bool) (n c : Nat) (m : Machine) : Prop where
  left : (m.reg .lr).toNat = n - stride tail * c
  block : m.vptRemaining = 0
  predicated : m.tailPredicated = tail

/-- What the instructions of a loop do besides branching: they set the count, switch tail
    predication and count as an instruction. -/
def counted (m : Machine) (count : UInt32) (tail : Bool) : Machine :=
  { m.setReg .lr count with tailPredicated := tail }.tick

theorem requireWords_b32 (pc : UInt32) (m : Machine) : requireWords .b32 pc m = .ok () m := rfl

theorem setReg_reg (m : Machine) (r : Reg) : m.setReg r (m.reg r) = m := by
  simp only [setReg, reg, Fin.getElem_fin, Vector.set_getElem_self]

theorem counted_reg (m : Machine) (tail : Bool) :
    m.counted (m.reg .lr) tail = { m with tailPredicated := tail }.tick := by
  rw [counted, setReg_reg]

theorem reg_counted {m : Machine} {count : UInt32} {tail : Bool} {r : Reg} (h : r ≠ .lr) :
    (m.counted count tail).reg r = m.reg r :=
  reg_setReg_of_ne m count (Ne.symm h)

/-- With tail predication a round acts on one lane for each element that is left. -/
theorem Looping.get_mask_iff {n c : Nat} {m : Machine} (h : Looping true n c m) (l : Lane) :
    (LaneMask.below LaneMask.all (m.reg .lr)).get l = true ↔ 4 * c + l.val < n := by
  rw [LaneMask.get_below_iff, h.left]
  show l.val < n - 4 * c ↔ _
  omega

/-- Without tail predication a round acts on all lanes. -/
theorem Looping.plain {n c : Nat} {m : Machine} (h : Looping false n c m) : m.Plain :=
  ⟨h.block, h.predicated⟩

theorem Looping.first {m : Machine} (hm : m.Plain) (count : UInt32) (tail : Bool) :
    Looping tail count.toNat 0 (m.counted count tail) := by
  refine ⟨?_, hm.block, rfl⟩
  rw [Nat.mul_zero, Nat.sub_zero]
  exact congrArg UInt32.toNat (reg_setReg_self m .lr _)

theorem Looping.next {tail : Bool} {n c : Nat} {m : Machine} (h : Looping tail n c m)
    (hmore : stride tail < (m.reg .lr).toNat) :
    Looping tail n (c + 1)
      (m.counted (m.reg .lr - UInt32.ofNat (stride tail)) m.tailPredicated) := by
  have hleft := h.left
  have hstride : (UInt32.ofNat (stride tail)).toNat = stride tail := by cases tail <;> rfl
  have hcount : ∀ count, (m.counted count m.tailPredicated).reg .lr = count :=
    fun count => reg_setReg_self m .lr count
  refine ⟨?_, h.block, h.predicated⟩
  rw [hcount, UInt32.toNat_sub_of_le _ _ (by rw [UInt32.le_iff_toNat_le]; omega), hstride, hleft,
    Nat.mul_succ]
  omega

/-! ## Single instructions -/

section Instructions

variable {mulAdd : MulAdd} {pc next : UInt32} {mask : LaneMask} {rn : Reg} {tail : Bool}
  {m : Machine}

/-- Outside a block an operation on scalars is executed as it stands. -/
theorem laneMask_bind_of_scalar {op : Operation} {f : LaneMask → Run UInt32}
    (hblock : m.vptRemaining = 0) (hop : op.isVector = false) (pc : UInt32) :
    (laneMask op pc >>= f) m = f LaneMask.all m :=
  bind_of_ok (laneMask_of_scalar hblock hop pc)

/-- The start of a loop puts the count in place, unless it is guarded and there is nothing
    to do. -/
theorem execute_loopStart_enter {exit : Option Int}
    (hcount : exit.isSome = true → m.read pc rn ≠ 0) :
    execute mulAdd pc next mask (.loopStart rn (loopLanes tail) exit) m =
      .ok next { m.setReg .lr (m.read pc rn) with tailPredicated := tail } := by
  cases exit with
  | none =>
    cases tail <;>
    · simp only [execute, bind, EStateM.bind, get, getThe, MonadStateOf.get, EStateM.get, loopLanes,
        requireWords_b32]
      rfl
  | some exit =>
    have hcount : (m.read pc rn == 0) = false := beq_eq_false_iff_ne.mpr (hcount rfl)
    cases tail <;>
    · simp only [execute, bind, EStateM.bind, get, getThe, MonadStateOf.get, EStateM.get, loopLanes,
        requireWords_b32, hcount]
      rfl

theorem execute_loopStart_skip {exit : Int} (hcount : m.read pc rn = 0) :
    execute mulAdd pc next mask (.loopStart rn (loopLanes tail) (some exit)) m =
      branchTarget pc exit m := by
  cases tail <;>
    simp only [execute, bind, EStateM.bind, get, getThe, MonadStateOf.get, EStateM.get, loopLanes,
      requireWords_b32, hcount, beq_self_eq_true]

theorem ofNat_stride (tail : Bool) :
    (if tail = true then 4 else 1 : UInt32) = UInt32.ofNat (stride tail) := by
  cases tail <;> rfl

theorem ofNat_stride_lt_iff {count : UInt32} :
    UInt32.ofNat (stride tail) < count ↔ stride tail < count.toNat := by
  rw [UInt32.lt_iff_toNat_lt]
  cases tail <;> rfl

/-- The end of a loop goes back while more is left than one round handles. -/
theorem execute_loopEnd_again {back : Int} (hmore : stride tail < (m.reg .lr).toNat) :
    execute mulAdd pc next mask (.loopEnd back tail) m =
      branchTarget pc (-back) (m.setReg .lr (m.reg .lr - UInt32.ofNat (stride tail))) := by
  simp only [execute, bind, EStateM.bind, get, getThe, MonadStateOf.get, EStateM.get, ofNat_stride,
    ofNat_stride_lt_iff.mpr hmore, ↓reduceIte]
  rfl

/-- Otherwise it leaves the loop and switches tail predication off. -/
theorem execute_loopEnd_leave {back : Int} (hpredicated : m.tailPredicated = tail)
    (hlast : (m.reg .lr).toNat ≤ stride tail) :
    execute mulAdd pc next mask (.loopEnd back tail) m =
      .ok next { m with tailPredicated := false } := by
  simp only [execute, bind, EStateM.bind, get, getThe, MonadStateOf.get, EStateM.get, ofNat_stride,
    mt ofNat_stride_lt_iff.mp (Nat.not_lt.mpr hlast), ↓reduceIte]
  obtain ⟨regs, singles, flags, predicate, block, predicated, memory, limit, steps⟩ := m
  subst hpredicated
  cases predicated <;> rfl

end Instructions

end Machine

open Machine Run

namespace LoopAt

variable {mulAdd : MulAdd} {code : Array UInt16} {rn : Reg} {tail guarded : Bool} {p q : Nat}
  {m m' : Machine}

/-- The start goes on to the body with the count in place. -/
theorem steps_enter (h : LoopAt code rn tail guarded p q) (hp : p ≤ 2 ^ 29) (hrn : rn ≠ .pc)
    (hm : m.Plain) (hcount : guarded = true → m.reg rn ≠ 0) :
    Steps mulAdd (Program.ofCode code) 1 (codeAddress p) m (codeAddress (p + 2))
      (m.counted (m.reg rn) tail) := by
  refine .one (codeAddress_ne_return (by omega)) ((step_codeAddress (by omega) h.start).trans ?_)
  rw [laneMask_bind_of_scalar hm.block rfl, execute_loopStart_enter, read_of_ne_pc hrn]
  · rfl
  · rw [read_of_ne_pc hrn]
    cases guarded with
    | false => exact nofun
    | true => exact fun _ => hcount rfl

/-- A guarded start leaves the loop out if there is nothing to do. -/
theorem steps_skip (h : LoopAt code rn tail true p q) (hq : q + 2 ≤ 2 ^ 29) (hp : p ≤ 2 ^ 29)
    (hrn : rn ≠ .pc) (hm : m.Plain) (hcount : m.reg rn = 0) :
    Steps mulAdd (Program.ofCode code) 1 (codeAddress p) m (codeAddress (q + 2)) m.tick := by
  refine .one (codeAddress_ne_return (by omega)) ((step_codeAddress (by omega) h.start).trans ?_)
  rw [laneMask_bind_of_scalar hm.block rfl]
  refine (execute_loopStart_skip ?_).trans (branchTarget_codeAddress hp hq)
  rwa [read_of_ne_pc hrn]

/-- The end goes back to the body while more is left than one round handles. -/
theorem steps_again (h : LoopAt code rn tail guarded p q) (hq : q ≤ 2 ^ 29)
    (hp : p + 2 ≤ 2 ^ 29) (hblock : m.vptRemaining = 0)
    (hmore : stride tail < (m.reg .lr).toNat) :
    Steps mulAdd (Program.ofCode code) 1 (codeAddress q) m (codeAddress (p + 2))
      (m.counted (m.reg .lr - UInt32.ofNat (stride tail)) m.tailPredicated) := by
  refine .one (codeAddress_ne_return (by omega)) ((step_codeAddress (by omega) h.close).trans ?_)
  rw [laneMask_bind_of_scalar hblock rfl, execute_loopEnd_again hmore, Int.neg_neg]
  exact branchTarget_codeAddress hq hp

/-- Otherwise it leaves the loop and switches tail predication off. -/
theorem steps_leave (h : LoopAt code rn tail guarded p q) (hq : q ≤ 2 ^ 29)
    (hblock : m.vptRemaining = 0) (hpredicated : m.tailPredicated = tail)
    (hlast : (m.reg .lr).toNat ≤ stride tail) :
    Steps mulAdd (Program.ofCode code) 1 (codeAddress q) m (codeAddress (q + 2))
      (m.counted (m.reg .lr) false) := by
  rw [counted_reg]
  refine .one (codeAddress_ne_return (by omega)) ((step_codeAddress (by omega) h.close).trans ?_)
  rw [laneMask_bind_of_scalar hblock rfl, execute_loopEnd_leave hpredicated hlast]
  rfl

/-! ## The loop -/

/-- Whenever the body of a loop over `n` elements is entered in one of the first `stop`
    rounds it reaches the end of the loop without spoiling its count.  `I c k` holds after
    `c` rounds and `k` instructions, with the end of the loop among those of a round. -/
def RunsBody (mulAdd : MulAdd) (code : Array UInt16) (tail : Bool) (p q n stop : Nat)
    (I : Nat → Nat → Machine → Prop) : Prop :=
  ∀ c k m, c < stop → Looping tail n c m → I c k m →
    ∃ k' m', Steps mulAdd (Program.ofCode code) k' (codeAddress (p + 2)) m (codeAddress q) m' ∧
      Looping tail n c m' ∧ I (c + 1) (k + (k' + 1)) m'

section Rounds

variable {n : Nat} {I : Nat → Nat → Machine → Prop} (h : LoopAt code rn tail guarded p q)
  (hpq : p + 2 ≤ q) (hq : q + 2 ≤ 2 ^ 29)
  (hkeep : ∀ c k m count tail, I c k m → I c k (m.counted count tail)) (hrn : rn ≠ .pc)
  (hm : m.Plain) (hn : (m.reg rn).toNat = n) (hI : I 0 0 m)

include h hpq hq hkeep hrn hm hn hI

/-- A loop reaches each of its rounds whose predecessors run through. -/
theorem exists_steps_round {stop : Nat} (hstop : stop < rounds tail guarded n)
    (hbody : RunsBody mulAdd code tail p q n stop I) :
    ∃ k m', Steps mulAdd (Program.ofCode code) (1 + k) (codeAddress p) m (codeAddress (p + 2)) m' ∧
      Looping tail n stop m' ∧ I stop k m' := by
  induction stop with
  | zero =>
    -- a guarded loop with a round in it was given a count that is not zero
    have hcount : guarded = true → m.reg rn ≠ 0 := by
      rintro rfl hzero
      have hnone : n = 0 := hn.symm.trans (congrArg UInt32.toNat hzero)
      rw [rounds_eq_zero_iff.mpr ⟨rfl, hnone⟩] at hstop
      cases hstop
    exact ⟨0, _, h.steps_enter (by omega) hrn hm hcount, hn ▸ Looping.first hm (m.reg rn) tail,
      hkeep _ _ _ _ _ hI⟩
  | succ stop ih =>
    obtain ⟨k, m₁, hreach, hlooping₁, hI₁⟩ :=
      ih (by omega) fun c k m hc => hbody c k m (by omega)
    obtain ⟨k', m₂, hround, hlooping₂, hI₂⟩ := hbody stop k m₁ (by omega) hlooping₁ hI₁
    -- there is a round after this one, so the end of the loop goes back
    have hmore : stride tail < (m₂.reg .lr).toNat := by
      have := lt_rounds_iff (show stop < rounds tail guarded n by omega)
      have := hlooping₂.left
      omega
    have hsteps := hreach.trans (hround.trans (h.steps_again (by omega) (by omega)
      hlooping₂.block hmore))
    rw [Nat.add_assoc] at hsteps
    exact ⟨k + (k' + 1), _, hsteps, hlooping₂.next hmore, hkeep _ _ _ _ _ hI₂⟩

/-- A loop runs its body once for each round, and tail predication is off behind it. -/
theorem exists_steps (hbody : RunsBody mulAdd code tail p q n (rounds tail guarded n) I) :
    ∃ k m', Steps mulAdd (Program.ofCode code) (1 + k) (codeAddress p) m (codeAddress (q + 2)) m' ∧
      m'.Plain ∧ I (rounds tail guarded n) k m' := by
  cases hrounds : rounds tail guarded n with
  | zero =>
    -- only a guarded loop has no round at all
    obtain ⟨rfl, rfl⟩ := rounds_eq_zero_iff.mp hrounds
    have hsame : m.counted (m.reg .lr) m.tailPredicated = m.tick := counted_reg m _
    refine ⟨0, m.tick, h.steps_skip hq (by omega) hrn hm (UInt32.toNat.inj hn), hm.tick, ?_⟩
    rw [← hsame]
    exact hkeep _ _ _ _ _ hI
  | succ last =>
    obtain ⟨k, m₁, hreach, hlooping₁, hI₁⟩ :=
      h.exists_steps_round hpq hq hkeep hrn hm hn hI (show last < rounds tail guarded n by omega)
        fun c k m hc => hbody c k m (by omega)
    obtain ⟨k', m₂, hround, hlooping₂, hI₂⟩ := hbody last k m₁ (by omega) hlooping₁ hI₁
    -- this was the last round, so the end of the loop falls through
    have hlast : (m₂.reg .lr).toNat ≤ stride tail := by
      have := lt_rounds_iff (show last < rounds tail guarded n by omega)
      have := hlooping₂.left
      omega
    have hsteps := hreach.trans (hround.trans (h.steps_leave (by omega) hlooping₂.block
      hlooping₂.predicated hlast))
    rw [Nat.add_assoc] at hsteps
    exact ⟨k + (k' + 1), _, hsteps, ⟨hlooping₂.block, rfl⟩, hkeep _ _ _ _ _ hI₂⟩

end Rounds

end LoopAt

end HeliumKernels
