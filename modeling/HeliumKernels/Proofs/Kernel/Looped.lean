/-
  HeliumKernels.Proofs.Kernel.Looped

  Calls of kernels that are one guarded loop.  Such a kernel makes its frame
  on the stack and gets ready, goes through its rounds, takes the frame down
  and returns.  If every round keeps an invariant the call returns after a
  number of instructions that depends on the number of rounds alone; if the
  first rounds do, it gets as far as the round behind them.
-/
import HeliumKernels.Proofs.Assembly.Span
import HeliumKernels.Proofs.Kernel.Sequence
import HeliumKernels.Proofs.Machine.LowOverhead
import HeliumKernels.Proofs.Machine.Mapping
import HeliumKernels.Proofs.Machine.Straight

namespace HeliumKernels

open Machine

/-! ## Frames on the stack -/

namespace Machine

/-- Bytes of the stack. -/
def InStack (address : UInt32) : Prop :=
  stackTop - stackSize ≤ address ∧ address < stackTop

instance (address : UInt32) : Decidable (InStack address) :=
  inferInstanceAs (Decidable (_ ∧ _))

/-- Lowest word of a frame of the given number of words at the top of the stack. -/
def frameBase (words : Nat) : UInt32 :=
  wordAddress (stackTop - stackSize) (0x4000 - words)

/-- Words of such a frame. -/
def OnFrame (words : Nat) (address : UInt32) : Prop :=
  ∃ n < words, address = wordAddress (frameBase words) n

section Frame

variable {words n : Nat} (hwords : words ≤ 0x4000) {memory memory' : Memory}

include hwords

theorem toNat_frameBase : (frameBase words).toNat + 4 * words = 0x30000000 := by
  have hbottom : (stackTop - stackSize).toNat = 0x2FFF0000 := rfl
  rw [frameBase, toNat_wordAddress (by omega), hbottom]
  omega

theorem wordAddress_frameBase : wordAddress (frameBase words) words = stackTop := by
  rw [frameBase, wordAddress_wordAddress, Nat.sub_add_cancel hwords]
  rfl

/-- On a fresh machine with further regions mapped a frame can be written. -/
theorem frame_writable (h : fresh.memory.Grows memory) (hn : n < words) :
    memory.Writable (wordAddress (frameBase words) n) := by
  rw [frameBase, wordAddress_wordAddress]
  exact stack_writable h (by omega)

/-- Writing to a frame changes no byte outside the stack. -/
theorem byte?_eq_of_frame (h : Memory.Writes (OnFrame words) memory memory') {address : UInt32}
    (hout : ¬InStack address) : memory'.byte? address = memory.byte? address := by
  have hbase := toNat_frameBase hwords
  have hbottom : (stackTop - stackSize).toNat = 0x2FFF0000 := rfl
  have htop : stackTop.toNat = 0x30000000 := rfl
  rw [InStack, UInt32.le_iff_toNat_le, UInt32.lt_iff_toNat_lt, hbottom, htop] at hout
  apply h.byte?_eq
  rintro _ ⟨n, hn, rfl⟩
  rw [toNat_wordAddress (by omega)]
  omega

end Frame

/-- Registers that a function has to leave as it found them. -/
def calleeRegs : List Reg :=
  [.r4, .r5, .r6, .r7, .r8, .r9, .r10, .r11]

theorem ne_of_callee {r : Reg} (hr : r ∈ calleeRegs) : r ≠ .r0 ∧ r ≠ .sp ∧ r ≠ .lr := by
  revert r
  decide

/-- What the caller of a function may rely on: nothing outside the stack is different, the
    same words are mapped, the callee-saved registers are as they were and the stack is
    empty. -/
structure Conforms (m m' : Machine) : Prop where
  bytes : ∀ address, ¬InStack address → m'.memory.byte? address = m.memory.byte? address
  map : m.memory.SameMap m'.memory
  scalars : ∀ r ∈ calleeRegs, m'.reg r = m.reg r
  vectors : ∀ (q : QReg) (l : Lane), 4 ≤ q.val → m'.lane q l = m.lane q l
  sp : m'.reg .sp = stackTop

theorem Conforms.withLimit {m m' : Machine} (h : m.Conforms m') (limit : Nat) :
    m.Conforms (m'.withLimit limit) :=
  ⟨h.bytes, h.map, h.scalars, h.vectors, h.sp⟩

theorem Conforms.tick {m m' : Machine} (h : m.Conforms m') : m.Conforms m'.tick :=
  ⟨h.bytes, h.map, h.scalars, h.vectors, h.sp⟩

/-- A call starts with the callee-saved registers as they are. -/
theorem reg_enter_of_callee (args : List UInt32) (m : Machine) {r : Reg} (hr : r ∈ calleeRegs) :
    (enter args m).reg r = m.reg r := by
  -- the arguments go to the first four registers
  have hother : ∀ i < 4, ∀ r ∈ calleeRegs, Reg.all[i]? ≠ some r := by decide
  have hnone : (Reg.all.zip (args.take 4)).lookup r = none := by
    rw [List.lookup_eq_none_iff]
    intro pair hpair
    obtain ⟨i, hi, rfl⟩ := List.getElem_of_mem hpair
    rw [List.length_zip, List.length_take] at hi
    rw [List.getElem_zip, bne_iff_ne]
    rintro rfl
    exact hother i (by omega) _ hr (List.getElem?_eq_getElem _)
  obtain ⟨-, hsp, hlr⟩ := ne_of_callee hr
  rw [reg_enter, hnone, if_neg hlr, if_neg hsp]
  rfl

/-- Taking down a frame of one register and the return address returns to the caller. -/
theorem exists_returns_frame (mulAdd : MulAdd) {m : Machine} (h : m.Plain) {set : RegSet}
    (hset : set.toList = [.r7, .pc]) (hroom : (m.reg .sp).toNat + 8 < 2 ^ 32) {value : UInt32}
    (hsaved : m.memory.HoldsWords (m.reg .sp) ([value] ++ [returnAddress + 1])) :
    ∃ m', Exits mulAdd (.pop set) returnAddress m m' ∧ m'.reg .r7 = value ∧
      m'.reg .sp = wordAddress (m.reg .sp) 2 ∧
      (∀ r, r ≠ .r7 → r ≠ .sp → m'.reg r = m.reg r) ∧ (∀ q l, m'.lane q l = m.lane q l) ∧
      m'.memory = m.memory := by
  refine ⟨(m.setRegs (fun _ => value) [.r7]).setReg .sp (wordAddress (m.reg .sp) 2),
    Sequence.exits_pop h.block hset (by decide) hroom hsaved.left hsaved.right.head (by decide),
    ?_, ?_, ?_, ?_, ?_⟩
  · rw [reg_setReg_of_ne _ _ (by decide), reg_setRegs, if_pos (by decide)]
  · rw [reg_setReg_self]
  · intro r hr7 hsp
    rw [reg_setReg_of_ne _ _ (Ne.symm hsp), reg_setRegs, if_neg (by simpa using hr7)]
  · intro q l
    rw [lane_setReg, lane_setRegs]
  · rw [memory_setReg, memory_setRegs]

/-- A function in front of its return.  It has written to its frame alone, the callee-saved
    registers are as they were, and on the stack are one of them and the return address. -/
structure Unwound (words : Nat) (m m₁ : Machine) : Prop where
  plain : m₁.Plain
  sp : m₁.reg .sp = frameBase 2
  saved : m₁.memory.HoldsWords (frameBase 2) ([m.reg .r7] ++ [returnAddress + 1])
  writes : Memory.Writes (OnFrame words) m.memory m₁.memory
  scalars : ∀ r ∈ calleeRegs, m₁.reg r = m.reg r
  vectors : ∀ (q : QReg) (l : Lane), 4 ≤ q.val → m₁.lane q l = m.lane q l

/-- Its return keeps what the caller relies on, and leaves the results in place. -/
theorem Unwound.exists_returns {words : Nat} {m m₁ : Machine} (h : Unwound words m m₁)
    (hwords : words ≤ 0x4000) (mulAdd : MulAdd) (set : RegSet) (hset : set.toList = [.r7, .pc]) :
    ∃ m', Exits mulAdd (.pop set) returnAddress m₁ m' ∧ m.Conforms m' ∧
      (∀ r, r ≠ .r7 → r ≠ .sp → m'.reg r = m₁.reg r) ∧ ∀ q l, m'.lane q l = m₁.lane q l := by
  obtain ⟨m', hreturns, hr7, hsp, hother, hlane, hmemory⟩ :=
    exists_returns_frame mulAdd h.plain hset (by rw [h.sp]; decide) (h.sp ▸ h.saved)
  have hwrites : Memory.Writes (OnFrame words) m.memory m'.memory := hmemory ▸ h.writes
  have hconforms : m.Conforms m' := {
    bytes := fun address hout => byte?_eq_of_frame hwords hwrites hout
    map := hwrites.sameMap
    scalars := by
      intro r hr
      by_cases hseven : r = .r7
      · rw [hseven, hr7]
      · rw [hother r hseven (ne_of_callee hr).2.1, h.scalars r hr]
    vectors := fun q l hq => (hlane q l).trans (h.vectors q l hq)
    sp := by rw [hsp, h.sp, wordAddress_frameBase (by decide)] }
  exact ⟨m', hreturns, hconforms, hother, hlane⟩

end Machine

/-! ## Loops -/

/-- A round goes on where neither the count nor predication was touched. -/
theorem Machine.Looping.of_frame {tail : Bool} {n c : Nat} {t : Touch} {m m' : Machine}
    (h : Looping tail n c m) (hframe : Frame t m m') (hlr : ¬t.reg .lr)
    (hblock : m'.vptRemaining = 0) : Looping tail n c m' where
  left := (congrArg UInt32.toNat (hframe.reg .lr hlr)).trans h.left
  block := hblock
  predicated := hframe.tail.trans h.predicated

/-- Each of the first `stop` rounds of a loop over `n` elements goes through, leaves the count
    alone and takes the invariant on. -/
def Script.Iterates (round : Script) (mulAdd : MulAdd) (tail : Bool) (n stop : Nat)
    (I : Nat → Machine → Prop) : Prop :=
  ∀ c m, c < stop → Looping tail n c m → I c m →
    ∃ m', Does mulAdd round m m' ∧ Looping tail n c m' ∧ I (c + 1) m'

namespace Script.GuardedAt

variable {mulAdd : MulAdd} {code : Array UInt16} {rn : Reg} {tail : Bool}
  {before round after first rest : Script} {next last : Instruction} {p q p' n : Nat}
  {args : List UInt32} {m m₁ : Machine} {I : Nat → Machine → Prop}

theorem extent (hcode : GuardedAt code rn tail before round after p q p') :
    p + 2 ≤ q ∧ q + 2 ≤ p' ∧ p' ≤ 2 ^ 29 := by
  obtain ⟨_, _, hround⟩ := hcode.round
  obtain ⟨_, _, hafter⟩ := hcode.after
  exact ⟨hround.le, hafter.le, hcode.le⟩

/-- The rounds as they stand in code; each is as long as its instructions and the end of the
    loop. -/
theorem runsBody (hcode : GuardedAt code rn tail before round after p q p')
    (hround : round.Straight) {stop : Nat} (hiterates : round.Iterates mulAdd tail n stop I) :
    LoopAt.RunsBody mulAdd code tail p q n stop
      fun c k m => k = (round.length + 1) * c ∧ I c m := by
  rintro c k m hc hlooping ⟨rfl, hI⟩
  obtain ⟨_, _, hplaced⟩ := hcode.round
  have hextent := hcode.extent
  obtain ⟨m', hdoes, hlooping', hI'⟩ := hiterates c m hc hlooping hI
  exact ⟨round.length, m', hdoes.steps_of_straight hround hplaced (by omega), hlooping', by ring,
    hI'⟩

/-- What follows the loop leads back to the caller. -/
theorem steps_return (hcode : GuardedAt code rn tail before round (rest ++ [.emit last]) p q p')
    (hrest : rest.Straight) {m₂ m₃ m' : Machine} (hdoes : Does mulAdd rest m₂ m₃)
    (hlast : Exits mulAdd last.meaning returnAddress m₃ m') :
    Steps mulAdd (Program.ofCode code) (rest.length + 1) (codeAddress (q + 2)) m₂ returnAddress
      m'.tick := by
  obtain ⟨_, _, hafter⟩ := hcode.after
  have hle := hcode.le
  exact hdoes.steps_of_exits hrest hlast hafter (by omega)

section Calls

variable (hcode : GuardedAt code rn tail before round after p q p') (hbefore : before.Straight)
  (hround : round.Straight) (hrn : rn ≠ .pc) (hdoes : Does mulAdd before (enter args m) m₁)
  (hplain : m₁.Plain) (hn : (m₁.reg rn).toNat = n) (hI : I 0 m₁)
  (hkeep : ∀ c m count tail, I c m → I c (m.counted count tail))

include hcode hbefore hround hrn hdoes hplain hn hI hkeep

/-- A call gets to each round whose predecessors go through. -/
theorem exists_steps_round {stop : Nat} (hstop : stop < rounds tail true n)
    (hiterates : round.Iterates mulAdd tail n stop I) :
    ∃ m', Steps mulAdd (Program.ofCode code) (before.length + (1 + (round.length + 1) * stop))
      codeBase (enter args m) (codeAddress (p + 2)) m' ∧ Looping tail n stop m' ∧ I stop m' := by
  obtain ⟨_, hplaced⟩ := hcode.before
  obtain ⟨hpq, hqp', hle⟩ := hcode.extent
  have hready := hdoes.steps_of_straight hbefore hplaced (by omega)
  obtain ⟨k, m', hreach, hlooping, rfl, hI'⟩ := hcode.loop.exists_steps_round hpq (by omega)
    (fun c k m count tail h => ⟨h.1, hkeep c m count tail h.2⟩) hrn hplain hn ⟨rfl, hI⟩ hstop
    (hcode.runsBody hround hiterates)
  exact ⟨m', hready.trans hreach, hlooping, hI'⟩

/-- A call stops in the round in which an instruction fails. -/
theorem exists_call_error (hsplit : round = first ++ .emit next :: rest) {stop : Nat}
    (hstop : stop < rounds tail true n) (hiterates : round.Iterates mulAdd tail n stop I)
    {halt : Halt} (hfails : ∀ m₂, Looping tail n stop m₂ → I stop m₂ →
      ∃ m₃, Does mulAdd first m₂ m₃ ∧ Fails mulAdd next.meaning m₃ halt) {limit : Nat}
    (hlimit : before.length + (1 + (round.length + 1) * stop) + first.length < limit) :
    ∃ stopped, call mulAdd code args (m.withLimit limit) = .error halt stopped := by
  obtain ⟨m₂, hreach, hlooping, hI'⟩ := hcode.exists_steps_round hbefore hround hrn hdoes hplain hn
    hI hkeep hstop hiterates
  obtain ⟨m₃, hfirst, hfail⟩ := hfails m₂ hlooping hI'
  obtain ⟨_, _, hplaced⟩ := hcode.round
  have hextent := hcode.extent
  -- what comes before the instruction in its round leads up to it
  rw [hsplit] at hplaced
  obtain ⟨_, p₁, hplaced₁, hplaced₂⟩ := Placed.append_iff.mp hplaced
  have hp₁ := hplaced₂.le
  have hstraight : first.Straight := (Script.straight_append.mp (hsplit ▸ hround)).1
  have hsteps := hreach.trans (hfirst.steps_of_straight hstraight hplaced₁ (by omega))
  obtain ⟨hdecode, -⟩ := Placed.emit_iff.mp hplaced₂
  obtain ⟨stopped, hstopped⟩ := hfail.step_eq (by omega) hdecode
  exact hsteps.call_eq_error (codeAddress_ne_return (by omega)) hstopped hlimit

/-- A call gets behind its loop if all rounds go through. -/
theorem exists_steps_loop (hiterates : round.Iterates mulAdd tail n (rounds tail true n) I) :
    ∃ m', Steps mulAdd (Program.ofCode code)
      (before.length + (1 + (round.length + 1) * rounds tail true n)) codeBase (enter args m)
      (codeAddress (q + 2)) m' ∧ m'.Plain ∧ I (rounds tail true n) m' := by
  obtain ⟨_, hplaced⟩ := hcode.before
  obtain ⟨hpq, hqp', hle⟩ := hcode.extent
  have hready := hdoes.steps_of_straight hbefore hplaced (by omega)
  obtain ⟨k, m', hloop, hplain', rfl, hI'⟩ := hcode.loop.exists_steps hpq (by omega)
    (fun c k m count tail h => ⟨h.1, hkeep c m count tail h.2⟩) hrn hplain hn ⟨rfl, hI⟩
    (hcode.runsBody hround hiterates)
  exact ⟨m', hready.trans hloop, hplain', hI'⟩

/-- A call returns if all rounds go through and what follows them does; the number of rounds
    says how many instructions were executed. -/
theorem exists_call (hafter : after = rest ++ [.emit last]) (hrest : rest.Straight)
    (hiterates : round.Iterates mulAdd tail n (rounds tail true n) I) {Q : Machine → Prop}
    (hreturn : ∀ m₂, m₂.Plain → I (rounds tail true n) m₂ →
      ∃ m₃ m', Does mulAdd rest m₂ m₃ ∧ Exits mulAdd last.meaning returnAddress m₃ m' ∧ Q m') {count limit : Nat}
    (hcount : before.length + (1 + (round.length + 1) * rounds tail true n) + (rest.length + 1) =
      count) (hlimit : count ≤ limit) :
    ∃ m', call mulAdd code args (m.withLimit limit) =
        .ok (m'.reg .r0) (m'.tick.withLimit limit) ∧ Q m' ∧ m'.tick.steps = count := by
  obtain ⟨m₂, hloop, hplain', hI'⟩ := hcode.exists_steps_loop hbefore hround hrn hdoes hplain hn hI
    hkeep hiterates
  obtain ⟨m₃, m', hdoes', hreturns, hQ⟩ := hreturn m₂ hplain' hI'
  subst hafter hcount
  have hsteps := hloop.trans (hcode.steps_return hrest hdoes' hreturns)
  refine ⟨m', (hsteps.call_eq limit).1 hlimit, hQ, ?_⟩
  have hzero : (enter args m).steps = 0 := rfl
  rw [hsteps.steps_eq, hzero, Nat.zero_add]

end Calls

end Script.GuardedAt

end HeliumKernels
