/-
  HeliumKernels.Proofs.Machine.Stack

  Saving registers on the stack and restoring them.  A push writes the values
  of its registers below the stack pointer, a pop reads back whatever words
  lie there; the last register a pop names may be the program counter, which
  makes it a return.
-/
import HeliumKernels.Proofs.Machine.Effect

namespace HeliumKernels

namespace Machine

open Run

variable {mulAdd : MulAdd} {m : Machine} {address : UInt32}

theorem advance_eq {distance : UInt32} {n : Nat} (hn : distance.toNat = n)
    (h : address.toNat + n < 2 ^ 32) : advance address distance m = .ok (address + distance) m := by
  have hnot : ¬address + distance < address := by
    rw [UInt32.lt_iff_toNat_lt, UInt32.toNat_add]
    omega
  simp only [advance, hnot, ↓reduceIte]
  rfl

theorem advance_four (h : address.toNat + 4 < 2 ^ 32) :
    advance address 4 m = .ok (address + 4) m :=
  advance_eq (n := 4) rfl h

theorem advance_eight (h : address.toNat + 8 < 2 ^ 32) :
    advance address 8 m = .ok (address + 8) m :=
  advance_eq (n := 8) rfl h

theorem toNat_add_four (h : address.toNat + 4 < 2 ^ 32) : (address + 4).toNat = address.toNat + 4 :=
  toNat_wordAddress (n := 1) h

/-! ## Scalar registers -/

/-- Give registers the values of a function. -/
def setRegs (m : Machine) (values : Reg → UInt32) (regs : List Reg) : Machine :=
  regs.foldl (fun m r => m.setReg r (values r)) m

theorem setRegs_eq (m : Machine) (values : Reg → UInt32) (regs : List Reg) :
    m.setRegs values regs = { m with regs := (m.setRegs values regs).regs } := by
  induction regs generalizing m with
  | nil => rfl
  | cons r regs ih => exact ih (m.setReg r (values r))

theorem memory_setRegs (m : Machine) (values : Reg → UInt32) (regs : List Reg) :
    (m.setRegs values regs).memory = m.memory := by
  rw [setRegs_eq]

theorem lane_setRegs (m : Machine) (values : Reg → UInt32) (regs : List Reg) (q : QReg) (l : Lane) :
    (m.setRegs values regs).lane q l = m.lane q l := by
  rw [setRegs_eq]
  rfl

theorem reg_setRegs (m : Machine) (values : Reg → UInt32) (regs : List Reg) (r : Reg) :
    (m.setRegs values regs).reg r = if r ∈ regs then values r else m.reg r := by
  induction regs generalizing m with
  | nil => rfl
  | cons s regs ih =>
    refine (ih (m.setReg s (values s))).trans ?_
    -- the last write to a register counts, and all of them are of the same value
    by_cases hr : r ∈ regs
    · rw [if_pos hr, if_pos (List.mem_cons_of_mem _ hr)]
    · rw [if_neg hr]
      by_cases hs : r = s
      · subst hs
        rw [if_pos List.mem_cons_self, reg_setReg_self]
      · rw [if_neg (by simp [hr, hs]), reg_setReg_of_ne _ _ (Ne.symm hs)]

theorem storeRegs_eq {regs : List Reg} (hpc : .pc ∉ regs)
    (hroom : address.toNat + 4 * regs.length < 2 ^ 32)
    (hwritable : ∀ n < regs.length, m.memory.Writable (wordAddress address n)) (pc : UInt32) :
    storeRegs pc regs address m =
      .ok () { m with memory := m.memory.putAll address (regs.map m.reg) } := by
  induction regs generalizing m address with
  | nil => rfl
  | cons r regs ih =>
    rw [List.length_cons] at hroom
    have hr : r ≠ .pc := fun heq => hpc (heq ▸ List.mem_cons_self)
    have hw : m.memory.writeError? address = none := by
      rw [← wordAddress_zero address]
      exact hwritable 0 (Nat.zero_lt_succ _)
    -- the words still to be written stay writable when the first is
    have hone : Memory.Writes (fun a => a = address) m.memory
        (m.putWord address (m.reg r)).memory := .put .refl rfl hw
    have hwritable' : ∀ n < regs.length,
        (m.putWord address (m.reg r)).memory.Writable (wordAddress (address + 4) n) := by
      intro n hn
      rw [wordAddress_succ]
      exact hone.writable_iff.mpr (hwritable (n + 1) (Nat.succ_lt_succ hn))
    have hrest := ih (fun h => hpc (List.mem_cons_of_mem _ h))
      (by rw [toNat_add_four (by omega)]; omega) hwritable'
    have hadvance : advance address 4 (m.putWord address (m.reg r)) = _ :=
      advance_four (by omega)
    simp only [storeRegs, bind, EStateM.bind, get, getThe, MonadStateOf.get, EStateM.get, store,
      read_of_ne_pc hr, hw, hadvance]
    exact hrest

/-- Loading registers gives them the words in memory and goes on behind them. -/
theorem loadRegs_append {regs rest : List Reg} {values : Reg → UInt32} (hpc : .pc ∉ regs)
    (hroom : address.toNat + 4 * regs.length < 2 ^ 32)
    (hholds : m.memory.HoldsWords address (regs.map values)) (next : UInt32) :
    loadRegs (regs ++ rest) address next m =
      loadRegs rest (wordAddress address regs.length) next (m.setRegs values regs) := by
  induction regs generalizing m address with
  | nil =>
    rw [List.length_nil, wordAddress_zero]
    rfl
  | cons r regs ih =>
    rw [List.length_cons] at hroom
    have hr : r ≠ .pc := fun heq => hpc (heq ▸ List.mem_cons_self)
    have hread := hholds.head
    have hrest := ih (m := m.setReg r (values r)) (fun h => hpc (List.mem_cons_of_mem _ h))
      (by rw [toNat_add_four (by omega)]; omega) hholds.tail
    have hadvance : advance address 4 (m.setReg r (values r)) = _ :=
      advance_four (by omega)
    rw [wordAddress_succ] at hrest
    rw [List.cons_append, loadRegs]
    simp only [bind, EStateM.bind, load, hread, hr, ↓reduceIte, writeReg, modify, modifyGet,
      MonadStateOf.modifyGet, EStateM.modifyGet, pure, EStateM.pure, hadvance]
    exact hrest

/-- A push writes the values of its registers below the stack pointer. -/
theorem effect_push (h : m.vptRemaining = 0) {set : RegSet} (hpc : .pc ∉ set.toList)
    (hsp : .sp ∉ set.toList) {base : UInt32} (hbase : m.reg .sp = wordAddress base set.size)
    (hroom : base.toNat + 4 * set.size < 2 ^ 32)
    (hwritable : ∀ n < set.size, m.memory.Writable (wordAddress base n)) :
    Effect mulAdd (.push set) m
      { m.setReg .sp base with memory := m.memory.putAll base (set.toList.map m.reg) } := by
  refine effect_of_scalar h rfl fun pc next => ?_
  have hsub : Checked.sub (m.reg .sp).toNat (4 * set.size) = .ok base.toNat := by
    rw [hbase, toNat_wordAddress hroom, Checked.sub, if_pos (by omega), Nat.add_sub_cancel]
  -- the stack pointer moves before the registers are stored, and it is none of them
  have hsame : set.toList.map (m.setReg .sp base).reg = set.toList.map m.reg :=
    List.map_congr_left fun r hr => reg_setReg_of_ne m base fun heq => hsp (heq ▸ hr)
  have hstore := storeRegs_eq (m := m.setReg .sp base) hpc hroom hwritable pc
  rw [hsame] at hstore
  simp only [execute, bind, EStateM.bind, get, getThe, MonadStateOf.get, EStateM.get, hsub,
    checked, pure, EStateM.pure, writeReg, modify, modifyGet, MonadStateOf.modifyGet,
    EStateM.modifyGet, UInt32.ofNat_toNat, hstore]
  rfl

/-- A pop whose last register is the program counter returns there. -/
theorem execute_pop {set : RegSet} {regs : List Reg} {values : Reg → UInt32} {target : UInt32}
    (hset : set.toList = regs ++ [.pc]) (hpc : .pc ∉ regs)
    (hroom : (m.reg .sp).toNat + 4 * (regs.length + 1) < 2 ^ 32)
    (hholds : m.memory.HoldsWords (m.reg .sp) (regs.map values))
    (htarget : m.memory.read (wordAddress (m.reg .sp) regs.length) = .ok (target + 1))
    (heven : target % 2 = 0) (pc next : UInt32) (mask : LaneMask) :
    execute mulAdd pc next mask (.pop set) m =
      .ok target ((m.setRegs values regs).setReg .sp
        (wordAddress (m.reg .sp) (regs.length + 1))) := by
  have hload : loadRegs (regs ++ [.pc]) (m.reg .sp) next m = _ :=
    loadRegs_append hpc (by omega) hholds next
  rw [← memory_setRegs m values regs] at htarget
  -- the saved address has the low bit set, which marks the instruction set and is dropped
  have hodd : (target + 1) % 2 ≠ 0 := by
    intro heq
    have h0 := congrArg UInt32.toNat heven
    have h1 := congrArg UInt32.toNat heq
    simp only [UInt32.toNat_mod, UInt32.toNat_add, UInt32.reduceToNat] at h0 h1
    omega
  have hadvance : advance (wordAddress (m.reg .sp) regs.length) 4 (m.setRegs values regs) = _ :=
    advance_four (by rw [toNat_wordAddress (by omega)]; omega)
  simp only [execute, bind, EStateM.bind, get, getThe, MonadStateOf.get, EStateM.get, hset, hload,
    loadRegs, load, htarget, ↓reduceIte, exchange, hodd, pure, EStateM.pure, hadvance,
    UInt32.add_sub_cancel]
  rw [← wordAddress_wordAddress]
  rfl

/-! ## Double registers -/

/-- The single registers of `count` double registers from `d` on. -/
def halves : Nat → Nat → List SReg
  | 0, _ => []
  | count + 1, d => SReg.ofField (2 * d) :: SReg.ofField (2 * d + 1) :: halves count (d + 1)

theorem length_halves (count d : Nat) : (halves count d).length = 2 * count := by
  induction count generalizing d with
  | zero => rfl
  | succ count ih =>
    rw [halves, List.length_cons, List.length_cons, ih]
    omega

/-- Give single registers the values of a function. -/
def setSingles (m : Machine) (values : SReg → UInt32) (singles : List SReg) : Machine :=
  singles.foldl (fun m s => m.setSingle s (values s)) m

theorem setSingles_eq (m : Machine) (values : SReg → UInt32) (singles : List SReg) :
    m.setSingles values singles =
      { m with singles := (m.setSingles values singles).singles } := by
  induction singles generalizing m with
  | nil => rfl
  | cons s singles ih => exact ih (m.setSingle s (values s))

theorem single_setSingles (m : Machine) (values : SReg → UInt32) (singles : List SReg) (s : SReg) :
    (m.setSingles values singles).single s = if s ∈ singles then values s else m.single s := by
  induction singles generalizing m with
  | nil => rfl
  | cons t singles ih =>
    refine (ih (m.setSingle t (values t))).trans ?_
    by_cases hs : s ∈ singles
    · rw [if_pos hs, if_pos (List.mem_cons_of_mem _ hs)]
    · rw [if_neg hs]
      by_cases ht : s = t
      · subst ht
        rw [if_pos List.mem_cons_self, single_setSingle_self]
      · rw [if_neg (by simp [hs, ht]), single_setSingle_of_ne _ _ (Ne.symm ht)]

theorem doubleHalf_eq {d half : Nat} (h : 2 * d + half < 32) :
    doubleHalf d half m = .ok (SReg.ofField (2 * d + half)) m := by
  have hfield : SReg.ofField (2 * d + half) = ⟨2 * d + half, h⟩ :=
    Fin.ext (Nat.mod_eq_of_lt h)
  rw [doubleHalf, SReg.ofNum?, dif_pos h, hfield]
  rfl

theorem add_four_add_four (address : UInt32) : address + 4 + 4 = address + 8 := by
  rw [UInt32.add_assoc]
  rfl

theorem toNat_add_eight (h : address.toNat + 8 < 2 ^ 32) :
    (address + 8).toNat = address.toNat + 8 :=
  toNat_wordAddress (n := 2) h

theorem wordAddress_succ_succ (n : Nat) :
    wordAddress (address + 8) n = wordAddress address (n + 2) := by
  rw [← add_four_add_four, wordAddress_succ, wordAddress_succ]

theorem storeDoubles_eq {count d : Nat} (hcount : 2 * (d + count) ≤ 32)
    (hroom : address.toNat + 8 * count < 2 ^ 32)
    (hwritable : ∀ n < 2 * count, m.memory.Writable (wordAddress address n)) :
    storeDoubles count d address m =
      .ok () { m with memory := m.memory.putAll address ((halves count d).map m.single) } := by
  induction count generalizing m d address with
  | zero => rfl
  | succ count ih =>
    -- the states after the low and after the high half
    generalize hm₀ : m.putWord address (m.single (SReg.ofField (2 * d))) = m₀
    generalize hm₁ : m₀.putWord (address + 4) (m₀.single (SReg.ofField (2 * d + 1))) = m₁
    have hw₀ : m.memory.writeError? address = none := by
      rw [← wordAddress_zero address]
      exact hwritable 0 (by omega)
    have hwrites₀ : Memory.Writes (fun _ => True) m.memory m₀.memory :=
      hm₀ ▸ .put .refl trivial hw₀
    have hw₁ : m₀.memory.writeError? (address + 4) = none :=
      hwrites₀.writable_iff.mpr (hwritable 1 (by omega))
    have hwrites₁ : Memory.Writes (fun _ => True) m.memory m₁.memory :=
      hm₁ ▸ .put hwrites₀ trivial hw₁
    have hwritable₁ : ∀ n < 2 * count, m₁.memory.Writable (wordAddress (address + 8) n) := by
      intro n hn
      rw [wordAddress_succ_succ]
      exact hwrites₁.writable_iff.mpr (hwritable (n + 2) (by omega))
    have hrest := ih (d := d + 1) (by omega) (by rw [toNat_add_eight (by omega)]; omega) hwritable₁
    simp only [storeDoubles, bind, EStateM.bind, get, getThe, MonadStateOf.get, EStateM.get, store,
      doubleHalf_eq (by omega : 2 * d + 0 < 32), doubleHalf_eq (by omega : 2 * d + 1 < 32), hw₀,
      Nat.add_zero, hm₀, advance_four (by omega : address.toNat + 4 < 2 ^ 32), hw₁, hm₁,
      advance_eight (by omega : address.toNat + 8 < 2 ^ 32)]
    rw [hrest, ← hm₁, ← hm₀, ← add_four_add_four]
    rfl

/-- Loading double registers gives their halves the words in memory. -/
theorem loadDoubles_eq {count d : Nat} {values : SReg → UInt32} (hcount : 2 * (d + count) ≤ 32)
    (hroom : address.toNat + 8 * count < 2 ^ 32)
    (hholds : m.memory.HoldsWords address ((halves count d).map values)) :
    loadDoubles count d address m =
      .ok (wordAddress address (2 * count)) (m.setSingles values (halves count d)) := by
  induction count generalizing m d address with
  | zero =>
    rw [Nat.mul_zero, wordAddress_zero]
    rfl
  | succ count ih =>
    -- the states after the low and after the high half
    generalize hm₀ : m.setSingle (SReg.ofField (2 * d)) (values (SReg.ofField (2 * d))) = m₀
    generalize hm₁ :
      m₀.setSingle (SReg.ofField (2 * d + 1)) (values (SReg.ofField (2 * d + 1))) = m₁
    have hread₀ := hholds.head
    have hread₁ : m₀.memory.read (address + 4) = .ok (values (SReg.ofField (2 * d + 1))) := by
      rw [← hm₀]
      exact hholds.tail.head
    have hholds₁ : m₁.memory.HoldsWords (address + 8) ((halves count (d + 1)).map values) := by
      rw [← hm₁, ← hm₀, ← add_four_add_four]
      exact hholds.tail.tail
    have hrest := ih (d := d + 1) (by omega) (by rw [toNat_add_eight (by omega)]; omega) hholds₁
    simp only [loadDoubles, bind, EStateM.bind, load, hread₀,
      doubleHalf_eq (by omega : 2 * d + 0 < 32), doubleHalf_eq (by omega : 2 * d + 1 < 32),
      Nat.add_zero, modify, modifyGet, MonadStateOf.modifyGet, EStateM.modifyGet, hm₀,
      advance_four (by omega : address.toNat + 4 < 2 ^ 32), hread₁, hm₁,
      advance_eight (by omega : address.toNat + 8 < 2 ^ 32)]
    rw [hrest, wordAddress_succ_succ, ← hm₁, ← hm₀]
    rfl

theorem effect_vpush (h : m.vptRemaining = 0) {first count : Nat}
    (hcount : 2 * (first + count) ≤ 32) {base : UInt32}
    (hbase : m.reg .sp = wordAddress base (2 * count)) (hroom : base.toNat + 8 * count < 2 ^ 32)
    (hwritable : ∀ n < 2 * count, m.memory.Writable (wordAddress base n)) :
    Effect mulAdd (.vpush first count) m
      { m.setReg .sp base with
        memory := m.memory.putAll base ((halves count first).map m.single) } := by
  refine effect_of_scalar h rfl fun pc next => ?_
  have hsub : Checked.sub (m.reg .sp).toNat (8 * count) = .ok base.toNat := by
    rw [hbase, toNat_wordAddress (by omega), Checked.sub, if_pos (by omega)]
    congr 1
    omega
  have hstore := storeDoubles_eq (m := m.setReg .sp base) hcount hroom hwritable
  simp only [execute, bind, EStateM.bind, get, getThe, MonadStateOf.get, EStateM.get, hsub,
    checked, pure, EStateM.pure, writeReg, modify, modifyGet, MonadStateOf.modifyGet,
    EStateM.modifyGet, UInt32.ofNat_toNat, hstore]
  rfl

theorem effect_vpop (h : m.vptRemaining = 0) {first count : Nat} {values : SReg → UInt32}
    (hcount : 2 * (first + count) ≤ 32) (hroom : (m.reg .sp).toNat + 8 * count < 2 ^ 32)
    (hholds : m.memory.HoldsWords (m.reg .sp) ((halves count first).map values)) :
    Effect mulAdd (.vpop first count) m
      ((m.setSingles values (halves count first)).setReg .sp
        (wordAddress (m.reg .sp) (2 * count))) := by
  refine effect_of_scalar h rfl fun pc next => ?_
  simp only [execute, bind, EStateM.bind, get, getThe, MonadStateOf.get, EStateM.get,
    loadDoubles_eq hcount hroom hholds]
  rfl

end Machine

end HeliumKernels
