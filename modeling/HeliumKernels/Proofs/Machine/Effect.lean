/-
  HeliumKernels.Proofs.Machine.Effect

  What single operations do to the machine.  `Effect` relates the states
  before and after an operation that runs on to the next instruction; it does
  not mention the program counter, so code can be reasoned about before it
  is known where it stands.
-/
import HeliumKernels.Machine.Step
import HeliumKernels.Proofs.Machine.Memory
import Mathlib.Data.UInt

namespace HeliumKernels

namespace LaneMask

theorem get_all (l : Lane) : all.get l = true := by
  simp [all, Vector.get_eq_getElem]

/-- The lanes below a count. -/
theorem get_below_iff (count : UInt32) (l : Lane) :
    (below all count).get l = true ↔ l.val < count.toNat := by
  have hl := l.isLt
  unfold below
  split
  · next hcount =>
    simp only [UInt32.le_iff_toNat_le, UInt32.reduceToNat] at hcount
    exact iff_of_true (get_all l) (by omega)
  · rw [Vector.get_ofFn, get_all, Bool.true_and, decide_eq_true_eq]

end LaneMask

namespace Machine

namespace Run

variable {α β : Type} {x : Run α} {f : α → Run β} {m m' : Machine}

/-- A computation goes on from where its first part ends. -/
theorem bind_of_ok {a : α} (h : x m = .ok a m') : (x >>= f) m = f a m' := by
  show EStateM.bind x f m = _
  rw [EStateM.bind, h]

/-- It stops where its first part stops. -/
theorem bind_of_error {halt : Halt} (h : x m = .error halt m') : (x >>= f) m = .error halt m' := by
  show EStateM.bind x f m = _
  rw [EStateM.bind, h]

/-- A computation that gives a result gave one in both of its parts. -/
theorem bind_ok_iff {b : β} :
    (x >>= f) m = .ok b m' ↔ ∃ a m₁, x m = .ok a m₁ ∧ f a m₁ = .ok b m' := by
  cases hx : x m with
  | ok a m₁ =>
    rw [bind_of_ok hx]
    simp
  | error halt m₁ =>
    rw [bind_of_error hx]
    simp

end Run

open Run

/-! ## Views of an updated machine -/

section Views

variable (m : Machine) (r s : Reg) (q : QReg) (l : Lane) (value : UInt32)

@[simp] theorem lane_setReg : (m.setReg r value).lane q l = m.lane q l := rfl

@[simp] theorem memory_setReg : (m.setReg r value).memory = m.memory := rfl

@[simp] theorem reg_setLane : (m.setLane q l value).reg r = m.reg r := rfl

@[simp] theorem memory_setLane : (m.setLane q l value).memory = m.memory := rfl

@[simp] theorem lane_setLane_self : (m.setLane q l value).lane q l = value :=
  single_setSingle_self m _ value

theorem lane_setLane_of_ne {q p : QReg} {l k : Lane} (h : ¬(q = p ∧ l = k)) :
    (m.setLane q l value).lane p k = m.lane p k :=
  single_setSingle_of_ne m value fun heq => h (laneIndex_injective heq)

theorem lane_setLane_of_lane_ne {q p : QReg} {l k : Lane} (h : l ≠ k) :
    (m.setLane q l value).lane p k = m.lane p k :=
  lane_setLane_of_ne m value fun heq => h heq.2

end Views

/-! ## Operations that run on -/

/-- An operation takes one state to another and runs on, wherever it stands. -/
def Effect (mulAdd : MulAdd) (op : Operation) (m m' : Machine) : Prop :=
  ∀ pc next, (laneMask op pc >>= fun mask => execute mulAdd pc next mask op) m = .ok next m'

/-- An operation stops the machine for the given reason, wherever it stands. -/
def Fails (mulAdd : MulAdd) (op : Operation) (m : Machine) (halt : Halt) : Prop :=
  ∀ pc next, ∃ stopped,
    (laneMask op pc >>= fun mask => execute mulAdd pc next mask op) m = .error halt stopped

/-- Outside predication blocks and tail-predicated loops. -/
structure Plain (m : Machine) : Prop where
  block : m.vptRemaining = 0
  tail : m.tailPredicated = false

variable {mulAdd : MulAdd} {m m' : Machine} {op : Operation}

theorem laneMask_of_plain (h : m.Plain) (pc : UInt32) : laneMask op pc m = .ok LaneMask.all m := by
  simp only [laneMask, bind, EStateM.bind, get, getThe, MonadStateOf.get, EStateM.get, h.block,
    h.tail]
  rfl

/-- In a predication block a vector operation acts on the lanes of the predicate. -/
theorem laneMask_of_block {count : Nat} (hblock : m.vptRemaining = count + 1)
    (htail : m.tailPredicated = false) (hop : op.isVector = true) (pc : UInt32) :
    laneMask op pc m = .ok m.predicate { m with vptRemaining := count } := by
  obtain ⟨regs, singles, flags, predicate, block, tail, memory, limit, steps⟩ := m
  subst hblock htail
  simp only [laneMask, bind, EStateM.bind, get, getThe, MonadStateOf.get, EStateM.get, hop]
  rfl

/-- In a tail-predicated loop a vector operation acts on one lane for each element
    that is left. -/
theorem laneMask_of_tail (hblock : m.vptRemaining = 0) (htail : m.tailPredicated = true)
    (hop : op.isVector = true) (pc : UInt32) :
    laneMask op pc m = .ok (LaneMask.below LaneMask.all (m.reg .lr)) m := by
  simp only [laneMask, bind, EStateM.bind, get, getThe, MonadStateOf.get, EStateM.get, hblock,
    htail, hop]
  rfl

/-- In a predication block of such a loop it acts on those of these lanes that the predicate
    has. -/
theorem laneMask_of_block_tail {count : Nat} (hblock : m.vptRemaining = count + 1)
    (htail : m.tailPredicated = true) (hop : op.isVector = true) (pc : UInt32) :
    laneMask op pc m =
      .ok (LaneMask.below m.predicate (m.reg .lr)) { m with vptRemaining := count } := by
  obtain ⟨regs, singles, flags, predicate, block, tail, memory, limit, steps⟩ := m
  subst hblock htail
  simp only [laneMask, bind, EStateM.bind, get, getThe, MonadStateOf.get, EStateM.get, hop]
  rfl

/-- Outside a block other operations are never masked. -/
theorem laneMask_of_scalar (hblock : m.vptRemaining = 0) (hop : op.isVector = false)
    (pc : UInt32) : laneMask op pc m = .ok LaneMask.all m := by
  simp only [laneMask, bind, EStateM.bind, get, getThe, MonadStateOf.get, EStateM.get, hblock, hop]
  cases m.tailPredicated <;> rfl

/-- An operation runs on if it does so on the lanes that it acts on. -/
theorem effect_of_laneMask {mask : LaneMask} {m₁ : Machine}
    (hmask : ∀ pc, laneMask op pc m = .ok mask m₁)
    (hexec : ∀ pc next, execute mulAdd pc next mask op m₁ = .ok next m') :
    Effect mulAdd op m m' := by
  intro pc next
  rw [bind_of_ok (hmask pc)]
  exact hexec pc next

theorem effect_of_plain (h : m.Plain)
    (hexec : ∀ pc next, execute mulAdd pc next LaneMask.all op m = .ok next m') :
    Effect mulAdd op m m' :=
  effect_of_laneMask (laneMask_of_plain h) hexec

theorem effect_of_scalar (hblock : m.vptRemaining = 0) (hop : op.isVector = false)
    (hexec : ∀ pc next, execute mulAdd pc next LaneMask.all op m = .ok next m') :
    Effect mulAdd op m m' :=
  effect_of_laneMask (laneMask_of_scalar hblock hop) hexec

/-- A vector operation acts on the lanes of a mask, starting from a second state. -/
def Masks (m : Machine) (mask : LaneMask) (m₁ : Machine) : Prop :=
  ∀ op pc, op.isVector = true → laneMask op pc m = .ok mask m₁

theorem masks_of_plain (h : m.Plain) : m.Masks LaneMask.all m :=
  fun _ pc _ => laneMask_of_plain h pc

theorem masks_of_block {count : Nat} (hblock : m.vptRemaining = count + 1)
    (htail : m.tailPredicated = false) :
    m.Masks m.predicate { m with vptRemaining := count } :=
  fun _ pc hop => laneMask_of_block hblock htail hop pc

theorem masks_of_tail (hblock : m.vptRemaining = 0) (htail : m.tailPredicated = true) :
    m.Masks (LaneMask.below LaneMask.all (m.reg .lr)) m :=
  fun _ pc hop => laneMask_of_tail hblock htail hop pc

theorem effect_of_masks {mask : LaneMask} {m₁ : Machine} (h : m.Masks mask m₁)
    (hop : op.isVector = true)
    (hexec : ∀ pc next, execute mulAdd pc next mask op m₁ = .ok next m') :
    Effect mulAdd op m m' :=
  effect_of_laneMask (fun pc => h op pc hop) hexec

theorem read_of_ne_pc {r : Reg} (h : r ≠ .pc) (pc : UInt32) : m.read pc r = m.reg r := by
  cases r <;> first | rfl | exact absurd rfl h

/-! ## Moves and arithmetic

A pending block would refuse these; a tail-predicated loop does not mask them.
-/

theorem effect_movImm (mulAdd : MulAdd) (h : m.vptRemaining = 0) (rd : Reg) (imm : UInt32)
    (setFlags : Bool) :
    ∃ flags, Effect mulAdd (.movImm rd imm setFlags) m { m.setReg rd imm with flags } := by
  cases setFlags with
  | false => exact ⟨m.flags, effect_of_scalar h rfl fun pc next => rfl⟩
  | true => exact ⟨_, effect_of_scalar h rfl fun pc next => rfl⟩

theorem effect_movTop (h : m.vptRemaining = 0) {rd : Reg} (hrd : rd ≠ .pc) (imm : UInt16) :
    Effect mulAdd (.movTop rd imm) m
      (m.setReg rd (m.reg rd % 0x10000 + imm.toUInt32 * 0x10000)) :=
  effect_of_scalar h rfl fun pc next => by rw [← read_of_ne_pc hrd pc]; rfl

theorem effect_movReg (h : m.vptRemaining = 0) (rd : Reg) {rm : Reg} (hrm : rm ≠ .pc) :
    Effect mulAdd (.movReg rd rm) m (m.setReg rd (m.reg rm)) :=
  effect_of_scalar h rfl fun pc next => by rw [← read_of_ne_pc hrm pc]; rfl

/-- Flags after a sum or difference. -/
def arithmeticFlags (op : AddSub) (x y : UInt32) (setFlags : Bool) (flags : Flags) : Flags :=
  if setFlags then
    let (result, c, v) := addSub op x y
    ⟨isNegative result, result == 0, c, v⟩
  else flags

@[simp] theorem addSub_add (x y : UInt32) : (addSub .add x y).1 = x + y := rfl

@[simp] theorem addSub_sub (x y : UInt32) : (addSub .sub x y).1 = x - y := by
  show x + ~~~y + 1 = x - y
  apply UInt32.toBitVec_inj.mp
  simp [BitVec.sub_eq_add_neg, BitVec.neg_eq_not_add, BitVec.add_assoc]

theorem effect_addSubImm (mulAdd : MulAdd) (h : m.vptRemaining = 0) (op : AddSub) (rd : Reg)
    {rn : Reg} (hrn : rn ≠ .pc) (imm : UInt32) (form : AddSubImmForm) :
    ∃ flags, Effect mulAdd (Instruction.addSubImm op rd rn imm form).meaning m
      { m.setReg rd (addSub op (m.reg rn) imm).1 with flags } := by
  refine ⟨arithmeticFlags op (m.reg rn) imm (form == .narrow3 || form == .narrow8) m.flags,
    effect_of_scalar h (by cases op <;> rfl) fun pc next => ?_⟩
  rw [← read_of_ne_pc hrn pc]
  cases op <;> cases form <;> rfl

theorem effect_addSubReg (mulAdd : MulAdd) (h : m.vptRemaining = 0) (op : AddSub) (rd : Reg)
    {rn rm : Reg} (hrn : rn ≠ .pc) (hrm : rm ≠ .pc) (shift : Nat) (form : AddSubRegForm) :
    ∃ flags, Effect mulAdd (Instruction.addSubReg op rd rn rm shift form).meaning m
      { m.setReg rd (addSub op (m.reg rn) (m.reg rm <<< UInt32.ofNat shift)).1 with flags } := by
  refine ⟨arithmeticFlags op (m.reg rn) (m.reg rm <<< UInt32.ofNat shift) (form == .narrow3) m.flags,
    effect_of_scalar h (by cases op <;> rfl) fun pc next => ?_⟩
  rw [← read_of_ne_pc hrn pc, ← read_of_ne_pc hrm pc]
  cases op <;> cases form <;> rfl

/-- The zero flag of a difference tells equality. -/
theorem z_arithmeticFlags_sub (x y : UInt32) (flags : Flags) :
    (arithmeticFlags .sub x y true flags).z = decide (x = y) := by
  show ((addSub .sub x y).1 == 0) = _
  rw [addSub_sub, Bool.eq_iff_iff, beq_iff_eq, decide_eq_true_eq]
  exact sub_eq_zero

/-- A comparison leaves all but the flags. -/
theorem effect_cmpImm (mulAdd : MulAdd) (h : m.Plain) {rn : Reg} (hrn : rn ≠ .pc) (imm : UInt32) :
    Effect mulAdd (.cmpImm rn imm) m
      { m with flags := arithmeticFlags .sub (m.reg rn) imm true m.flags } := by
  refine effect_of_plain h fun pc next => ?_
  rw [← read_of_ne_pc hrn pc]
  rfl

theorem effect_cmpReg (mulAdd : MulAdd) (h : m.Plain) {rn rm : Reg} (hrn : rn ≠ .pc)
    (hrm : rm ≠ .pc) :
    Effect mulAdd (.cmpReg rn rm) m
      { m with flags := arithmeticFlags .sub (m.reg rn) (m.reg rm) true m.flags } := by
  refine effect_of_plain h fun pc next => ?_
  rw [← read_of_ne_pc hrn pc, ← read_of_ne_pc hrm pc]
  rfl

/-! ## Loads -/

theorem displaced_ofNat (address : UInt32) (n : Nat) :
    displaced address (n : Int) = address + UInt32.ofNat n := rfl

theorem effect_ldrImm (h : m.Plain) (rt : Reg) {rn : Reg} (hrn : rn ≠ .pc) {offset : Nat}
    {value : UInt32} (hread : m.memory.read (m.reg rn + UInt32.ofNat offset) = .ok value) :
    Effect mulAdd (.ldrImm rt rn offset .offset) m (m.setReg rt value) := by
  refine effect_of_plain h fun pc next => ?_
  rw [← read_of_ne_pc hrn pc] at hread
  simp only [execute, bind, EStateM.bind, get, getThe, MonadStateOf.get, EStateM.get, indexed,
    displaced_ofNat, load, hread]
  rfl

theorem effect_ldrImm_post (h : m.Plain) (rt : Reg) {rn : Reg} (hrn : rn ≠ .pc) {offset : Nat}
    {value : UInt32} (hread : m.memory.read (m.reg rn) = .ok value) :
    Effect mulAdd (.ldrImm rt rn offset .postIndex) m
      ((m.setReg rn (m.reg rn + UInt32.ofNat offset)).setReg rt value) := by
  refine effect_of_plain h fun pc next => ?_
  rw [← read_of_ne_pc hrn pc] at hread ⊢
  simp only [execute, bind, EStateM.bind, get, getThe, MonadStateOf.get, EStateM.get, indexed,
    displaced_ofNat, load, hread]
  rfl

theorem effect_ldrReg (h : m.Plain) (rt : Reg) {rn rm : Reg} (hrn : rn ≠ .pc) (hrm : rm ≠ .pc)
    {shift : Nat} {value : UInt32}
    (hread : m.memory.read (m.reg rn + (m.reg rm <<< UInt32.ofNat shift)) = .ok value) :
    Effect mulAdd (.ldrReg rt rn rm shift) m (m.setReg rt value) := by
  refine effect_of_plain h fun pc next => ?_
  rw [← read_of_ne_pc hrn pc, ← read_of_ne_pc hrm pc] at hread
  simp only [execute, bind, EStateM.bind, get, getThe, MonadStateOf.get, EStateM.get, load, hread]
  rfl

/-! ## Loops and predication -/

theorem effect_loopStart (h : m.Plain) {rn : Reg} (hrn : rn ≠ .pc) :
    Effect mulAdd (.loopStart rn none none) m
      { m.setReg .lr (m.reg rn) with tailPredicated := false } := by
  refine effect_of_plain h fun pc next => ?_
  rw [← read_of_ne_pc hrn pc]
  rfl

theorem effect_vctp (h : m.Plain) {rn : Reg} (hrn : rn ≠ .pc) :
    Effect mulAdd (.vctp .b32 rn) m
      { m with predicate := LaneMask.below LaneMask.all (m.reg rn) } := by
  refine effect_of_plain h fun pc next => ?_
  rw [← read_of_ne_pc hrn pc]
  rfl

theorem effect_vpst (h : m.Plain) (count : Nat) :
    Effect mulAdd (.vpst count) m { m with vptRemaining := count } :=
  effect_of_plain h fun _ _ => rfl

/-! ## Vectors -/

theorem setVector_eq (m : Machine) (q : QReg) (values : Vector UInt32 4) :
    m.setVector q values =
      (((m.setLane q 0 values[0]).setLane q 1 values[1]).setLane q 2 values[2]).setLane q 3
        values[3] := rfl

theorem lane_setVector_self (m : Machine) (q : QReg) (values : Vector UInt32 4) (l : Lane) :
    (m.setVector q values).lane q l = values.get l := by
  rw [setVector_eq]
  match l with
  | 0 =>
    rw [lane_setLane_of_lane_ne _ _ (by decide : (3 : Lane) ≠ 0),
      lane_setLane_of_lane_ne _ _ (by decide : (2 : Lane) ≠ 0),
      lane_setLane_of_lane_ne _ _ (by decide : (1 : Lane) ≠ 0), lane_setLane_self]
    rfl
  | 1 =>
    rw [lane_setLane_of_lane_ne _ _ (by decide : (3 : Lane) ≠ 1),
      lane_setLane_of_lane_ne _ _ (by decide : (2 : Lane) ≠ 1), lane_setLane_self]
    rfl
  | 2 =>
    rw [lane_setLane_of_lane_ne _ _ (by decide : (3 : Lane) ≠ 2), lane_setLane_self]
    rfl
  | 3 =>
    rw [lane_setLane_self]
    rfl

theorem lane_setVector_of_ne (m : Machine) {q p : QReg} (values : Vector UInt32 4) (l : Lane)
    (h : q ≠ p) : (m.setVector q values).lane p l = m.lane p l := by
  rw [setVector_eq, lane_setLane_of_ne _ _ fun heq => h heq.1,
    lane_setLane_of_ne _ _ fun heq => h heq.1, lane_setLane_of_ne _ _ fun heq => h heq.1,
    lane_setLane_of_ne _ _ fun heq => h heq.1]

theorem forM_cons_eq {f : Lane → Run Unit} {l : Lane} {rest : List Lane} {m₁ : Machine}
    (h : f l m = .ok () m₁) : (l :: rest).forM f m = rest.forM f m₁ :=
  bind_of_ok h

/-- Loading lanes puts the words that were read in a vector register, and zero in
    the lanes that the mask leaves out. -/
theorem loadLanes_eq {mask : LaneMask} {address : UInt32} {values : Lane → UInt32} (q : QReg)
    (hread : ∀ l : Lane, mask.get l = true → m.memory.read (laneAddress address l) = .ok (values l)) :
    loadLanes mask q address m =
      .ok () (m.setVector q (Vector.ofFn fun l => if mask.get l then values l else 0)) := by
  -- one lane, from any state with the same memory
  have hone : ∀ (l : Lane) (m₁ : Machine), m₁.memory = m.memory →
      (do
        let value ← if mask.get l then load (laneAddress address l) else pure 0
        modify fun m => m.setLane q l value : Run Unit) m₁ =
      .ok () (m₁.setLane q l (if mask.get l then values l else 0)) := by
    intro l m₁ hmemory
    cases hmask : mask.get l with
    | false => rfl
    | true =>
      simp only [↓reduceIte, bind, EStateM.bind, load, hmemory, hread l hmask]
      rfl
  rw [setVector_eq]
  simp only [Vector.getElem_ofFn]
  exact (forM_cons_eq (hone 0 m rfl)).trans <| (forM_cons_eq (hone 1 _ (by rfl))).trans <|
    (forM_cons_eq (hone 2 _ (by rfl))).trans (forM_cons_eq (hone 3 _ (by rfl)))

/-- Lanes in turn: what one of them fails with, all of them do, if those before it go
    through and keep what they rely on. -/
theorem forM_eq_error {f : Lane → Run Unit} (keep : Machine → Prop) {halt : Halt} {k : Lane}
    {before after : List Lane}
    (hbefore : ∀ l ∈ before, ∀ m, keep m → ∃ m', f l m = .ok () m' ∧ keep m')
    (hk : ∀ m, keep m → ∃ stopped, f k m = .error halt stopped) (hm : keep m) :
    ∃ stopped, (before ++ k :: after).forM f m = .error halt stopped := by
  induction before generalizing m with
  | nil =>
    obtain ⟨stopped, hstop⟩ := hk m hm
    exact ⟨stopped, bind_of_error hstop⟩
  | cons l before ih =>
    obtain ⟨m', hl, hm'⟩ := hbefore l List.mem_cons_self m hm
    obtain ⟨stopped, hrest⟩ := ih (fun l hl => hbefore l (List.mem_cons_of_mem _ hl)) hm'
    exact ⟨stopped, (forM_cons_eq hl).trans hrest⟩

/-- Loading lanes stops at the first of the mask's lanes that cannot be read. -/
theorem loadLanes_eq_error {mask : LaneMask} {address : UInt32} (q : QReg) {k : Lane}
    (hk : mask.get k = true)
    (hbefore : ∀ l < k, mask.get l = true → m.memory.Readable (laneAddress address l))
    {error : MemoryError} (herror : m.memory.read (laneAddress address k) = .error error) :
    ∃ stopped, loadLanes mask q address m = .error (.error (.memory error)) stopped := by
  -- the lanes before the one that cannot be read leave the memory as it is
  have hsplit : ∀ k : Lane, Lane.all = Lane.all.take k ++ k :: Lane.all.drop (k + 1) ∧
      ∀ l ∈ Lane.all.take k, l < k := by decide
  obtain ⟨hall, hlt⟩ := hsplit k
  rw [loadLanes, hall]
  refine forM_eq_error (fun m₁ => m₁.memory = m.memory) ?_ ?_ rfl
  · intro l hl m₁ hmemory
    cases hmask : mask.get l with
    | false => exact ⟨_, rfl, hmemory⟩
    | true =>
      obtain ⟨value, hread⟩ := hbefore l (hlt l hl) hmask
      refine ⟨m₁.setLane q l value, ?_, hmemory⟩
      simp only [↓reduceIte, bind, EStateM.bind, load, hmemory, hread]
      rfl
  · intro m₁ hmemory
    refine ⟨m₁, ?_⟩
    simp only [hk, ↓reduceIte, bind, EStateM.bind, load, hmemory, herror]

theorem laneAddress_injective {address : UInt32} {l k : Lane}
    (h : laneAddress address l = laneAddress address k) : l = k :=
  Fin.ext (wordAddress_injective (by omega) (by omega) h)

/-- Storing one lane writes its word if the mask has it. -/
theorem storeLane_eq {mask : LaneMask} {address : UInt32} (q : QReg) (l : Lane)
    (hwritable : mask.get l = true → m.memory.Writable (laneAddress address l)) :
    ∃ memory,
      (do if mask.get l then store (laneAddress address l) ((← get).lane q l) : Run Unit) m =
        .ok () { m with memory } ∧
      Memory.Writes (fun a => mask.get l = true ∧ a = laneAddress address l) m.memory memory ∧
      (mask.get l = true → memory.read (laneAddress address l) = .ok (m.lane q l)) := by
  cases hmask : mask.get l with
  | false => exact ⟨m.memory, rfl, .refl, nofun⟩
  | true =>
    have hw := hwritable hmask
    have herror : m.memory.writeError? (laneAddress address l) = none := hw
    refine ⟨(m.putWord (laneAddress address l) (m.lane q l)).memory, ?_, .put .refl ⟨rfl, rfl⟩ hw,
      fun _ => Memory.read_put_self hw⟩
    simp only [↓reduceIte, bind, EStateM.bind, get, getThe, MonadStateOf.get, EStateM.get, store,
      herror]
    rfl

/-- Storing lanes in turn writes the words of those in the mask and nothing else. -/
theorem forM_store_eq {mask : LaneMask} {address : UInt32} (q : QReg) {lanes : List Lane}
    (hnodup : lanes.Nodup)
    (hwritable : ∀ l ∈ lanes, mask.get l = true → m.memory.Writable (laneAddress address l)) :
    ∃ memory,
      (lanes.forM fun l => do
        if mask.get l then store (laneAddress address l) ((← get).lane q l) : Run Unit) m =
        .ok () { m with memory } ∧
      Memory.Writes (fun a => ∃ l ∈ lanes, mask.get l = true ∧ a = laneAddress address l)
        m.memory memory ∧
      ∀ l ∈ lanes, mask.get l = true → memory.read (laneAddress address l) = .ok (m.lane q l) := by
  induction lanes generalizing m with
  | nil => exact ⟨m.memory, rfl, .refl, nofun⟩
  | cons l lanes ih =>
    obtain ⟨hl, hnodup⟩ := List.nodup_cons.mp hnodup
    obtain ⟨memory₁, hone, hwrites₁, hread₁⟩ := storeLane_eq q l (hwritable l List.mem_cons_self)
    obtain ⟨memory, hrun, hwrites, hread⟩ :=
      ih (m := { m with memory := memory₁ }) hnodup fun k hk hset =>
        hwrites₁.writable_iff.mpr (hwritable k (List.mem_cons_of_mem _ hk) hset)
    refine ⟨memory, (forM_cons_eq hone).trans hrun, (hwrites₁.mono ?_).trans (hwrites.mono ?_), ?_⟩
    · rintro a ⟨hset, rfl⟩
      exact ⟨l, List.mem_cons_self, hset, rfl⟩
    · rintro a ⟨k, hk, hset, rfl⟩
      exact ⟨k, List.mem_cons_of_mem _ hk, hset, rfl⟩
    · intro k hk hset
      rcases List.mem_cons.mp hk with rfl | hk
      · -- the lanes stored later lie elsewhere
        rw [hwrites.read_eq]
        · exact hread₁ hset
        · rintro ⟨k', hk', -, heq⟩
          exact hl (laneAddress_injective heq ▸ hk')
      · exact hread k hk hset

/-- Storing lanes writes the words of the mask's lanes and nothing else. -/
theorem storeLanes_eq {mask : LaneMask} {address : UInt32} (q : QReg)
    (hwritable : ∀ l : Lane, mask.get l = true → m.memory.Writable (laneAddress address l)) :
    ∃ memory, storeLanes mask q address m = .ok () { m with memory } ∧
      Memory.Writes (fun a => ∃ l : Lane, mask.get l = true ∧ a = laneAddress address l)
        m.memory memory ∧
      ∀ l : Lane, mask.get l = true → memory.read (laneAddress address l) = .ok (m.lane q l) := by
  have hall : ∀ l : Lane, l ∈ Lane.all := by decide
  obtain ⟨memory, hrun, hwrites, hread⟩ :=
    forM_store_eq q (by decide : Lane.all.Nodup) fun l _ => hwritable l
  exact ⟨memory, hrun, hwrites.mono fun a ⟨l, _, h⟩ => ⟨l, h⟩, fun l => hread l (hall l)⟩

/-! ## Vector operations -/

section Vectors

variable {mask : LaneMask} {m₁ : Machine} (h : m.Masks mask m₁) (q : QReg) {rn : Reg}
  (hrn : rn ≠ .pc) {offset : Nat} {values : Lane → UInt32}

include h hrn

theorem effect_vecLoad
    (hread : ∀ l : Lane, mask.get l = true →
      m₁.memory.read (laneAddress (m₁.reg rn + UInt32.ofNat offset) l) = .ok (values l)) :
    Effect mulAdd (.vecMem .load q rn offset .offset) m
      (m₁.setVector q (Vector.ofFn fun l => if mask.get l then values l else 0)) := by
  refine effect_of_masks h rfl fun pc next => ?_
  simp only [execute, bind, EStateM.bind, get, getThe, MonadStateOf.get, EStateM.get, indexed,
    displaced_ofNat, read_of_ne_pc hrn, loadLanes_eq q hread]
  rfl

theorem effect_vecLoad_post
    (hread : ∀ l : Lane, mask.get l = true →
      m₁.memory.read (laneAddress (m₁.reg rn) l) = .ok (values l)) :
    Effect mulAdd (.vecMem .load q rn offset .postIndex) m
      ((m₁.setVector q (Vector.ofFn fun l => if mask.get l then values l else 0)).setReg rn
        (m₁.reg rn + UInt32.ofNat offset)) := by
  refine effect_of_masks h rfl fun pc next => ?_
  simp only [execute, bind, EStateM.bind, get, getThe, MonadStateOf.get, EStateM.get, indexed,
    displaced_ofNat, read_of_ne_pc hrn, loadLanes_eq q hread]
  rfl

theorem fails_vecLoad_post (mulAdd : MulAdd) {k : Lane} (hk : mask.get k = true)
    (hbefore : ∀ l < k, mask.get l = true → m₁.memory.Readable (laneAddress (m₁.reg rn) l))
    {error : MemoryError} (herror : m₁.memory.read (laneAddress (m₁.reg rn) k) = .error error) :
    Fails mulAdd (.vecMem .load q rn offset .postIndex) m (.error (.memory error)) := by
  intro pc next
  obtain ⟨stopped, hload⟩ := loadLanes_eq_error q hk hbefore herror
  refine ⟨stopped, ?_⟩
  rw [bind_of_ok (h _ pc rfl)]
  simp only [execute, bind, EStateM.bind, get, getThe, MonadStateOf.get, EStateM.get, indexed,
    read_of_ne_pc hrn, hload]

theorem effect_vecStore (mulAdd : MulAdd)
    (hwritable : ∀ l : Lane, mask.get l = true →
      m₁.memory.Writable (laneAddress (m₁.reg rn + UInt32.ofNat offset) l)) :
    ∃ memory, Effect mulAdd (.vecMem .store q rn offset .offset) m { m₁ with memory } ∧
      Memory.Writes
        (fun a => ∃ l : Lane, mask.get l = true ∧
          a = laneAddress (m₁.reg rn + UInt32.ofNat offset) l) m₁.memory memory ∧
      ∀ l : Lane, mask.get l = true →
        memory.read (laneAddress (m₁.reg rn + UInt32.ofNat offset) l) = .ok (m₁.lane q l) := by
  obtain ⟨memory, hrun, hwrites, hread⟩ := storeLanes_eq q hwritable
  refine ⟨memory, effect_of_masks h rfl fun pc next => ?_, hwrites, hread⟩
  simp only [execute, bind, EStateM.bind, get, getThe, MonadStateOf.get, EStateM.get, indexed,
    displaced_ofNat, read_of_ne_pc hrn, hrun]
  rfl

theorem effect_vecStore_post (mulAdd : MulAdd)
    (hwritable : ∀ l : Lane, mask.get l = true →
      m₁.memory.Writable (laneAddress (m₁.reg rn) l)) :
    ∃ memory,
      Effect mulAdd (.vecMem .store q rn offset .postIndex) m
        ({ m₁ with memory }.setReg rn (m₁.reg rn + UInt32.ofNat offset)) ∧
      Memory.Writes
        (fun a => ∃ l : Lane, mask.get l = true ∧ a = laneAddress (m₁.reg rn) l) m₁.memory memory ∧
      ∀ l : Lane, mask.get l = true →
        memory.read (laneAddress (m₁.reg rn) l) = .ok (m₁.lane q l) := by
  obtain ⟨memory, hrun, hwrites, hread⟩ := storeLanes_eq q hwritable
  refine ⟨memory, effect_of_masks h rfl fun pc next => ?_, hwrites, hread⟩
  simp only [execute, bind, EStateM.bind, get, getThe, MonadStateOf.get, EStateM.get, indexed,
    displaced_ofNat, read_of_ne_pc hrn, hrun]
  rfl

end Vectors

theorem setLane_lane (m : Machine) (q : QReg) (l : Lane) : m.setLane q l (m.lane q l) = m := by
  simp only [setLane, setSingle, lane, single, Fin.getElem_fin, Vector.set_getElem_self]

/-- Replacing lanes by values that depend on their own lane alone. -/
theorem mapLanes_eq (mask : LaneMask) (q : QReg) {value : Machine → Lane → UInt32}
    (hvalue : ∀ (m₁ : Machine) (l : Lane), (∀ p, m₁.lane p l = m.lane p l) →
      value m₁ l = value m l) :
    m.mapLanes mask q value =
      m.setVector q (Vector.ofFn fun l => if mask.get l then value m l else m.lane q l) := by
  -- one lane, from any state in which it is as at the start
  have hone : ∀ (l : Lane) (m₁ : Machine), (∀ p, m₁.lane p l = m.lane p l) →
      (if mask.get l then m₁.setLane q l (value m₁ l) else m₁) =
        m₁.setLane q l (if mask.get l then value m l else m.lane q l) := by
    intro l m₁ hlanes
    split
    · rw [hvalue m₁ l hlanes]
    · rw [← hlanes q, setLane_lane]
  have hother : ∀ {k l : Lane} (m₁ : Machine) (v : UInt32), k ≠ l →
      (∀ p, m₁.lane p l = m.lane p l) → ∀ p, (m₁.setLane q k v).lane p l = m.lane p l :=
    fun m₁ v hkl hm₁ p => (lane_setLane_of_lane_ne m₁ v hkl).trans (hm₁ p)
  rw [setVector_eq]
  simp only [mapLanes, Lane.all, List.foldl_cons, List.foldl_nil, Vector.getElem_ofFn]
  rw [hone 0 _ fun _ => rfl, hone 1 _ (hother _ _ (by decide) fun _ => rfl),
    hone 2 _ (hother _ _ (by decide) (hother _ _ (by decide) fun _ => rfl)),
    hone 3 _ (hother _ _ (by decide) (hother _ _ (by decide)
      (hother _ _ (by decide) fun _ => rfl)))]
  rfl

theorem effect_vfmaScalar {mask : LaneMask} {m₁ : Machine} (h : m.Masks mask m₁) (qda qn : QReg)
    {rm : Reg} (hrm : rm ≠ .pc) :
    Effect mulAdd (.vfmaScalar qda qn rm) m
      (m₁.setVector qda (Vector.ofFn fun l =>
        if mask.get l then mulAdd (m₁.lane qn l) (m₁.reg rm) (m₁.lane qda l)
        else m₁.lane qda l)) := by
  refine effect_of_masks h rfl fun pc next => ?_
  have hmap : m₁.mapLanes mask qda
      (fun m₂ l => mulAdd (m₂.lane qn l) (m₁.reg rm) (m₂.lane qda l)) = _ :=
    mapLanes_eq mask qda fun m₂ l hlanes => by rw [hlanes, hlanes]
  rw [← hmap, ← read_of_ne_pc hrm pc]
  rfl

theorem effect_vfmaVector {mask : LaneMask} {m₁ : Machine} (h : m.Masks mask m₁)
    (qd qn qm : QReg) :
    Effect mulAdd (.vfmaVector qd qn qm) m
      (m₁.setVector qd (Vector.ofFn fun l =>
        if mask.get l then mulAdd (m₁.lane qn l) (m₁.lane qm l) (m₁.lane qd l)
        else m₁.lane qd l)) := by
  refine effect_of_masks h rfl fun pc next => ?_
  have hmap : m₁.mapLanes mask qd
      (fun m₂ l => mulAdd (m₂.lane qn l) (m₂.lane qm l) (m₂.lane qd l)) = _ :=
    mapLanes_eq mask qd fun m₂ l hlanes => by rw [hlanes, hlanes, hlanes]
  rw [← hmap]
  rfl

theorem effect_vmovImm {mask : LaneMask} {m₁ : Machine} (h : m.Masks mask m₁) (qd : QReg)
    (value : UInt32) :
    Effect mulAdd (.vmovImm qd value) m
      (m₁.setVector qd (Vector.ofFn fun l => if mask.get l then value else m₁.lane qd l)) := by
  refine effect_of_masks h rfl fun pc next => ?_
  have hmap : m₁.mapLanes mask qd (fun _ _ => value) = _ :=
    mapLanes_eq mask qd fun _ _ _ => rfl
  rw [← hmap]
  rfl

end Machine

end HeliumKernels
