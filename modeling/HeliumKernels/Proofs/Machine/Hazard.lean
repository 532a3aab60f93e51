/-
  HeliumKernels.Proofs.Machine.Hazard

  Where execution leaves its ranges.  Most instructions either take effect or
  stop with an error of the machine; what can end in a trap instead is a stack
  access whose addresses leave the address space or whose registers leave the
  register file, code at the very end of the address space, and the refusal of
  an instruction that has no text.  `Hazard` lists these cases, and a call ends
  in a trap exactly if it comes to one of them.
-/
import HeliumKernels.Binary32.Fused
import HeliumKernels.Proofs.Machine.Structured
import HeliumKernels.Proofs.Operation.Listing

namespace HeliumKernels

namespace Machine

open Run

/-! ## Traps -/

/-- A computation ends in a trap. -/
def Traps {α : Type} (x : Run α) (m : Machine) : Prop :=
  ∃ cause stopped, x m = .error (.trap cause) stopped

section Traps

variable {α β : Type} {x : Run α} {f : α → Run β} {m m₁ : Machine} {a : α}

theorem not_traps_of_ok (h : x m = .ok a m₁) : ¬Traps x m := by
  rintro ⟨cause, stopped, htrap⟩
  cases h.symm.trans htrap

theorem not_traps_of_error {cause : MachineError} (h : x m = .error (.error cause) m₁) :
    ¬Traps x m := by
  rintro ⟨cause, stopped, htrap⟩
  cases h.symm.trans htrap

theorem traps_bind_of_ok (h : x m = .ok a m₁) : Traps (x >>= f) m ↔ Traps (f a) m₁ := by
  unfold Traps
  rw [bind_of_ok h]

theorem traps_bind_of_traps (h : Traps x m) : Traps (x >>= f) m := by
  obtain ⟨cause, stopped, htrap⟩ := h
  exact ⟨cause, stopped, bind_of_error htrap⟩

theorem traps_get_bind_iff {f : Machine → Run β} : Traps (get >>= f) m ↔ Traps (f m) m :=
  traps_bind_of_ok rfl

theorem traps_modify_bind_iff {g : Machine → Machine} {f : Unit → Run β} :
    Traps (modify g >>= f) m ↔ Traps (f ()) (g m) :=
  traps_bind_of_ok rfl

/-- A sequence traps in its first part or, behind it, in its second. -/
theorem traps_bind_iff :
    Traps (x >>= f) m ↔ Traps x m ∨ ∃ a m₁, x m = .ok a m₁ ∧ Traps (f a) m₁ := by
  cases hx : x m with
  | ok a m₁ =>
    rw [traps_bind_of_ok hx, or_iff_right (not_traps_of_ok hx)]
    constructor
    · intro hf
      exact ⟨a, m₁, rfl, hf⟩
    · rintro ⟨a', m₁', heq, hf⟩
      cases heq
      exact hf
  | error halt m₁ =>
    unfold Traps
    rw [bind_of_error hx, hx]
    simp

end Traps

/-! ## Computations without traps -/

/-- A computation that never ends in a trap. -/
def Trapless {α : Type} (x : Run α) : Prop :=
  ∀ m, ¬Traps x m

namespace Trapless

variable {α β : Type} {x : Run α}

/-- What is put together without traps does not end in one. -/
theorem of_composed (h : Composed false x) : Trapless x := by
  induction h with
  | pure | modified => exact fun _ => not_traps_of_ok rfl
  | fail => exact fun _ => not_traps_of_error rfl
  | trap _ h => cases h
  | bind _ _ ihx ihf =>
    intro m htraps
    rcases traps_bind_iff.mp htraps with hfirst | ⟨a, m₁, -, hsecond⟩
    · exact ihx m hfirst
    · exact ihf a m₁ hsecond
  | get_bind _ _ ihf => exact fun m htraps => ihf m m (traps_get_bind_iff.mp htraps)
  | load =>
    rintro m ⟨cause, stopped, htrap⟩
    unfold load at htrap
    split at htrap <;> cases htrap
  | store =>
    rintro m ⟨cause, stopped, htrap⟩
    unfold store at htrap
    split at htrap <;> cases htrap

theorem pure (a : α) : Trapless (Pure.pure a : Run α) := of_composed (.pure a)

theorem fail (cause : MachineError) : Trapless (Run.fail cause : Run α) := of_composed (.fail cause)

/-- What cannot trap adds nothing to the traps of what comes before. -/
theorem traps_bind_iff {f : α → Run β} (hf : ∀ a, Trapless (f a)) {m : Machine} :
    Traps (x >>= f) m ↔ Traps x m := by
  rw [Machine.traps_bind_iff, or_iff_left]
  rintro ⟨a, m₁, -, htraps⟩
  exact hf a m₁ htraps

end Trapless

/-! ## Ranges -/

section Ranges

variable {m : Machine} {address distance : UInt32}

theorem traps_advance_iff :
    Traps (advance address distance) m ↔ 2 ^ 32 ≤ address.toNat + distance.toNat := by
  have haddress := address.toNat_lt
  have hdistance := distance.toNat_lt
  by_cases hroom : address.toNat + distance.toNat < 2 ^ 32
  · have hok := advance_eq (m := m) rfl hroom
    exact iff_of_false (not_traps_of_ok hok) (by omega)
  · have hlt : address + distance < address := by
      rw [UInt32.lt_iff_toNat_lt, UInt32.toNat_add]
      omega
    exact iff_of_true ⟨.overflow, m, by simp only [advance, hlt, ↓reduceIte]; rfl⟩ (by omega)

/-- Going on behind an address traps at the end of the address space, and otherwise where
    what follows does. -/
theorem traps_advance_bind_iff {α : Type} {f : UInt32 → Run α} :
    Traps (advance address distance >>= f) m ↔
      2 ^ 32 ≤ address.toNat + distance.toNat ∨
        (address.toNat + distance.toNat < 2 ^ 32 ∧ Traps (f (address + distance)) m) := by
  by_cases hroom : address.toNat + distance.toNat < 2 ^ 32
  · rw [traps_bind_of_ok (advance_eq rfl hroom), or_iff_right (by omega), and_iff_right hroom]
  · have htraps : Traps (advance address distance) m := traps_advance_iff.mpr (by omega)
    exact iff_of_true (traps_bind_of_traps htraps) (Or.inl (by omega))

theorem traps_load_bind_iff {α : Type} {f : UInt32 → Run α} :
    Traps (load address >>= f) m ↔ ∃ value, m.memory.read address = .ok value ∧
      Traps (f value) m := by
  cases hread : m.memory.read address with
  | ok value =>
    rw [traps_bind_of_ok (show load address m = .ok value m by simp only [load, hread])]
    simp
  | error e =>
    refine iff_of_false ?_ (by simp)
    rintro ⟨cause, stopped, htrap⟩
    simp only [bind, EStateM.bind, load, hread] at htrap
    cases htrap

theorem traps_store_bind_iff {α : Type} {f : Unit → Run α} {value : UInt32} :
    Traps (store address value >>= f) m ↔
      m.memory.Writable address ∧ Traps (f ()) (m.putWord address value) := by
  cases hwrite : m.memory.writeError? address with
  | none =>
    rw [traps_bind_of_ok (show store address value m = .ok () (m.putWord address value) by
      simp only [store, hwrite])]
    exact (and_iff_right hwrite).symm
  | some e =>
    refine iff_of_false ?_ ?_
    · rintro ⟨cause, stopped, htrap⟩
      simp only [bind, EStateM.bind, store, hwrite] at htrap
      cases htrap
    · rintro ⟨hwritable, -⟩
      cases hwrite.symm.trans hwritable

theorem traps_branchTarget_iff {pc : UInt32} {offset : Int} :
    Traps (branchTarget pc offset) m ↔ 2 ^ 32 ≤ pc.toNat + 4 := by
  unfold branchTarget
  rw [traps_advance_bind_iff]
  exact or_iff_left fun h => Trapless.pure _ m h.2

/-- Making room on the stack traps if there is less below the stack pointer. -/
theorem traps_checked_sub_bind_iff {α : Type} {f : Nat → Run α} {a b : Nat} :
    Traps (checked (Checked.sub a b) >>= f) m ↔ a < b ∨ (b ≤ a ∧ Traps (f (a - b)) m) := by
  by_cases hle : b ≤ a
  · have hok : checked (Checked.sub a b) m = .ok (a - b) m := by
      rw [Checked.sub, if_pos hle]
      rfl
    rw [traps_bind_of_ok hok, or_iff_right (by omega), and_iff_right hle]
  · have htraps : Traps (checked (Checked.sub a b)) m :=
      ⟨.overflow, m, by rw [Checked.sub, if_neg hle]; rfl⟩
    exact iff_of_true (traps_bind_of_traps htraps) (Or.inl (by omega))

end Ranges

/-! ## Scalar registers on the stack -/

/-- A register can be loaded from an address: the word there can be read and, if it is the
    program counter that is loaded, keeps the Thumb state. -/
def Loadable (memory : Memory) (r : Reg) (address : UInt32) : Prop :=
  ∃ value, memory.read address = .ok value ∧ (r = .pc → value % 2 ≠ 0)

section Scalars

variable {m : Machine} {r : Reg} {regs : List Reg} {address next : UInt32}

theorem toNat_mod_four_of_read {memory : Memory} {value : UInt32}
    (h : memory.read address = .ok value) : address.toNat % 4 = 0 := by
  have haligned := congrArg UInt32.toNat (Memory.read_eq_ok.mp h).1
  rwa [UInt32.toNat_mod] at haligned

/-- Storing registers below an address stays in the address space. -/
theorem not_traps_storeRegs (hroom : address.toNat + 4 * regs.length < 2 ^ 32) (pc : UInt32) :
    ¬Traps (storeRegs pc regs address) m := by
  induction regs generalizing address m with
  | nil => exact Trapless.pure _ m
  | cons r regs ih =>
    rw [List.length_cons] at hroom
    intro htraps
    rw [storeRegs, traps_get_bind_iff] at htraps
    -- a store may fail, but it does not trap; behind it there is room
    rcases traps_bind_iff.mp htraps with hstore | ⟨-, m₁, -, hrest⟩
    · exact Trapless.of_composed (.store _ _) m hstore
    · rw [traps_bind_of_ok (advance_four (by omega))] at hrest
      exact ih (by rw [toNat_add_four (by omega)]; omega) hrest

/-- A register that can be loaded is, and the others follow in a state with the same memory. -/
theorem exists_loadRegs_cons (h : Loadable m.memory r address) (regs : List Reg) (next : UInt32) :
    ∃ next₁ m₁, m₁.memory = m.memory ∧
      loadRegs (r :: regs) address next m =
        (advance address 4 >>= fun behind => loadRegs regs behind next₁) m₁ := by
  obtain ⟨value, hread, hodd⟩ := h
  by_cases hr : r = .pc
  · refine ⟨value - 1, m, rfl, ?_⟩
    simp only [loadRegs, bind, EStateM.bind, load, hread, hr, ↓reduceIte, exchange, hodd hr]
    rfl
  · refine ⟨next, m.setReg r value, rfl, ?_⟩
    simp only [loadRegs, bind, EStateM.bind, load, hread, hr, ↓reduceIte]
    rfl

/-- A register that cannot be loaded stops the run with an error. -/
theorem not_traps_loadRegs_cons (h : ¬Loadable m.memory r address) :
    ¬Traps (loadRegs (r :: regs) address next) m := by
  rintro ⟨cause, stopped, htrap⟩
  cases hread : m.memory.read address with
  | error e =>
    simp only [loadRegs, bind, EStateM.bind, load, hread] at htrap
    cases htrap
  | ok value =>
    obtain ⟨rfl, heven⟩ : r = .pc ∧ value % 2 = 0 := by
      by_contra hnot
      exact h ⟨value, hread, fun hr heven => hnot ⟨hr, heven⟩⟩
    simp only [loadRegs, bind, EStateM.bind, load, hread, ↓reduceIte, exchange, heven] at htrap
    cases htrap

theorem forall_loadable_cons {memory : Memory} {k : Nat} :
    (∀ i r', i < k + 1 → (r :: regs)[i]? = some r' →
      Loadable memory r' (wordAddress address i)) ↔
    Loadable memory r address ∧
      ∀ i r', i < k → regs[i]? = some r' → Loadable memory r' (wordAddress (address + 4) i) := by
  constructor
  · intro h
    have hfirst := h 0 r (Nat.zero_lt_succ k) rfl
    rw [wordAddress_zero] at hfirst
    refine ⟨hfirst, ?_⟩
    intro i r' hi hget
    rw [wordAddress_succ]
    exact h (i + 1) r' (Nat.succ_lt_succ hi) hget
  · rintro ⟨hfirst, hrest⟩ i r' hi hget
    cases i with
    | zero =>
      obtain rfl := Option.some.inj hget
      rwa [wordAddress_zero]
    | succ i =>
      rw [← wordAddress_succ]
      exact hrest i r' (Nat.lt_of_succ_lt_succ hi) hget

/-- Loading registers traps if it comes to the end of the address space. -/
theorem traps_loadRegs_iff :
    Traps (loadRegs regs address next) m ↔
      ∃ k ≤ regs.length, address.toNat + 4 * k = 2 ^ 32 ∧
        ∀ i r, i < k → regs[i]? = some r → Loadable m.memory r (wordAddress address i) := by
  induction regs generalizing address next m with
  | nil =>
    refine iff_of_false (Trapless.pure _ m) ?_
    rintro ⟨k, hk, htop, -⟩
    have := address.toNat_lt
    rw [List.length_nil] at hk
    omega
  | cons r regs ih =>
    have hlt := address.toNat_lt
    -- a register that cannot be loaded ends the access with an error, so no later one is reached
    by_cases hr : Loadable m.memory r address
    · obtain ⟨value, hread, -⟩ := id hr
      have haligned := toNat_mod_four_of_read hread
      obtain ⟨next₁, m₁, hmemory, heq⟩ := exists_loadRegs_cons hr regs next
      have hsame : Traps (loadRegs (r :: regs) address next) m ↔
          Traps (advance address 4 >>= fun behind => loadRegs regs behind next₁) m₁ := by
        unfold Traps
        rw [heq]
      rw [hsame, traps_advance_bind_iff, ih, hmemory]
      simp only [UInt32.reduceToNat]
      constructor
      · rintro (hend | ⟨hroom, k, hk, htop, hrest⟩)
        · -- an aligned word that ends there is the last one
          exact ⟨1, by simp, by omega, forall_loadable_cons.mpr ⟨hr, by simp⟩⟩
        · rw [toNat_add_four hroom] at htop
          exact ⟨k + 1, Nat.succ_le_succ hk, by omega, forall_loadable_cons.mpr ⟨hr, hrest⟩⟩
      · rintro ⟨k, hk, htop, hloadable⟩
        obtain ⟨k, rfl⟩ : ∃ k', k = k' + 1 := Nat.exists_eq_succ_of_ne_zero (by omega)
        obtain ⟨-, hrest⟩ := forall_loadable_cons.mp hloadable
        by_cases hroom : address.toNat + 4 < 2 ^ 32
        · refine Or.inr ⟨hroom, k, Nat.le_of_succ_le_succ hk, ?_, hrest⟩
          rw [toNat_add_four hroom]
          omega
        · exact Or.inl (by omega)
    · refine iff_of_false (not_traps_loadRegs_cons hr) ?_
      rintro ⟨k, -, htop, hloadable⟩
      obtain ⟨k, rfl⟩ : ∃ k', k = k' + 1 := Nat.exists_eq_succ_of_ne_zero (by omega)
      exact hr (forall_loadable_cons.mp hloadable).1

end Scalars

/-! ## Double registers on the stack -/

section Doubles

variable {m : Machine} {count d : Nat} {address : UInt32}

theorem traps_doubleHalf_bind {α : Type} {f : SReg → Run α} {half : Nat}
    (h : 32 ≤ 2 * d + half) : Traps (doubleHalf d half >>= f) m := by
  refine traps_bind_of_traps ⟨.outOfBounds, m, ?_⟩
  rw [doubleHalf, SReg.ofNum?, dif_neg (by omega)]
  rfl

theorem traps_doubleHalf_bind_iff {α : Type} {f : SReg → Run α} {half : Nat}
    (h : 2 * d + half < 32) :
    Traps (doubleHalf d half >>= f) m ↔ Traps (f (SReg.ofField (2 * d + half))) m :=
  traps_bind_of_ok (doubleHalf_eq h)

theorem writable_putWord (m : Machine) (a value b : UInt32) :
    (m.putWord a value).memory.Writable b ↔ m.memory.Writable b := by
  rw [Memory.writable_iff, Memory.writable_iff]
  show _ ∧ Memory.permission b (Memory.put a value m.memory.regions) = _ ↔ _
  rw [Memory.permission_put]

/-- What holds of two words and of those behind them holds of all. -/
theorem forall_words_add_two {P : UInt32 → Prop} {k : Nat} :
    (∀ i < k + 2, P (wordAddress address i)) ↔
      P address ∧ P (address + 4) ∧ ∀ i < k, P (wordAddress (address + 8) i) := by
  rw [Nat.forall_lt_succ_left, Nat.forall_lt_succ_left, wordAddress_zero]
  simp only [wordAddress_succ_succ]
  rfl

/-- Storing double registers below an address traps at the end of the register file. -/
theorem traps_storeDoubles_iff (hroom : address.toNat + 8 * count < 2 ^ 32) :
    Traps (storeDoubles count d address) m ↔
      ∃ j < count, 16 ≤ d + j ∧ ∀ i < 2 * j, m.memory.Writable (wordAddress address i) := by
  induction count generalizing d address m with
  | zero => exact iff_of_false (Trapless.pure _ m) (by simp)
  | succ count ih =>
    by_cases hd : d < 16
    · have hroom' : (address + 8).toNat + 8 * count < 2 ^ 32 := by
        rw [toNat_add_eight (by omega)]
        omega
      rw [storeDoubles, traps_doubleHalf_bind_iff (by omega), traps_doubleHalf_bind_iff (by omega),
        traps_get_bind_iff, traps_store_bind_iff, traps_bind_of_ok (advance_four (by omega)),
        traps_get_bind_iff, traps_store_bind_iff, traps_bind_of_ok (advance_eight (by omega)),
        ih hroom']
      simp only [writable_putWord]
      constructor
      · rintro ⟨hlow, hhigh, j, hj, hlast, hrest⟩
        exact ⟨j + 1, by omega, by omega, forall_words_add_two.mpr ⟨hlow, hhigh, hrest⟩⟩
      · rintro ⟨j, hj, hlast, hwritable⟩
        -- this register is not the one behind the file
        obtain ⟨j, rfl⟩ : ∃ j', j = j' + 1 := Nat.exists_eq_succ_of_ne_zero (by omega)
        obtain ⟨hlow, hhigh, hrest⟩ := forall_words_add_two.mp hwritable
        exact ⟨hlow, hhigh, j, by omega, by omega, hrest⟩
    · refine iff_of_true ?_ ⟨0, Nat.zero_lt_succ _, by omega, by simp⟩
      rw [storeDoubles]
      exact traps_doubleHalf_bind (by omega)

/-- Loading double registers traps at the end of the register file or of the address space. -/
theorem traps_loadDoubles_iff :
    Traps (loadDoubles count d address) m ↔
      ∃ k, 0 < k ∧ k ≤ 2 * count ∧ (address.toNat + 4 * k = 2 ^ 32 ∨ 32 < 2 * d + k) ∧
        ∀ i < k, m.memory.Readable (wordAddress address i) := by
  induction count generalizing d address m with
  | zero =>
    refine iff_of_false (Trapless.pure _ m) ?_
    rintro ⟨k, hpos, hk, -⟩
    omega
  | succ count ih =>
    rw [loadDoubles, traps_load_bind_iff]
    -- each half is loaded before its register and the address behind it are looked at
    constructor
    · rintro ⟨value, hread, htraps⟩
      have haligned := toNat_mod_four_of_read hread
      have hlt := address.toNat_lt
      -- one word, which shows that the first half was loaded at all
      have hone : ∀ i < 1, m.memory.Readable (wordAddress address i) := by
        intro i hi
        obtain rfl : i = 0 := by omega
        exact ⟨value, by rwa [wordAddress_zero]⟩
      by_cases hd : d < 16
      · rw [traps_doubleHalf_bind_iff (by omega), traps_modify_bind_iff, traps_advance_bind_iff,
          traps_load_bind_iff] at htraps
        rcases htraps with hend | ⟨hroom, value', hread', htraps⟩
        · simp only [UInt32.reduceToNat] at hend
          exact ⟨1, by omega, by omega, Or.inl (by omega), hone⟩
        · rw [traps_doubleHalf_bind_iff (by omega), traps_modify_bind_iff, traps_advance_bind_iff,
            ih] at htraps
          simp only [UInt32.reduceToNat] at htraps hroom
          have htwo : ∀ i < 2, m.memory.Readable (wordAddress address i) :=
            forall_words_add_two.mpr ⟨⟨value, hread⟩, ⟨value', hread'⟩, by simp⟩
          rcases htraps with hend | ⟨hroom', k, hpos, hk, hout, hreadable⟩
          · exact ⟨2, by omega, by omega, Or.inl (by omega), htwo⟩
          · rw [toNat_add_eight hroom'] at hout
            exact ⟨k + 2, by omega, by omega, by omega,
              forall_words_add_two.mpr ⟨⟨value, hread⟩, ⟨value', hread'⟩, hreadable⟩⟩
      · exact ⟨1, by omega, by omega, Or.inr (by omega), hone⟩
    · rintro ⟨k, hpos, hk, hout, hreadable⟩
      obtain ⟨value, hread⟩ := hreadable 0 hpos
      rw [wordAddress_zero] at hread
      refine ⟨value, hread, ?_⟩
      by_cases hd : d < 16
      · rw [traps_doubleHalf_bind_iff (by omega), traps_modify_bind_iff, traps_advance_bind_iff,
          traps_load_bind_iff]
        simp only [UInt32.reduceToNat]
        by_cases hroom : address.toNat + 4 < 2 ^ 32
        · -- one word is not yet the end, so that there are two
          obtain ⟨k, rfl⟩ : ∃ k', k = k' + 2 := Nat.exists_eq_add_of_le' (by omega)
          obtain ⟨-, ⟨value', hread'⟩, hrest⟩ := forall_words_add_two.mp hreadable
          refine Or.inr ⟨hroom, value', hread', ?_⟩
          rw [traps_doubleHalf_bind_iff (by omega), traps_modify_bind_iff, traps_advance_bind_iff,
            ih]
          simp only [UInt32.reduceToNat]
          by_cases hroom' : address.toNat + 8 < 2 ^ 32
          · refine Or.inr ⟨hroom', k, by omega, by omega, ?_, hrest⟩
            rw [toNat_add_eight hroom']
            omega
          · exact Or.inl (by omega)
        · exact Or.inl (by omega)
      · exact traps_doubleHalf_bind (by omega)

end Doubles

/-! ## Instructions -/

/-- The operation takes its branch. -/
def Branches (m : Machine) (pc : UInt32) : Operation → Prop
  | .branch cond _ => m.flags.holds cond = true
  | .loopStart rn tail exit =>
    (tail = none ∨ tail = some .b32) ∧ exit.isSome = true ∧ m.read pc rn = 0
  | .loopEnd _ tail => (if tail then 4 else 1 : UInt32) < m.reg .lr
  | _ => False

/-- The stack access of the operation leaves the address space or the register file, with
    no error of the memory before it does. -/
def Overruns (m : Machine) : Operation → Prop
  | .push regs => (m.reg .sp).toNat < 4 * regs.size
  | .pop regs => ∃ k ≤ regs.size, (m.reg .sp).toNat + 4 * k = 2 ^ 32 ∧
      ∀ i r, i < k → regs.toList[i]? = some r → Loadable m.memory r (wordAddress (m.reg .sp) i)
  | .vpush first count => (m.reg .sp).toNat < 8 * count ∨
      ∃ j < count, 16 ≤ first + j ∧ ∀ i < 2 * j,
        m.memory.Writable (wordAddress (UInt32.ofNat ((m.reg .sp).toNat - 8 * count)) i)
  | .vpop first count => ∃ k, 0 < k ∧ k ≤ 2 * count ∧
      ((m.reg .sp).toNat + 4 * k = 2 ^ 32 ∨ 32 < 2 * first + k) ∧
      ∀ i < k, m.memory.Readable (wordAddress (m.reg .sp) i)
  | _ => False

section Execute

variable {mulAdd : MulAdd} {pc next : UInt32} {mask : LaneMask} {m : Machine}

theorem traps_push_iff {regs : RegSet} :
    Traps (execute mulAdd pc next mask (.push regs)) m ↔ m.Overruns (.push regs) := by
  rw [execute, traps_get_bind_iff, traps_checked_sub_bind_iff]
  -- once there is room below the stack pointer the addresses stay below it
  apply or_iff_left
  rintro ⟨hle, htraps⟩
  have := (m.reg .sp).toNat_lt
  rw [writeReg, traps_modify_bind_iff, Trapless.traps_bind_iff fun _ => Trapless.pure _] at htraps
  refine not_traps_storeRegs ?_ pc htraps
  show _ + 4 * regs.size < _
  rw [UInt32.toNat_ofNat']
  omega

theorem traps_pop_iff {regs : RegSet} :
    Traps (execute mulAdd pc next mask (.pop regs)) m ↔ m.Overruns (.pop regs) := by
  rw [execute, traps_get_bind_iff, Trapless.traps_bind_iff, traps_loadRegs_iff]
  · rfl
  · rintro ⟨address, next⟩
    exact .of_composed (.bind (.writeReg _ _) fun _ => .pure _)

theorem traps_vpush_iff {first count : Nat} :
    Traps (execute mulAdd pc next mask (.vpush first count)) m ↔
      m.Overruns (.vpush first count) := by
  rw [execute, traps_get_bind_iff, traps_checked_sub_bind_iff]
  -- once there is room only the register file can end
  apply or_congr_right'
  intro hle
  have := (m.reg .sp).toNat_lt
  rw [and_iff_right (by omega), writeReg, traps_modify_bind_iff,
    Trapless.traps_bind_iff fun _ => Trapless.pure _, traps_storeDoubles_iff]
  · rfl
  · rw [UInt32.toNat_ofNat']
    omega

theorem traps_vpop_iff {first count : Nat} :
    Traps (execute mulAdd pc next mask (.vpop first count)) m ↔
      m.Overruns (.vpop first count) := by
  rw [execute, traps_get_bind_iff, Trapless.traps_bind_iff, traps_loadDoubles_iff]
  · rfl
  · intro address
    exact .of_composed (.bind (.writeReg _ _) fun _ => .pure _)

theorem traps_branch_iff {cond : Condition} {offset : Int} :
    Traps (execute mulAdd pc next mask (.branch cond offset)) m ↔
      m.Branches pc (.branch cond offset) ∧ 2 ^ 32 ≤ pc.toNat + 4 := by
  rw [execute, traps_get_bind_iff]
  by_cases hcond : m.flags.holds cond = true
  · rw [if_pos hcond, traps_branchTarget_iff, Branches, and_iff_right hcond]
  · rw [if_neg hcond]
    exact iff_of_false (Trapless.pure _ m) fun h => hcond h.1

theorem traps_loopEnd_iff {back : Int} {tail : Bool} :
    Traps (execute mulAdd pc next mask (.loopEnd back tail)) m ↔
      m.Branches pc (.loopEnd back tail) ∧ 2 ^ 32 ≤ pc.toNat + 4 := by
  rw [execute, traps_get_bind_iff]
  by_cases hmore : (if tail then 4 else 1 : UInt32) < m.reg .lr
  · rw [if_pos hmore, writeReg, traps_modify_bind_iff, traps_branchTarget_iff, Branches,
      and_iff_right hmore]
  · rw [if_neg hmore]
    refine iff_of_false ?_ fun h => hmore h.1
    exact Trapless.of_composed
      (.ite (.bind (.modified fun _ _ _ => rfl) fun _ => .pure _) (.pure _)) m

/-- Starting a loop, or leaving it for its exit when the count is zero. -/
theorem traps_startLoop_iff (pc next : UInt32) (rn : Reg) (tail : Option LaneSize)
    (exit : Option Int) (m : Machine) :
    Traps (get >>= fun m : Machine =>
      match exit, m.read pc rn == 0 with
      | some exit, true => branchTarget pc exit
      | _, _ => do
        writeReg .lr (m.read pc rn)
        modify fun m => { m with tailPredicated := tail.isSome }
        return next) m ↔
      (exit.isSome = true ∧ m.read pc rn = 0) ∧ 2 ^ 32 ≤ pc.toNat + 4 := by
  rw [traps_get_bind_iff]
  split
  · next offset hcount =>
    rw [traps_branchTarget_iff, and_iff_right ⟨rfl, eq_of_beq hcount⟩]
  · next hnot =>
    refine iff_of_false (Trapless.of_composed (.bind (.writeReg _ _) fun _ =>
      .bind (.modified fun _ _ _ => rfl) fun _ => .pure _) m) ?_
    rintro ⟨⟨hexit, hcount⟩, -⟩
    obtain ⟨offset, hoffset⟩ := Option.isSome_iff_exists.mp hexit
    exact hnot offset hoffset (beq_iff_eq.mpr hcount)

theorem traps_loopStart_iff {rn : Reg} {tail : Option LaneSize} {exit : Option Int} :
    Traps (execute mulAdd pc next mask (.loopStart rn tail exit)) m ↔
      m.Branches pc (.loopStart rn tail exit) ∧ 2 ^ 32 ≤ pc.toNat + 4 := by
  have hrest := traps_startLoop_iff pc next rn tail exit m
  cases tail with
  | none => exact hrest.trans (by simp [Branches])
  | some size =>
    by_cases hsize : size = .b32
    · subst hsize
      exact hrest.trans (by simp [Branches])
    · refine iff_of_false ?_ fun h => hsize (by simpa [Branches] using h.1.1)
      rintro ⟨cause, stopped, htrap⟩
      simp only [execute, bind, EStateM.bind, requireWords, hsize, ↓reduceIte, fail] at htrap
      cases htrap

/-- All other operations take effect or stop with an error of the machine. -/
theorem Trapless.execute {op : Operation} (hstack : op.usesStack = false)
    (hbranch : op.branchOffset? = none) : Trapless (Machine.execute mulAdd pc next mask op) :=
  .of_composed (.execute (fun _ => ⟨hstack, hbranch⟩) ..)

/-- An operation traps if it branches at the end of the address space or if its stack access
    overruns. -/
theorem traps_execute_iff {op : Operation} :
    Traps (execute mulAdd pc next mask op) m ↔
      (m.Branches pc op ∧ 2 ^ 32 ≤ pc.toNat + 4) ∨ m.Overruns op := by
  cases op with
  | branch => exact traps_branch_iff.trans (or_iff_left id).symm
  | loopStart => exact traps_loopStart_iff.trans (or_iff_left id).symm
  | loopEnd => exact traps_loopEnd_iff.trans (or_iff_left id).symm
  | push => exact traps_push_iff.trans (or_iff_right And.left).symm
  | pop => exact traps_pop_iff.trans (or_iff_right And.left).symm
  | vpush => exact traps_vpush_iff.trans (or_iff_right And.left).symm
  | vpop => exact traps_vpop_iff.trans (or_iff_right And.left).symm
  | _ => exact iff_of_false (Trapless.execute rfl rfl m) (Or.rec And.left id)

end Execute

/-! ## Predication -/

section Predication

variable {op : Operation} {pc : UInt32} {m : Machine}

/-- Outside a block, and in a block a vector operation, is let through.  Only a block
    changes the state. -/
theorem exists_laneMask (h : m.vptRemaining = 0 ∨ op.isVector = true) (pc : UInt32) :
    ∃ mask m₁, laneMask op pc m = .ok mask m₁ ∧ (m.vptRemaining = 0 → m₁ = m) := by
  cases hblock : m.vptRemaining with
  | zero =>
    cases htail : m.tailPredicated with
    | false => exact ⟨_, m, laneMask_of_plain ⟨hblock, htail⟩ pc, fun _ => rfl⟩
    | true =>
      cases hvector : op.isVector with
      | false => exact ⟨_, m, laneMask_of_scalar hblock hvector pc, fun _ => rfl⟩
      | true => exact ⟨_, m, laneMask_of_tail hblock htail hvector pc, fun _ => rfl⟩
  | succ count =>
    have hvector : op.isVector = true := h.resolve_left (by omega)
    cases htail : m.tailPredicated with
    | false => exact ⟨_, _, laneMask_of_block hblock htail hvector pc, nofun⟩
    | true => exact ⟨_, _, laneMask_of_block_tail hblock htail hvector pc, nofun⟩

/-- In a block any other operation is refused, which traps if it has no text. -/
theorem traps_laneMask_bind_iff {α : Type} {f : LaneMask → Run α} (hblock : 0 < m.vptRemaining)
    (hop : op.isVector = false) :
    Traps (laneMask op pc >>= f) m ↔ op = .vpush 0 0 ∨ op = .vpop 0 0 := by
  have hne : m.vptRemaining ≠ 0 := hblock.ne'
  cases htext : op.text with
  | ok text =>
    refine iff_of_false ?_ fun h => ?_
    · rintro ⟨cause, stopped, htrap⟩
      simp [laneMask, bind, EStateM.bind, get, getThe, MonadStateOf.get, EStateM.get, hne, hblock,
        hop, htext, checked, fail, pure, EStateM.pure, throw, throwThe, MonadExceptOf.throw,
        EStateM.throw] at htrap
    · have herror := Operation.text_eq_error_iff.mpr ⟨h, rfl⟩
      cases htext.symm.trans herror
  | error e =>
    refine iff_of_true ⟨e, m, ?_⟩ (Operation.text_eq_error_iff.mp htext).1
    simp [laneMask, bind, EStateM.bind, get, getThe, MonadStateOf.get, EStateM.get, hne, hblock,
      hop, htext, checked, throw, throwThe, MonadExceptOf.throw, EStateM.throw]

end Predication

/-! ## Steps and calls -/

/-- The ways in which the execution of an instruction at `pc` leaves its ranges. -/
inductive Hazard (pc : UInt32) (m : Machine) : Decoded → Prop where
  /-- An empty range of registers stands in a predication block and cannot be named in the
      error that refuses it. -/
  | refusal {op : Operation} {width : Width} (hblock : 0 < m.vptRemaining)
      (hop : op = .vpush 0 0 ∨ op = .vpop 0 0) : Hazard pc m ⟨op, width⟩
  /-- No address is behind the instruction. -/
  | behind {op : Operation} {width : Width} (hallowed : m.vptRemaining = 0 ∨ op.isVector = true)
      (hend : 2 ^ 32 ≤ pc.toNat + (byteWidth width).toNat) : Hazard pc m ⟨op, width⟩
  /-- There is none that a branch could start from. -/
  | target {op : Operation} {width : Width} (hblock : m.vptRemaining = 0)
      (hbranches : m.Branches pc op) (hend : 2 ^ 32 ≤ pc.toNat + 4) : Hazard pc m ⟨op, width⟩
  /-- A stack access leaves the address space or the register file. -/
  | stack {op : Operation} {width : Width} (hblock : m.vptRemaining = 0)
      (hoverruns : m.Overruns op) : Hazard pc m ⟨op, width⟩

section Hazard

variable {mulAdd : MulAdd} {program : Program} {op : Operation} {width : Width} {pc : UInt32}
  {m : Machine}

theorem Branches.isVector_eq (h : m.Branches pc op) : op.isVector = false := by
  cases op <;> first | rfl | exact h.elim

theorem Overruns.isVector_eq (h : m.Overruns op) : op.isVector = false := by
  cases op <;> first | rfl | exact h.elim

/-- An instruction that is let through. -/
theorem traps_allowed_iff (h : m.vptRemaining = 0 ∨ op.isVector = true) :
    Traps (laneMask op pc >>= fun mask => advance pc (byteWidth width) >>= fun next =>
      execute mulAdd pc next mask op) m ↔ Hazard pc m ⟨op, width⟩ := by
  obtain ⟨mask, m₁, hmask, hsame⟩ := exists_laneMask h pc
  rw [traps_bind_of_ok hmask, traps_advance_bind_iff, traps_execute_iff]
  -- what is not a vector operation stands outside a block, so that its state is `m`
  have houtside : op.isVector = false → m.vptRemaining = 0 := fun hop =>
    h.resolve_right (by rw [hop]; nofun)
  constructor
  · rintro (hend | ⟨-, ⟨hbranches, hend⟩ | hoverruns⟩)
    · exact .behind h hend
    · have hblock := houtside hbranches.isVector_eq
      rw [hsame hblock] at hbranches
      exact .target hblock hbranches hend
    · have hblock := houtside hoverruns.isVector_eq
      rw [hsame hblock] at hoverruns
      exact .stack hblock hoverruns
  · intro hhazard
    rw [or_iff_not_imp_left]
    intro hroom
    refine ⟨by omega, ?_⟩
    cases hhazard with
    | refusal hblock hop =>
      have hop : op.isVector = false := by rcases hop with rfl | rfl <;> rfl
      exact absurd (houtside hop) hblock.ne'
    | behind _ hend => exact absurd hend hroom
    | target hblock hbranches hend =>
      rw [hsame hblock]
      exact Or.inl ⟨hbranches, hend⟩
    | stack hblock hoverruns =>
      rw [hsame hblock]
      exact Or.inr hoverruns

/-- One that is not. -/
theorem traps_refused_iff {α : Type} {f : LaneMask → Run α}
    (h : ¬(m.vptRemaining = 0 ∨ op.isVector = true)) :
    Traps (laneMask op pc >>= f) m ↔ Hazard pc m ⟨op, width⟩ := by
  obtain ⟨hne, hop⟩ := not_or.mp h
  have hblock := Nat.pos_of_ne_zero hne
  rw [traps_laneMask_bind_iff hblock (Bool.eq_false_iff.mpr hop)]
  constructor
  · exact .refusal hblock
  · intro hhazard
    cases hhazard with
    | refusal _ hop => exact hop
    | behind hallowed _ => exact absurd hallowed h
    | target hblock _ _ => exact absurd hblock hne
    | stack hblock _ => exact absurd hblock hne

/-- A step traps at a hazard and nowhere else. -/
theorem traps_step_iff :
    Traps (step mulAdd program pc) m ↔
      ∃ decoded, fetch? program pc = some (.ok decoded) ∧ Hazard pc m decoded := by
  unfold step
  split
  · next hfetch => exact iff_of_false (Trapless.fail _ m) (by simp [hfetch])
  · next e hfetch => exact iff_of_false (Trapless.fail _ m) (by simp [hfetch])
  · next decoded hfetch =>
    have hone : Traps (laneMask decoded.op pc >>= fun mask =>
        advance pc (byteWidth decoded.width) >>= fun next =>
          execute mulAdd pc next mask decoded.op) m ↔ Hazard pc m decoded := by
      by_cases hallowed : m.vptRemaining = 0 ∨ decoded.op.isVector = true
      · exact traps_allowed_iff hallowed
      · exact traps_refused_iff hallowed
    rw [hone, hfetch]
    simp

/-- In code that ends before the address space does only stack operations are hazards. -/
theorem Hazard.usesStack {decoded : Decoded} (h : Hazard pc m decoded)
    (hroom : pc.toNat + 4 < 2 ^ 32) : decoded.op.usesStack = true := by
  cases h with
  | refusal _ hop => rcases hop with rfl | rfl <;> rfl
  | @behind op width _ hend =>
    have hwidth : (byteWidth width).toNat ≤ 4 := by cases width <;> decide
    omega
  | target _ _ hend => omega
  | @stack op _ _ hoverruns => cases op <;> first | rfl | exact hoverruns.elim

/-- A run traps if within its fuel it comes to a step that does. -/
theorem traps_runFrom_iff {fuel : Nat} :
    Traps (runFrom mulAdd program fuel pc) m ↔
      ∃ n pc' m', n < fuel ∧ Steps mulAdd program n pc m pc' m' ∧ pc' ≠ returnAddress ∧
        Traps (step mulAdd program pc') m' := by
  constructor
  · intro htraps
    induction fuel generalizing pc m with
    | zero =>
      rw [runFrom] at htraps
      split at htraps
      · exact absurd htraps (Trapless.pure _ m)
      · exact absurd (traps_get_bind_iff.mp htraps) (Trapless.fail _ m)
    | succ fuel ih =>
      rw [runFrom] at htraps
      split at htraps
      · exact absurd htraps (Trapless.pure _ m)
      · next hpc =>
        -- the first step traps, or a run with less fuel does behind it
        rcases traps_bind_iff.mp htraps with hnow | ⟨pc₁, m₁, hstep, hlater⟩
        · exact ⟨0, pc, m, Nat.zero_lt_succ _, .refl, hpc, hnow⟩
        · rw [traps_modify_bind_iff] at hlater
          obtain ⟨n, pc', m', hn, hsteps, hpc', htrap⟩ := ih hlater
          exact ⟨n + 1, pc', m', Nat.succ_lt_succ hn, .step hpc hstep hsteps, hpc', htrap⟩
  · rintro ⟨n, pc', m', hn, hsteps, hpc', cause, stopped, hstop⟩
    exact ⟨cause, stopped, hsteps.runFrom_eq_error_of_step hpc' hstop hn⟩

theorem stepLimit_enter (args : List UInt32) (m : Machine) :
    (enter args m).stepLimit = m.stepLimit := by
  have hsame : enter args m = (enter args m).withLimit m.stepLimit :=
    enter_withLimit args m m.stepLimit
  rw [hsame]
  rfl

theorem traps_call_iff {code : Array UInt16} {args : List UInt32} :
    Traps (call mulAdd code args) m ↔
      ∃ n pc m', n < m.stepLimit ∧
        Steps mulAdd (Program.ofCode code) n codeBase (enter args m) pc m' ∧
        pc ≠ returnAddress ∧ Traps (step mulAdd (Program.ofCode code) pc) m' := by
  have hresult : ∀ _ : Unit, Trapless (get >>= fun m : Machine => return m.reg .r0 : Run UInt32) :=
    fun _ => .of_composed (.get_bind (fun _ _ _ => rfl) fun _ => .pure _)
  unfold call
  rw [traps_modify_bind_iff, traps_get_bind_iff, Trapless.traps_bind_iff hresult, stepLimit_enter,
    traps_runFrom_iff]

/-- The address of an instruction lies in the code. -/
theorem decodeAt_of_fetch {code : Array UInt16} {decoded : Decoded}
    (h : fetch? (Program.ofCode code) pc = some (.ok decoded)) :
    pc.toNat < 4096 + 2 * code.size ∧ decodeAt code (codeIndex pc) = .ok decoded := by
  unfold fetch? at h
  split at h
  · next hpc =>
    rw [Program.getElem?_ofCode] at h
    split at h
    · next hindex =>
      refine ⟨?_, Option.some.inj h⟩
      -- the index into the code is half the distance from its base
      have hbase : codeBase ≤ pc := by
        rw [Bool.and_eq_true, decide_eq_true_eq] at hpc
        exact hpc.1
      have hpclt := pc.toNat_lt
      simp only [codeIndex, UInt32.toNat_div, UInt32.toNat_sub, codeBase, UInt32.reduceToNat,
        UInt32.le_iff_toNat_le] at hindex hbase
      omega
    · cases h
  · cases h

end Hazard

/-- A computation gives a result or stops with an error of the machine. -/
def Reports {α : Type} (x : Run α) (m : Machine) : Prop :=
  (∃ a m', x m = .ok a m') ∨ ∃ cause m', x m = .error (.error cause) m'

theorem reports_iff_not_traps {α : Type} {x : Run α} {m : Machine} :
    Reports x m ↔ ¬Traps x m := by
  unfold Reports Traps
  cases x m with
  | ok a m' => simp
  | error halt m' => cases halt <;> simp

/-- A call comes to a hazard within its step limit. -/
def MeetsHazard (mulAdd : MulAdd) (code : Array UInt16) (args : List UInt32) (m : Machine) :
    Prop :=
  ∃ n pc m' decoded, n < m.stepLimit ∧
    Steps mulAdd (Program.ofCode code) n codeBase (enter args m) pc m' ∧ pc ≠ returnAddress ∧
    fetch? (Program.ofCode code) pc = some (.ok decoded) ∧ Hazard pc m' decoded

theorem reports_call_iff {mulAdd : MulAdd} {code : Array UInt16} {args : List UInt32}
    {m : Machine} :
    Reports (call mulAdd code args) m ↔ ¬MeetsHazard mulAdd code args m := by
  rw [reports_iff_not_traps, traps_call_iff]
  simp only [MeetsHazard, traps_step_iff, exists_and_left]

/-- A call gives a result or an error of the machine unless it comes to a hazard, where it
    gives neither.  If the code ends before the address space does, only stack operations are
    hazards: a call of code without them always reports. -/
theorem call_reports_unless_hazard (mulAdd : MulAdd) (code : Array UInt16) (args : List UInt32)
    (m : Machine) :
    (Reports (call mulAdd code args) m ↔ ¬MeetsHazard mulAdd code args m) ∧
    (4096 + 2 * code.size + 4 ≤ 2 ^ 32 →
      (∀ p decoded, decodeAt code p = .ok decoded → decoded.op.usesStack = false) →
      Reports (call mulAdd code args) m) := by
  refine ⟨reports_call_iff, fun hsize hstackless => reports_call_iff.mpr ?_⟩
  rintro ⟨n, pc, m', decoded, -, -, -, hfetch, hhazard⟩
  obtain ⟨hpc, hdecode⟩ := decodeAt_of_fetch hfetch
  have hstack := hhazard.usesStack (by omega)
  rw [hstackless _ _ hdecode] at hstack
  cases hstack

/-- The register file has no thirty-first double register to push. -/
example : ∃ stopped, call Binary32.mulAdd #[0xED6D, 0xFB02, 0x4770] [] fresh =
    .error (.trap .outOfBounds) stopped :=
  ⟨_, rfl⟩

/-- With the stack pointer set to zero, a push traps instead of failing to write below it. -/
theorem call_push_at_zero :
    ∃ stopped, call Binary32.mulAdd #[0x4685, 0xB402, 0x4770] [0] fresh =
      .error (.trap .overflow) stopped :=
  ⟨_, rfl⟩

end Machine

end HeliumKernels
