/-
  HeliumKernels.Proofs.Machine.Trial

  The machine of a trial.  Operands that fit their places are mapped between
  each other and below the stack; the output, its canary and the stack can be
  written, everything mapped can be read.
-/
import HeliumKernels.Machine.Trial
import HeliumKernels.Proofs.Machine.Mapping

namespace HeliumKernels.Trial

open Machine

variable {a b c : Array UInt32} {m m' : Machine}

theorem leading_eq {count : Nat} {xs : Array UInt32} (h : count ≤ xs.size) :
    leading count xs = .ok (xs.extract 0 count) :=
  if_pos h

/-- Where memory holds the leading elements of an operand they are read. -/
theorem read_leading {memory : Memory} {base : UInt32} {xs : Array UInt32} {count i : Nat}
    (h : memory.HoldsWords base (xs.extract 0 count).toList) (hi : i < count)
    (hsize : count ≤ xs.size) : memory.read (wordAddress base i) = .ok xs[i] := by
  simpa using h i (by rw [Array.length_toList, Array.size_extract]; omega)

theorem mapOperand_eq {base : UInt32} {words : Array UInt32} {writable : Bool} {memory : Memory}
    (h : m.memory.mapWords base words writable = .ok memory) :
    mapOperand m base words writable = .ok { m with memory } := by
  rw [mapOperand, h]
  rfl

/-! ## Memory -/

/-- The operands fit their places. -/
structure Fits (a b c : Array UInt32) : Prop where
  a : 4 * a.size ≤ 0x4000000
  b : 4 * b.size ≤ 0x4000000
  c : 4 * (c.size + canaryCount) ≤ 0x7FF0000

/-- The output with its canary. -/
def withCanary (c : Array UInt32) : Array UInt32 :=
  c ++ Array.replicate canaryCount canary

@[simp] theorem size_withCanary (c : Array UInt32) :
    (withCanary c).size = c.size + canaryCount := by
  simp [withCanary]

/-- The mapped operands. -/
def operands (a b c : Array UInt32) : List Region :=
  [⟨aBase, Bytes.ofWords a, false⟩, ⟨bBase, Bytes.ofWords b, false⟩,
    ⟨cBase, Bytes.ofWords (withCanary c), true⟩]

theorem toNat_aBase : aBase.toNat = 0x20000000 := rfl

theorem toNat_bBase : bBase.toNat = 0x24000000 := rfl

theorem toNat_cBase : cBase.toNat = 0x28000000 := rfl

/-- Operands are mapped one after the other below whatever is mapped. -/
theorem Fits.exists_mapWords (h : Fits a b c) (stack : Region)
    (hstack : 0x2FFF0000 ≤ stack.base.toNat) :
    ∃ m₁ m₂, Memory.mapWords ⟨[stack]⟩ aBase a false = .ok m₁ ∧
      m₁.mapWords bBase b false = .ok m₂ ∧
      m₂.mapWords cBase (withCanary c) true = .ok ⟨stack :: operands a b c⟩ ∧
      Memory.Apart ⟨stack :: operands a b c⟩ := by
  have ha := h.a
  have hb := h.b
  have hc := h.c
  have hstart : Memory.Apart ⟨[stack]⟩ := List.pairwise_singleton _ _
  have hlimitA : Region.limit ⟨aBase, Bytes.ofWords a, false⟩ = 0x20000000 + 4 * a.size := by
    rw [Region.limit, Bytes.size_ofWords, toNat_aBase]
  have hlimitB : Region.limit ⟨bBase, Bytes.ofWords b, false⟩ = 0x24000000 + 4 * b.size := by
    rw [Region.limit, Bytes.size_ofWords, toNat_bBase]
  -- each operand ends before the place of the next, and the last before the stack
  obtain ⟨hmapA, hapartA⟩ := hstart.mapWords_eq false
    (show aBase.toNat + 4 * a.size ≤ 2 ^ 32 by rw [toNat_aBase]; omega) (by
      simp only [List.mem_singleton, forall_eq, toNat_aBase]
      omega)
  obtain ⟨hmapB, hapartB⟩ := hapartA.mapWords_eq false
    (show bBase.toNat + 4 * b.size ≤ 2 ^ 32 by rw [toNat_bBase]; omega) (by
      simp only [List.cons_append, List.nil_append, List.mem_cons, List.not_mem_nil, or_false,
        forall_eq_or_imp, forall_eq, hlimitA, toNat_aBase, toNat_bBase]
      omega)
  obtain ⟨hmapC, hapartC⟩ := hapartB.mapWords_eq true
    (show cBase.toNat + 4 * (withCanary c).size ≤ 2 ^ 32 by
      rw [toNat_cBase, size_withCanary]; omega) (by
      simp only [List.cons_append, List.nil_append, List.mem_cons, List.not_mem_nil, or_false,
        forall_eq_or_imp, forall_eq, hlimitA, hlimitB, toNat_aBase, toNat_bBase, toNat_cBase,
        size_withCanary]
      omega)
  exact ⟨_, _, hmapA, hmapB, hmapC, hapartC⟩

/-- What the memory of a trial holds and where it can be written. -/
structure Prepared (a b c : Array UInt32) (memory : Memory) : Prop where
  a_holds : memory.HoldsWords aBase a.toList
  b_holds : memory.HoldsWords bBase b.toList
  c_holds : memory.HoldsWords cBase (withCanary c).toList
  c_writable : ∀ n < c.size, memory.Writable (wordAddress cBase n)
  stack_writable : ∀ n < 0x4000, memory.Writable (wordAddress (stackTop - stackSize) n)

theorem Fits.exists_prepared (h : Fits a b c) :
    ∃ m₁ m₂ memory, fresh.memory.mapWords aBase a false = .ok m₁ ∧
      m₁.mapWords bBase b false = .ok m₂ ∧
      m₂.mapWords cBase (withCanary c) true = .ok memory ∧ Prepared a b c memory := by
  obtain ⟨bytes, hsize, hfresh⟩ := exists_stack
  have ha := h.a
  have hb := h.b
  have hc := h.c
  have htop : (stackTop - stackSize).toNat = 0x2FFF0000 := rfl
  obtain ⟨m₁, m₂, hm₁, hm₂, hm₃, hapart⟩ :=
    h.exists_mapWords ⟨stackTop - stackSize, bytes, true⟩ (Nat.le_of_eq htop.symm)
  have hroomC : cBase.toNat + 4 * (withCanary c).size ≤ 2 ^ 32 := by
    rw [toNat_cBase, size_withCanary]
    omega
  have hmemC : ⟨cBase, Bytes.ofWords (withCanary c), true⟩ ∈
      ⟨stackTop - stackSize, bytes, true⟩ :: operands a b c := .tail _ (.tail _ (.tail _ (.head _)))
  rw [hfresh]
  refine ⟨m₁, m₂, _, hm₁, hm₂, hm₃, ?_, ?_, ?_, fun n hn => ?_, fun n hn => ?_⟩
  · exact hapart.holdsWords (.tail _ (.head _)) (by decide) (by rw [toNat_aBase]; omega)
  · exact hapart.holdsWords (.tail _ (.tail _ (.head _))) (by decide) (by rw [toNat_bBase]; omega)
  · exact hapart.holdsWords hmemC (by decide) hroomC
  · exact hapart.writable hmemC (Memory.wordAddress_aligned (by decide) n)
      (Memory.covers_wordAddress (Bytes.size_ofWords _) hroomC (by rw [size_withCanary]; omega)) rfl
  · exact hapart.writable (.head _) (Memory.wordAddress_aligned (by decide) n)
      (Memory.covers_wordAddress hsize (by rw [htop]; omega) hn) rfl

/-- A trial maps its operands whatever its step limit. -/
theorem Fits.exists_mapped (h : Fits a b c) :
    ∃ memory, Prepared a b c memory ∧ ∀ limit, ∃ m₁ m₂,
      mapOperand { fresh with stepLimit := limit } aBase a false = .ok m₁ ∧
      mapOperand m₁ bBase b false = .ok m₂ ∧
      mapOutput m₂ c = .ok { fresh with stepLimit := limit, memory } := by
  obtain ⟨memory₁, memory₂, memory, hmap₁, hmap₂, hmap, hprepared⟩ := h.exists_prepared
  exact ⟨memory, hprepared, fun limit => ⟨{ fresh with stepLimit := limit, memory := memory₁ },
    { fresh with stepLimit := limit, memory := memory₂ }, mapOperand_eq hmap₁, mapOperand_eq hmap₂,
    mapOperand_eq hmap⟩⟩

/-! ## What a trial looks at -/

theorem runOn_eq_ok {mulAdd : MulAdd} {code : Array UInt16} {args : List UInt32} {r : UInt32}
    (h : call mulAdd code args m = .ok r m') : runOn mulAdd m code args = .ok m' := by
  rw [runOn, h]

theorem runOn_eq_error {mulAdd : MulAdd} {code : Array UInt16} {args : List UInt32} {halt : Halt}
    (h : call mulAdd code args m = .error halt m') : runOn mulAdd m code args = .error halt := by
  rw [runOn, h]

/-- The canary is as it was unless one of its words was written. -/
theorem Prepared.canaryIntact_eq (h : Prepared a b c m.memory)
    (hroom : 4 * (c.size + canaryCount) ≤ 0x7FF0000) {W : UInt32 → Prop}
    (hwrites : Memory.Writes W m.memory m'.memory)
    (hout : ∀ n < canaryCount, ¬W (wordAddress cBase (c.size + n))) :
    canaryIntact m' c.size = .ok true := by
  have height : canaryCount = 8 := rfl
  have hholds := h.c_holds
  rw [withCanary, Array.toList_append] at hholds
  have hcanary := hholds.right
  rw [Array.length_toList, Array.toList_replicate] at hcanary
  -- the canary follows the output, so its words count on from the size of the output
  have hkept : m'.memory.HoldsWords (canaryAddress c.size) (List.replicate canaryCount canary) := by
    refine hcanary.of_writes hwrites fun n hn => ?_
    rw [List.length_replicate] at hn
    rw [wordAddress_wordAddress]
    exact hout n hn
  have haddress : (canaryAddress c.size).toNat = _ :=
    toNat_wordAddress (by rw [toNat_cBase]; omega)
  have hread := hkept.readWords_eq (by
    rw [haddress, List.length_replicate, toNat_cBase]
    omega)
  rw [List.length_replicate] at hread
  rw [canaryIntact, hread]
  rfl

theorem calleeSaved_eq
    (hscalars : ∀ r ∈ [Reg.r4, .r5, .r6, .r7, .r8, .r9, .r10, .r11], m'.reg r = m.reg r)
    (hlanes : ∀ (q : QReg) (l : Lane), 4 ≤ q.val → m'.lane q l = m.lane q l) :
    m'.calleeSaved = m.calleeSaved := by
  -- both halves are contiguous in the register files: r4 to r11, and the singles of q4 to q7
  have hregs : ∀ n (h : n < 8), m'.regs[4 + n] = m.regs[4 + n] := by
    intro n hn
    obtain ⟨r, hr, hnum⟩ : ∃ r ∈ [Reg.r4, .r5, .r6, .r7, .r8, .r9, .r10, .r11], r.num = 4 + n := by
      revert n
      decide
    have heq := hscalars r hr
    simpa only [reg, regIndex, Fin.getElem_fin, hnum] using heq
  have hsingles : ∀ n (h : n < 16), m'.singles[16 + n] = m.singles[16 + n] := by
    intro n hn
    have heq := hlanes ⟨4 + n / 4, by omega⟩ ⟨n % 4, by omega⟩ (Nat.le_add_right 4 _)
    have hindex : 4 * (4 + n / 4) + n % 4 = 16 + n := by omega
    simpa only [lane, single, laneIndex, Fin.getElem_fin, hindex] using heq
  unfold calleeSaved
  congr 1
  · refine List.ext_getElem (by simp) fun n hn _ => ?_
    simp only [List.length_take, List.length_drop, Vector.length_toList] at hn
    simpa only [List.getElem_take, List.getElem_drop, Vector.getElem_toList] using
      hregs n (by omega)
  · refine List.ext_getElem (by simp) fun n hn _ => ?_
    simp only [List.length_drop, Vector.length_toList] at hn
    simpa only [List.getElem_drop, Vector.getElem_toList] using hsingles n (by omega)

end HeliumKernels.Trial
