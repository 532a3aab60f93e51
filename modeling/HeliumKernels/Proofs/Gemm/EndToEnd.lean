/-
  HeliumKernels.Proofs.Gemm.EndToEnd

  Trials of generated kernels.  A trial gives what the plain product computes,
  with the canary and the caller's registers intact, or it runs into the step
  limit; which of the two depends on the limit alone.
-/
import HeliumKernels.Binary32.Fused
import HeliumKernels.Proofs.Gemm.Kernel
import HeliumKernels.Proofs.Gemm.Reference
import HeliumKernels.Proofs.Machine.Trial

namespace HeliumKernels.Gemm

open Machine Trial Reference

variable {shape : Shape} {a b c ref : Array UInt32} {memory : Memory} {mulAdd : MulAdd}
  {m m' : Machine}

/-! ## Operands of a trial -/

/-- The operands of a shape fit their places. -/
structure Shape.FitsTrial (shape : Shape) : Prop where
  a : 4 * shape.aLen ≤ 0x4000000
  b : 4 * shape.bLen ≤ 0x4000000
  c : 4 * (shape.cLen + canaryCount) ≤ 0x7FF0000

/-- The product of a trial. -/
def trialProduct (shape : Shape) (a b c : Array UInt32) : Product where
  a := aBase
  b := bBase
  c := cBase
  x := entry a shape.lda
  y := entry b shape.ldb
  z := entry c shape.ldc

/-- The memory of a trial. -/
def TrialMemory (shape : Shape) (a b c : Array UInt32) (memory : Memory) : Prop :=
  Prepared (a.extract 0 shape.aLen) (b.extract 0 shape.bLen) (c.extract 0 shape.cLen) memory

theorem getElem?_leading (xs : Array UInt32) {count t : Nat} (h : t < count) :
    (xs.extract 0 count).toList[t]? = xs[t]? := by
  rw [Array.getElem?_toList, Array.getElem?_extract, Nat.zero_add]
  split
  · rfl
  · exact (Array.getElem?_eq_none (by omega)).symm

theorem read_entry {base : UInt32} {xs : Array UInt32} {count ld i j : Nat}
    (h : memory.HoldsWords base (xs.extract 0 count).toList) (hlt : i + j * ld < count)
    (hcount : count ≤ xs.size) :
    memory.read (elementAddress base ld i j) = .ok (entry xs ld i j) := by
  refine Memory.holdsWords_iff.mp h _ _ ?_
  rw [getElem?_leading xs hlt]
  exact getElem?_entry (by omega)

/-- An element lies between the ends of its matrix. -/
theorem toNat_element {base : UInt32} {rows ld columns i j : Nat} (hi : i < rows)
    (hrows : rows ≤ ld) (hj : j < columns) (hroom : base.toNat + 4 * (ld * columns) ≤ 2 ^ 32) :
    base.toNat ≤ (elementAddress base ld i j).toNat ∧
      (elementAddress base ld i j).toNat < base.toNat + 4 * (ld * columns) := by
  have hlt := index_lt hi hrows hj
  rw [elementAddress, toNat_wordAddress (by omega)]
  omega

namespace Shape.FitsTrial

theorem a_lt (h : shape.FitsTrial) (hshape : shape.Valid) {i kk : Nat} (hi : i < shape.m)
    (hkk : kk < shape.k) : (elementAddress aBase shape.lda i kk).toNat < 0x24000000 := by
  have ha := h.a
  rw [Shape.aLen] at ha
  have := (toNat_element hi hshape.m_le_lda hkk (by rw [toNat_aBase]; omega)).2
  rw [toNat_aBase] at this
  omega

theorem b_range (h : shape.FitsTrial) (hshape : shape.Valid) {kk j : Nat} (hkk : kk < shape.k)
    (hj : j < shape.n) : 0x24000000 ≤ (elementAddress bBase shape.ldb kk j).toNat ∧
      (elementAddress bBase shape.ldb kk j).toNat < 0x28000000 := by
  have hb := h.b
  rw [Shape.bLen] at hb
  have := toNat_element hkk hshape.k_le_ldb hj (by rw [toNat_bBase]; omega)
  rw [toNat_bBase] at this
  omega

theorem c_range (h : shape.FitsTrial) (hshape : shape.Valid) {i j : Nat} (hi : i < shape.m)
    (hj : j < shape.n) : 0x28000000 ≤ (elementAddress cBase shape.ldc i j).toNat ∧
      (elementAddress cBase shape.ldc i j).toNat < 0x2FFF0000 := by
  have hc := h.c
  rw [Shape.cLen] at hc
  have := toNat_element hi hshape.m_le_ldc hj (by rw [toNat_cBase]; omega)
  rw [toNat_cBase] at this
  omega

end Shape.FitsTrial

theorem OnStack.le {address : UInt32} (h : OnStack address) : 0x2FFFFF9C ≤ address.toNat := by
  obtain ⟨n, hn, rfl⟩ := h
  have hbase : stackBase.toNat = 0x2FFFFF9C := rfl
  rw [toNat_wordAddress (by omega)]
  omega

theorem not_onStack_of_lt {address : UInt32} (h : address.toNat < 0x2FFF0000) :
    ¬OnStack address := by
  intro hstack
  have := hstack.le
  omega

/-- `A` and `B` lie below `C`. -/
theorem Shape.FitsTrial.not_result_of_lt (hfits : shape.FitsTrial) (hshape : shape.Valid)
    {address : UInt32} (h : address.toNat < 0x28000000) :
    ¬(trialProduct shape a b c).Result shape address := by
  rintro ⟨i, hi, j, hj, rfl⟩
  exact Nat.not_le.mpr h (hfits.c_range hshape hi hj).1

/-- In a trial a kernel finds its operands and its stack. -/
theorem TrialMemory.callable (h : TrialMemory shape a b c memory) (hfits : shape.FitsTrial)
    (hspans : Spans shape a b c) (hshape : shape.Valid) :
    (trialProduct shape a b c).Callable shape memory := by
  have hindexC : ∀ i < shape.m, ∀ j < shape.n, i + j * shape.ldc < shape.cLen :=
    fun i hi j hj => index_lt hi hshape.m_le_ldc hj
  have hsizeC : (c.extract 0 shape.cLen).size = shape.cLen := by
    have := hspans.c
    rw [Array.size_extract]
    omega
  have hcanary := h.c_holds
  rw [withCanary, Array.toList_append] at hcanary
  have hstack : stackBase = wordAddress (stackTop - stackSize) 0x3FE7 := rfl
  refine ⟨⟨fun i hi kk hkk => ?_, fun kk hkk j hj => ?_, fun i hi j hj => ?_, fun i hi j hj => ?_,
    fun i hi j hj => ?_, fun i hi kk hkk => ?_, fun kk hkk j hj => ?_⟩, fun n hn => ?_,
    fun i hi kk hkk => not_onStack_of_lt ?_, fun kk hkk j hj => not_onStack_of_lt ?_,
    fun i hi j hj => not_onStack_of_lt (hfits.c_range hshape hi hj).2⟩
  · exact read_entry h.a_holds (index_lt hi hshape.m_le_lda hkk) hspans.a
  · exact read_entry h.b_holds (index_lt hkk hshape.k_le_ldb hj) hspans.b
  · exact read_entry hcanary.left (hindexC i hi j hj) hspans.c
  · exact h.c_writable _ (by rw [hsizeC]; exact hindexC i hi j hj)
  · have := hindexC i hi j hj
    have := hfits.c
    omega
  · exact hfits.not_result_of_lt hshape (Nat.lt_trans (hfits.a_lt hshape hi hkk) (by decide))
  · exact hfits.not_result_of_lt hshape (hfits.b_range hshape hkk hj).2
  · rw [hstack, wordAddress_wordAddress]
    exact h.stack_writable _ (by omega)
  · exact Nat.lt_trans (hfits.a_lt hshape hi hkk) (by decide)
  · exact Nat.lt_trans (hfits.b_range hshape hkk hj).2 (by decide)

/-! ## What a trial shows -/

/-- Words of the output that are not elements of `C` are not written. -/
theorem not_written (hfits : shape.FitsTrial) (hshape : shape.Valid) {t : Nat}
    (ht : t < shape.cLen + canaryCount) (hother : ∀ i < shape.m, ∀ j < shape.n, t ≠ i + j * shape.ldc) :
    ¬((trialProduct shape a b c).Result shape (wordAddress cBase t) ∨
      OnStack (wordAddress cBase t)) := by
  have hc := hfits.c
  rintro (⟨i, hi, j, hj, heq⟩ | hstack)
  · have hindex : i + j * shape.ldc < shape.cLen := index_lt hi hshape.m_le_ldc hj
    exact hother i hi j hj (wordAddress_injective (by omega) (by omega) heq)
  · have hle := hstack.le
    rw [toNat_wordAddress (by rw [toNat_cBase]; omega), toNat_cBase] at hle
    omega

/-- After a call the output holds the plain product. -/
theorem Product.Outcome.holds_product (h : (trialProduct shape a b c).Outcome shape mulAdd m m')
    (hmemory : TrialMemory shape a b c m.memory) (hfits : shape.FitsTrial) (hshape : shape.Valid)
    (href : Summed mulAdd shape a b c (fun _ _ => shape.k) ref) :
    m'.memory.HoldsWords cBase (ref.extract 0 shape.cLen).toList := by
  have hinitial := hmemory.c_holds
  rw [withCanary, Array.toList_append] at hinitial
  refine Memory.holdsWords_iff.mpr fun t value hvalue => ?_
  have ht : t < shape.cLen := by
    have := (List.getElem?_eq_some_iff.mp hvalue).1
    rw [Array.length_toList, Array.size_extract] at this
    omega
  rw [getElem?_leading ref ht] at hvalue
  by_cases helement : ∃ i < shape.m, ∃ j < shape.n, t = i + j * shape.ldc
  · obtain ⟨i, hi, j, hj, rfl⟩ := helement
    rw [href.elements i hi j hj] at hvalue
    obtain rfl := Option.some.inj hvalue
    exact h.result i hi j hj
  · -- between the columns both have the initial words
    have hother : ∀ i < shape.m, ∀ j < shape.n, t ≠ i + j * shape.ldc :=
      fun i hi j hj heq => helement ⟨i, hi, j, hj, heq⟩
    rw [h.writes.read_eq (not_written hfits hshape (by omega) hother)]
    refine Memory.holdsWords_iff.mp hinitial.left t value ?_
    rw [getElem?_leading c ht, ← href.others t hother, hvalue]

/-- The machine of a trial. -/
def trialMachine (memory : Memory) : Machine :=
  { fresh with memory }

/-- A trial from the machine that it prepares on. -/
theorem exists_gemm_eq_runOn (mulAdd : MulAdd) (hfits : shape.FitsTrial) (hspans : Spans shape a b c) :
    ∃ memory, TrialMemory shape a b c memory ∧ ∀ limit code, Trial.gemm mulAdd limit code shape a b c =
      runOn mulAdd ((trialMachine memory).withLimit limit) code [aBase, bBase, cBase] >>=
        fun m => do return {
          c := ← m.memory.readWords cBase shape.cLen
          canaryIntact := ← canaryIntact m shape.cLen
          calleeSavedIntact := m.calleeSavedIntact (trialMachine memory).calleeSaved
          steps := m.steps } := by
  have hroom : Fits (a.extract 0 shape.aLen) (b.extract 0 shape.bLen) (c.extract 0 shape.cLen) := by
    have ha := hfits.a
    have hb := hfits.b
    have hc := hfits.c
    constructor
    all_goals
      rw [Array.size_extract]
      omega
  obtain ⟨memory, hprepared, hmapped⟩ := hroom.exists_mapped
  refine ⟨memory, hprepared, fun limit code => ?_⟩
  obtain ⟨m₁, m₂, hmapA, hmapB, hmapC⟩ := hmapped limit
  simp only [Trial.gemm, leading_eq hspans.a, leading_eq hspans.b, leading_eq hspans.c, bind,
    Except.bind, hmapA, hmapB, hmapC]
  rfl

/-- A finished call as a trial reports it. -/
theorem Product.Outcome.report_eq (h : (trialProduct shape a b c).Outcome shape mulAdd m m')
    (hmemory : TrialMemory shape a b c m.memory) (hfits : shape.FitsTrial)
    (hspans : Spans shape a b c) (hshape : shape.Valid)
    (href : Summed mulAdd shape a b c (fun _ _ => shape.k) ref) :
    m'.memory.readWords cBase shape.cLen = .ok (ref.extract 0 shape.cLen) ∧
      canaryIntact m' shape.cLen = .ok true ∧ m'.calleeSavedIntact m.calleeSaved = true := by
  have hc := hfits.c
  refine ⟨?_, ?_, ?_⟩
  · have hsize : (ref.extract 0 shape.cLen).toList.length = shape.cLen := by
      have := hspans.c
      have := href.size
      rw [Array.length_toList, Array.size_extract]
      omega
    have hread := (h.holds_product hmemory hfits hshape href).readWords_eq
      (by rw [hsize, toNat_cBase]; omega)
    rwa [hsize, Array.toArray_toList] at hread
  · have hsize : (c.extract 0 shape.cLen).size = shape.cLen := by
      have := hspans.c
      rw [Array.size_extract]
      omega
    have hintact := Prepared.canaryIntact_eq hmemory (by rw [hsize]; exact hc) h.writes
      fun n hn => by
        rw [hsize]
        refine not_written hfits hshape (by omega) fun i hi j hj heq => ?_
        have hindex : i + j * shape.ldc < shape.cLen := index_lt hi hshape.m_le_ldc hj
        omega
    rwa [hsize] at hintact
  · rw [calleeSavedIntact, calleeSaved_eq h.saved h.lane, h.sp]
    simp

/-- A trial of a kernel without a fatal fault computes the plain product and
    leaves the canary and the caller's registers intact, if the step limit
    suffices; otherwise it stops at the limit.  Limits of eight bytes suffice. -/
theorem trial_eq_reference {tiling : Tiling} {pool? : Option RegSet}
    (htiling : tiling.error? = .ok none) (hshape : shape.error? = none)
    (hpool : PoolFits tiling shape pool?) (hfits : shape.FitsTrial) (hspans : Spans shape a b c)
    (mulAdd : MulAdd) (buffer : Buffer) :
    ∃ kernel ref, buffer.fulfil (.gemm tiling pool? shape) = .ok kernel ∧
      Reference.gemm mulAdd shape a b c = .ok ref ∧
      (kernel.hasFatalFault = false → ∃ enough < 2 ^ 64, ∀ limit,
        Trial.gemm mulAdd limit kernel.code shape a b c =
          if enough ≤ limit then .ok ⟨ref.extract 0 shape.cLen, true, true, enough⟩
          else .error (.error (.stepLimit limit))) := by
  have hvalid := Shape.valid_of_error? hshape
  obtain ⟨ref, hgemm, href⟩ := exists_gemm_eq mulAdd hspans hvalid
  obtain ⟨memory, hmemory, htrial⟩ := exists_gemm_eq_runOn mulAdd hfits hspans
  have hcallable : (trialProduct shape a b c).Callable shape (trialMachine memory).memory :=
    hmemory.callable hfits hspans hvalid
  obtain ⟨kernel, hkernel, hcall⟩ := hcallable.call_eq htiling hshape hpool mulAdd buffer
  refine ⟨kernel, ref, hkernel, hgemm, fun hfatal => ?_⟩
  obtain ⟨m', houtcome, hsteps, hlimit⟩ := hcall hfatal
  refine ⟨m'.steps, hsteps, fun limit => ?_⟩
  rw [htrial]
  by_cases hle : m'.steps ≤ limit
  · obtain ⟨r, hr⟩ := (hlimit limit).1 hle
    obtain ⟨hread, hcanary, hsaved⟩ :=
      (houtcome.withLimit limit).report_eq hmemory hfits hspans hvalid href
    have hrun : runOn mulAdd _ kernel.code [aBase, bBase, cBase] = .ok (m'.withLimit limit) :=
      runOn_eq_ok hr
    rw [if_pos hle, hrun]
    simp only [bind, Except.bind, hread, hcanary, hsaved]
    rfl
  · obtain ⟨stopped, hstopped⟩ := (hlimit limit).2 (by omega)
    have hrun : runOn mulAdd _ kernel.code [aBase, bBase, cBase] =
        .error (.error (.stepLimit limit)) := runOn_eq_error hstopped
    rw [if_neg hle, hrun]
    rfl

/-- Padded operands, tails in both directions and no register to spare. -/
theorem trial_eq_reference_padded :
    ∃ kernel ref, Buffer.fulfil ⟨#[], 1024, 0, [], false⟩
          (.gemm {} (some RegSet.empty) ⟨13, 3, 7, 14, 2000, 15⟩) = .ok kernel ∧
        kernel.hasFatalFault = false ∧
        Reference.gemm Binary32.mulAdd ⟨13, 3, 7, 14, 2000, 15⟩ (.replicate 42 0x3F800000)
          (.replicate 14000 0x40000000) (.replicate 105 0x40400000) = .ok ref ∧
      ∃ enough < 2 ^ 64, ∀ limit, Trial.gemm Binary32.mulAdd limit kernel.code
          ⟨13, 3, 7, 14, 2000, 15⟩ (.replicate 42 0x3F800000) (.replicate 14000 0x40000000)
          (.replicate 105 0x40400000) =
        if enough ≤ limit then .ok ⟨ref.extract 0 105, true, true, enough⟩
        else .error (.error (.stepLimit limit)) := by
  have hpool : PoolFits {} ⟨13, 3, 7, 14, 2000, 15⟩ (some RegSet.empty) := by
    rintro layout - set hset r hr
    obtain rfl := Option.some.inj hset
    cases r <;> cases hr
  have hspans : Spans ⟨13, 3, 7, 14, 2000, 15⟩ (.replicate 42 0x3F800000)
      (.replicate 14000 0x40000000) (.replicate 105 0x40400000) := by
    constructor
    all_goals
      rw [Array.size_replicate]
      decide
  obtain ⟨kernel, ref, hkernel, href, htrial⟩ := trial_eq_reference rfl rfl hpool
    ⟨by decide, by decide, by decide⟩ hspans Binary32.mulAdd ⟨#[], 1024, 0, [], false⟩
  have hfatal : (Buffer.fulfil ⟨#[], 1024, 0, [], false⟩
      (.gemm {} (some RegSet.empty) ⟨13, 3, 7, 14, 2000, 15⟩)).toOption.map
        (·.hasFatalFault) = some false := by
    decide +kernel
  rw [hkernel] at hfatal
  exact ⟨kernel, ref, hkernel, Option.some.inj hfatal, href, htrial (Option.some.inj hfatal)⟩

end HeliumKernels.Gemm
