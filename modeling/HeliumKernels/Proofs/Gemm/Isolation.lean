/-
  HeliumKernels.Proofs.Gemm.Isolation

  What a kernel needs of memory and what it leaves alone.  It is enough that
  the elements of the operands and twenty-five words of stack can be accessed:
  the padding between columns need not be mapped.  A call then returns, and
  only `C` and the stack differ from before.
-/
import HeliumKernels.Binary32.Fused
import HeliumKernels.Proofs.Gemm.Kernel

namespace HeliumKernels.Gemm

open Machine

variable {shape : Shape} {a b c : UInt32} {memory : Memory} {m m' : Machine}

/-! ## What a call relies on -/

instance (address : UInt32) : Decidable (OnStack address) :=
  inferInstanceAs (Decidable (∃ n < 25, address = wordAddress stackBase n))

/-- The words that a call may write: the elements of `C` and its stack. -/
def Owned (shape : Shape) (c address : UInt32) : Prop :=
  (∃ i < shape.m, ∃ j < shape.n, address = elementAddress c shape.ldc i j) ∨ OnStack address

instance (shape : Shape) (c address : UInt32) : Decidable (Owned shape c address) :=
  inferInstanceAs (Decidable (_ ∨ _))

/-- The words that a call accesses are mapped, `C` ends within the address
    space, and what is written shares no word with what is only read. -/
structure Accessible (shape : Shape) (a b c : UInt32) (memory : Memory) : Prop where
  a_readable : ∀ i < shape.m, ∀ kk < shape.k, memory.Readable (elementAddress a shape.lda i kk)
  b_readable : ∀ kk < shape.k, ∀ j < shape.n, memory.Readable (elementAddress b shape.ldb kk j)
  c_writable : ∀ i < shape.m, ∀ j < shape.n, memory.Writable (elementAddress c shape.ldc i j)
  stack : ∀ n < 25, memory.Writable (wordAddress stackBase n)
  inside : ∀ i < shape.m, ∀ j < shape.n, c.toNat + 4 * (i + j * shape.ldc) < 2 ^ 32
  a_apart : ∀ i < shape.m, ∀ kk < shape.k, ¬Owned shape c (elementAddress a shape.lda i kk)
  b_apart : ∀ kk < shape.k, ∀ j < shape.n, ¬Owned shape c (elementAddress b shape.ldb kk j)
  c_apart : ∀ i < shape.m, ∀ j < shape.n, ¬OnStack (elementAddress c shape.ldc i j)

/-- The product of the matrices that memory holds. -/
def Product.ofMemory (shape : Shape) (a b c : UInt32) (memory : Memory) : Product where
  a := a
  b := b
  c := c
  x i kk := memory.wordAt (elementAddress a shape.lda i kk)
  y kk j := memory.wordAt (elementAddress b shape.ldb kk j)
  z i j := memory.wordAt (elementAddress c shape.ldc i j)

theorem Accessible.callable (h : Accessible shape a b c memory) :
    (Product.ofMemory shape a b c memory).Callable shape memory where
  given :=
    { a := fun i hi kk hkk => (h.a_readable i hi kk hkk).read_eq
      b := fun kk hkk j hj => (h.b_readable kk hkk j hj).read_eq
      c := fun i hi j hj => (h.c_writable i hi j hj).readable.read_eq
      writable := h.c_writable
      last := fun i hi j hj => by
        have := h.inside i hi j hj
        omega
      a_apart := fun i hi kk hkk hresult => h.a_apart i hi kk hkk (.inl hresult)
      b_apart := fun kk hkk j hj hresult => h.b_apart kk hkk j hj (.inl hresult) }
  stack := h.stack
  a_apart i hi kk hkk hstack := h.a_apart i hi kk hkk (.inr hstack)
  b_apart kk hkk j hj hstack := h.b_apart kk hkk j hj (.inr hstack)
  c_apart := h.c_apart

/-! ## What a call leaves alone -/

/-- Whether a byte belongs to a word. -/
def InWord (address word : UInt32) : Prop :=
  word.toNat ≤ address.toNat ∧ address.toNat < word.toNat + 4

/-- What a call has done to a machine: it has finished the elements of `C`,
    each from the initial words of its row of `A`, its column of `B` and
    itself alone, and nothing that the caller relies on is different. -/
structure Isolated (shape : Shape) (mulAdd : MulAdd) (a b c : UInt32) (m m' : Machine) : Prop where
  bytes : ∀ address, (∀ word, Owned shape c word → ¬InWord address word) →
    m'.memory.byte? address = m.memory.byte? address
  result : ∀ i < shape.m, ∀ j < shape.n,
    m'.memory.read (elementAddress c shape.ldc i j) = .ok (accumulate mulAdd
      (fun kk => m.memory.wordAt (elementAddress a shape.lda i kk))
      (fun kk => m.memory.wordAt (elementAddress b shape.ldb kk j))
      (m.memory.wordAt (elementAddress c shape.ldc i j)) shape.k)
  scalars : ∀ r ∈ [Reg.r4, .r5, .r6, .r7, .r8, .r9, .r10, .r11], m'.reg r = m.reg r
  vectors : ∀ (q : QReg) (l : Lane), 4 ≤ q.val → m'.lane q l = m.lane q l
  sp : m'.reg .sp = stackTop

theorem Product.Outcome.isolated {mulAdd : MulAdd}
    (h : (Product.ofMemory shape a b c m.memory).Outcome shape mulAdd m m') :
    Isolated shape mulAdd a b c m m' where
  bytes address hout := by
    refine h.writes.byte?_eq fun word hword => ?_
    have := hout word hword
    rw [InWord] at this
    omega
  result := h.result
  scalars := h.saved
  vectors := h.lane
  sp := h.sp

/-- A kernel without a fatal fault returns on every machine that lets it access
    its operands and stack, and does nothing else to that machine. -/
theorem call_isolated {tiling : Tiling} {pool? : Option RegSet}
    (htiling : tiling.error? = .ok none) (hshape : shape.error? = none)
    (hpool : PoolFits tiling shape pool?) (haccess : Accessible shape a b c m.memory)
    (mulAdd : MulAdd) (buffer : Buffer) :
    ∃ kernel, buffer.fulfil (.gemm tiling pool? shape) = .ok kernel ∧
      (kernel.hasFatalFault = false → ∃ enough < 2 ^ 64, ∀ limit, enough ≤ limit →
        ∃ r m', call mulAdd kernel.code [a, b, c] (m.withLimit limit) = .ok r m' ∧
          Isolated shape mulAdd a b c m m') := by
  obtain ⟨kernel, hkernel, hcall⟩ :=
    haccess.callable.call_eq htiling hshape hpool mulAdd buffer
  refine ⟨kernel, hkernel, fun hfatal => ?_⟩
  obtain ⟨m', houtcome, hsteps, hlimit⟩ := hcall hfatal
  refine ⟨m'.steps, hsteps, fun limit hle => ?_⟩
  obtain ⟨r, hr⟩ := (hlimit limit).1 hle
  exact ⟨r, m'.withLimit limit, hr, (houtcome.withLimit limit).isolated⟩

/-! ## Columns mapped one by one -/

/-- The columns of a matrix without the padding between them. -/
def columnRegions (base : UInt32) (ld rows columns : Nat) (writable : Bool) : List Region :=
  (List.range columns).map fun j =>
    ⟨elementAddress base ld 0 j, Bytes.ofWords (.replicate rows 0x3F800000), writable⟩

/-- A machine that was stopped inside a predication block, and on which every
    word between the columns of the operands is unmapped. -/
def sparseMachine : Machine :=
  { Machine.fresh with
    memory := ⟨columnRegions 0x20000000 7 5 3 false ++ columnRegions 0x21000000 4 3 4 false ++
      columnRegions 0x22000000 6 5 4 true ++ [⟨stackBase, Bytes.zeros 100, true⟩]⟩
    predicate := Vector.replicate 4 false
    vptRemaining := 3
    tailPredicated := true }

theorem accessible_sparseMachine :
    Accessible ⟨5, 3, 4, 7, 4, 6⟩ 0x20000000 0x21000000 0x22000000 sparseMachine.memory where
  a_readable := by decide +kernel
  b_readable := by decide +kernel
  c_writable := by decide +kernel
  stack := by decide +kernel
  inside := by decide +kernel
  a_apart := by decide +kernel
  b_apart := by decide +kernel
  c_apart := by decide +kernel

theorem call_isolated_sparseMachine :
    ∃ kernel, Buffer.fulfil ⟨#[], 1024, 0, [], false⟩ (.gemm {} none ⟨5, 3, 4, 7, 4, 6⟩) =
        .ok kernel ∧ kernel.hasFatalFault = false ∧ ∃ enough < 2 ^ 64, ∀ limit, enough ≤ limit →
      ∃ r m', call Binary32.mulAdd kernel.code [0x20000000, 0x21000000, 0x22000000]
          (sparseMachine.withLimit limit) = .ok r m' ∧
        Isolated ⟨5, 3, 4, 7, 4, 6⟩ Binary32.mulAdd 0x20000000 0x21000000 0x22000000
          sparseMachine m' := by
  have hpool : PoolFits {} ⟨5, 3, 4, 7, 4, 6⟩ none := fun _ _ _ => nofun
  obtain ⟨kernel, hkernel, hcall⟩ := call_isolated rfl rfl hpool accessible_sparseMachine
    Binary32.mulAdd ⟨#[], 1024, 0, [], false⟩
  have hfatal : (Buffer.fulfil ⟨#[], 1024, 0, [], false⟩
      (.gemm {} none ⟨5, 3, 4, 7, 4, 6⟩)).toOption.map (·.hasFatalFault) = some false := by
    decide +kernel
  rw [hkernel] at hfatal
  exact ⟨kernel, hkernel, Option.some.inj hfatal, hcall (Option.some.inj hfatal)⟩

end HeliumKernels.Gemm
