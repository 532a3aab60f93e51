/-
  HeliumKernels.Proofs.Gemm.Product

  The product of whole matrices, tile by tile.  A `Product` says where the
  operands are and what they hold.  While a kernel runs, each element of `C`
  either holds its initial value or the finished sum; a tile turns the
  elements it covers from the one into the other and leaves the rest alone.
-/
import HeliumKernels.Proofs.Gemm.Microkernel

namespace HeliumKernels.Gemm

open Role Machine

theorem elementAddress_elementAddress (base : UInt32) (ld i₀ j₀ i j : Nat) :
    elementAddress (elementAddress base ld i₀ j₀) ld i j =
      elementAddress base ld (i₀ + i) (j₀ + j) := by
  simp only [elementAddress, wordAddress_wordAddress]
  congr 1
  rw [Nat.add_mul]
  omega

/-- Where the operands of a product are, and what they hold. -/
structure Product where
  a : UInt32
  b : UInt32
  c : UInt32
  x : Nat → Nat → UInt32
  y : Nat → Nat → UInt32
  z : Nat → Nat → UInt32

namespace Product

variable {p : Product} {shape : Shape} {mulAdd : MulAdd} {memory : Memory}

/-- The elements of `C`. -/
def Result (p : Product) (shape : Shape) (address : UInt32) : Prop :=
  ∃ i < shape.m, ∃ j < shape.n, address = elementAddress p.c shape.ldc i j

/-- Memory holds the operands.  Elements of `C` are writable, and neither they
    nor elements of other operands share a word. -/
structure Given (p : Product) (shape : Shape) (memory : Memory) : Prop where
  a : ∀ i < shape.m, ∀ kk < shape.k,
    memory.read (elementAddress p.a shape.lda i kk) = .ok (p.x i kk)
  b : ∀ kk < shape.k, ∀ j < shape.n,
    memory.read (elementAddress p.b shape.ldb kk j) = .ok (p.y kk j)
  c : ∀ i < shape.m, ∀ j < shape.n,
    memory.read (elementAddress p.c shape.ldc i j) = .ok (p.z i j)
  writable : ∀ i < shape.m, ∀ j < shape.n,
    memory.Writable (elementAddress p.c shape.ldc i j)
  last : ∀ i < shape.m, ∀ j < shape.n, i + j * shape.ldc < 2 ^ 30
  a_apart : ∀ i < shape.m, ∀ kk < shape.k, ¬p.Result shape (elementAddress p.a shape.lda i kk)
  b_apart : ∀ kk < shape.k, ∀ j < shape.n, ¬p.Result shape (elementAddress p.b shape.ldb kk j)

/-- The finished element `(i, j)`. -/
def sum (p : Product) (shape : Shape) (mulAdd : MulAdd) (i j : Nat) : UInt32 :=
  sumTo mulAdd p.x p.y p.z shape.k i j

/-- A state in which the elements of a set are finished and the others are not. -/
structure Done (p : Product) (ctx : Context) (mulAdd : MulAdd) (memory : Memory)
    (done : Nat → Nat → Prop) (m : Machine) : Prop where
  plain : m.Plain
  preloaded : ctx.Preloaded m
  writes : Memory.Writes (p.Result ctx.shape) memory m.memory
  finished : ∀ i < ctx.shape.m, ∀ j < ctx.shape.n, done i j →
    m.memory.read (elementAddress p.c ctx.shape.ldc i j) = .ok (p.sum ctx.shape mulAdd i j)
  initial : ∀ i < ctx.shape.m, ∀ j < ctx.shape.n, ¬done i j →
    m.memory.read (elementAddress p.c ctx.shape.ldc i j) = .ok (p.z i j)

/-- The tile pointers are at row `i` and column `j`. -/
structure At (p : Product) (shape : Shape) (i j : Nat) (m : Machine) : Prop where
  a : m.reg aTile = elementAddress p.a shape.lda i 0
  b : m.reg bTile = elementAddress p.b shape.ldb 0 j
  c : m.reg cTile = elementAddress p.c shape.ldc i j

variable {ctx : Context} {layout : Layout} {t : Tile} {m m' : Machine} {done done' : Nat → Nat → Prop}
  {i₀ j₀ : Nat}

theorem Done.congr (h : p.Done ctx mulAdd memory done m)
    (heq : ∀ i < ctx.shape.m, ∀ j < ctx.shape.n, done i j ↔ done' i j) :
    p.Done ctx mulAdd memory done' m :=
  ⟨h.plain, h.preloaded, h.writes, fun i hi j hj hd => h.finished i hi j hj ((heq i hi j hj).mpr hd),
    fun i hi j hj hd => h.initial i hi j hj fun hd' => hd ((heq i hi j hj).mp hd')⟩

/-- Code that writes nothing and leaves what was loaded beforehand makes no difference. -/
theorem Done.of_frame (h : p.Done ctx mulAdd memory done m) {q : Reg → Prop}
    (hframe : Frame (Touch.regs q) m m') (hpre : ∀ x ∈ ctx.plan.preloads, ¬q x.1) :
    p.Done ctx mulAdd memory done m' where
  plain := hframe.plain id h.plain
  preloaded x hx := (hframe.reg x.1 (hpre x hx)).trans (h.preloaded x hx)
  writes := h.writes.trans (hframe.memory.mono fun _ => False.elim)
  finished i hi j hj hd := (hframe.memory.read_eq id).trans (h.finished i hi j hj hd)
  initial i hi j hj hd := (hframe.memory.read_eq id).trans (h.initial i hi j hj hd)

theorem At.of_frame (h : p.At shape i₀ j₀ m) {touch : Touch} (hframe : Frame touch m m')
    (hnot : ∀ r ∈ [aTile, bTile, cTile], ¬touch.reg r) : p.At shape i₀ j₀ m' :=
  ⟨(hframe.reg _ (hnot _ (by decide))).trans h.a, (hframe.reg _ (hnot _ (by decide))).trans h.b,
    (hframe.reg _ (hnot _ (by decide))).trans h.c⟩

/-- Elements of a tile at the given place. -/
def Covers (t : Tile) (i₀ j₀ i j : Nat) : Prop :=
  (i₀ ≤ i ∧ i < i₀ + t.mt) ∧ j₀ ≤ j ∧ j < j₀ + t.nt

/-- What the code of tiles may change, given the scalar registers. -/
def touch (p : Product) (shape : Shape) (reg : Reg → Prop) : Touch where
  reg := reg
  vec _ := True
  predicate := True
  memory := p.Result shape

theorem Given.element_injective (h : p.Given shape memory) (hshape : shape.Valid) {i j i' j' : Nat}
    (hi : i < shape.m) (hj : j < shape.n) (hi' : i' < shape.m) (hj' : j' < shape.n)
    (heq : elementAddress p.c shape.ldc i j = elementAddress p.c shape.ldc i' j') :
    i = i' ∧ j = j' := by
  have hldc := hshape.m_le_ldc
  exact elementAddress_injective (by omega) (by omega) (h.last i hi j hj) (h.last i' hi' j' hj') heq

/-- A tile whose elements are not finished finishes them. -/
theorem Given.achieves_tile (hgiven : p.Given ctx.shape memory) (hctx : ctx.Fits layout)
    (ht : t.Fits ctx.shape layout) (hdone : p.Done ctx mulAdd memory done m)
    (hat : p.At ctx.shape i₀ j₀ m) (hrows : i₀ + t.mt ≤ ctx.shape.m)
    (hcolumns : j₀ + t.nt ≤ ctx.shape.n) (hfresh : ∀ i j, Covers t i₀ j₀ i j → ¬done i j) :
    AchievesWithin ctx.shape.k mulAdd (ctx.microkernel t) (p.touch ctx.shape (ctx.Uses t)) m
      (p.Done ctx mulAdd memory fun i j => done i j ∨ Covers t i₀ j₀ i j) := by
  have ha : ∀ i kk, elementAddress (m.reg aTile) ctx.shape.lda i kk =
      elementAddress p.a ctx.shape.lda (i₀ + i) kk := fun i kk => by
    rw [hat.a, elementAddress_elementAddress, Nat.zero_add]
  have hb : ∀ kk j, elementAddress (m.reg bTile) ctx.shape.ldb kk j =
      elementAddress p.b ctx.shape.ldb kk (j₀ + j) := fun kk j => by
    rw [hat.b, elementAddress_elementAddress, Nat.zero_add]
  have hc : ∀ i j, elementAddress (m.reg cTile) ctx.shape.ldc i j =
      elementAddress p.c ctx.shape.ldc (i₀ + i) (j₀ + j) := fun i j => by
    rw [hat.c, elementAddress_elementAddress]
  have hcovers : ∀ i < t.mt, ∀ j < t.nt, Covers t i₀ j₀ (i₀ + i) (j₀ + j) := fun i hi j hj =>
    ⟨⟨by omega, by omega⟩, by omega, by omega⟩
  -- an element that the tile does not cover is none of the words it writes
  have hothers : ∀ {m'}, Frame (ctx.tileTouch t (m.reg cTile)) m m' →
      ∀ i < ctx.shape.m, ∀ j < ctx.shape.n, ¬Covers t i₀ j₀ i j →
      m'.memory.read (elementAddress p.c ctx.shape.ldc i j) =
        m.memory.read (elementAddress p.c ctx.shape.ldc i j) := by
    intro m' hframe i hi j hj hnot
    refine hframe.memory.read_eq ?_
    rintro ⟨i', hi', j', hj', heq⟩
    rw [hc] at heq
    obtain ⟨rfl, rfl⟩ := hgiven.element_injective hctx.shape hi hj (by omega) (by omega) heq
    exact hnot (hcovers i' hi' j' hj')
  refine (hctx.achieves_microkernel ht hdone.plain hdone.preloaded
    (x := fun i kk => p.x (i₀ + i) kk) (y := fun kk j => p.y kk (j₀ + j))
    (z := fun i j => p.z (i₀ + i) (j₀ + j))
    ⟨fun i hi kk hkk => ?_, fun kk hkk j hj => ?_⟩ (fun i hi j hj => ?_) fun i hi j hj => ?_).mono
    ⟨fun _ => id, fun _ => id, id, id, ?_⟩ fun m' hframe hsum => ?_
  · rw [ha, hdone.writes.read_eq (hgiven.a_apart _ (by omega) _ hkk)]
    exact hgiven.a _ (by omega) _ hkk
  · rw [hb, hdone.writes.read_eq (hgiven.b_apart _ hkk _ (by omega))]
    exact hgiven.b _ hkk _ (by omega)
  · rw [hc]
    exact hdone.initial _ (by omega) _ (by omega) (hfresh _ _ (hcovers i hi j hj))
  · rw [hc, hdone.writes.writable_iff]
    exact hgiven.writable _ (by omega) _ (by omega)
  · rintro a ⟨i, hi, j, hj, rfl⟩
    exact ⟨i₀ + i, by omega, j₀ + j, by omega, hc i j⟩
  · refine ⟨hframe.plain id hdone.plain, hdone.preloaded.of_frame hctx ht hframe fun _ => id,
      hdone.writes.trans (hframe.memory.mono ?_), ?_, ?_⟩
    · rintro a ⟨i, hi, j, hj, rfl⟩
      exact ⟨i₀ + i, by omega, j₀ + j, by omega, hc i j⟩
    · intro i hi j hj hd
      by_cases hcover : Covers t i₀ j₀ i j
      · obtain ⟨⟨hi₀, hi₁⟩, hj₀, hj₁⟩ := hcover
        have := hsum (i - i₀) (by omega) (j - j₀) (by omega)
        simp only [hc, sumTo, Nat.add_sub_cancel' hi₀, Nat.add_sub_cancel' hj₀] at this
        exact this
      · rw [hothers hframe i hi j hj hcover]
        exact hdone.finished i hi j hj (hd.resolve_right hcover)
    · intro i hi j hj hd
      rw [hothers hframe i hi j hj fun hcover => hd (.inr hcover)]
      exact hdone.initial i hi j hj fun hd' => hd (.inl hd')

end Product

end HeliumKernels.Gemm
