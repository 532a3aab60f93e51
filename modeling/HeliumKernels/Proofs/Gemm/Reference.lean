/-
  HeliumKernels.Proofs.Gemm.Reference

  What the plain product computes.  Its three loops add one term to one
  element at a time; `Summed` says how many terms each element has taken.
  At the end every element has taken all its terms, in their order, and
  nothing between the columns is different.
-/
import HeliumKernels.Binary32.Fused
import HeliumKernels.Gemm.Reference
import HeliumKernels.Proofs.Gemm.Depth

namespace HeliumKernels.Gemm.Reference

/-! ## Loops -/

/-- What every round of a loop carries on holds at its end. -/
theorem loop_invariant {σ : Type} {body : σ → Nat → Except Trap σ} {P : Nat → σ → Prop}
    {count first : Nat} {state : σ} (hstart : P first state)
    (hround : ∀ i state, i < first + count → P i state →
      ∃ state', body state i = .ok state' ∧ P (i + 1) state') :
    ∃ state', loop body count first state = .ok state' ∧ P (first + count) state' := by
  -- on the rounds that are left, with the first of them open
  induction count generalizing first state with
  | zero => exact ⟨state, rfl, hstart⟩
  | succ count ih =>
    obtain ⟨state₁, hbody, hnext⟩ := hround first state (by omega) hstart
    obtain ⟨state', hrest, hend⟩ := ih hnext fun i state hi => hround i state (by omega)
    refine ⟨state', ?_, ?_⟩
    · rw [loop, hbody]
      exact hrest
    · rwa [Nat.add_assoc, Nat.add_comm 1] at hend

/-! ## Elements -/

/-- Element `(i, j)` of a matrix stored by columns. -/
def entry (xs : Array UInt32) (ld i j : Nat) : UInt32 :=
  xs.getD (i + j * ld) 0

theorem index_lt {rows ld columns i j : Nat} (hi : i < rows) (hrows : rows ≤ ld)
    (hj : j < columns) : i + j * ld < ld * columns := by
  have hcolumn : (j + 1) * ld ≤ columns * ld := Nat.mul_le_mul_right ld hj
  rw [Nat.succ_mul] at hcolumn
  rw [Nat.mul_comm ld]
  omega

theorem getElem?_entry {xs : Array UInt32} {ld i j : Nat} (h : i + j * ld < xs.size) :
    xs[i + j * ld]? = some (entry xs ld i j) := by
  simp only [entry, Array.getD_eq_getD_getElem?, Array.getElem?_eq_getElem h, Option.getD_some]

theorem element_eq_ok {xs : Array UInt32} {t : Nat} {x : UInt32} (h : xs[t]? = some x) :
    element xs t = .ok x := by
  rw [element, h]

variable {mulAdd : MulAdd} {shape : Shape} {a b c c' : Array UInt32} {terms : Nat → Nat → Nat}
  {i j kk : Nat}

/-- The operands are as long as the shape says. -/
structure Spans (shape : Shape) (a b c : Array UInt32) : Prop where
  a : shape.aLen ≤ a.size
  b : shape.bLen ≤ b.size
  c : shape.cLen ≤ c.size

/-- Each element of `C` has taken so many of its terms, and nothing else is
    different. -/
structure Summed (mulAdd : MulAdd) (shape : Shape) (a b initial : Array UInt32)
    (terms : Nat → Nat → Nat) (sums : Array UInt32) : Prop where
  size : sums.size = initial.size
  elements : ∀ i < shape.m, ∀ j < shape.n, sums[i + j * shape.ldc]? =
    some (sumTo mulAdd (entry a shape.lda) (entry b shape.ldb) (entry initial shape.ldc)
      (terms i j) i j)
  others : ∀ t, (∀ i < shape.m, ∀ j < shape.n, t ≠ i + j * shape.ldc) → sums[t]? = initial[t]?

theorem Summed.congr {terms' : Nat → Nat → Nat} (h : Summed mulAdd shape a b c terms c')
    (heq : ∀ i < shape.m, ∀ j, terms i j = terms' i j) : Summed mulAdd shape a b c terms' c' where
  size := h.size
  elements i hi j hj := by rw [h.elements i hi j hj, heq i hi j]
  others := h.others

/-- Before the first term. -/
theorem Spans.summed (h : Spans shape a b c) (hshape : shape.Valid) :
    Summed mulAdd shape a b c (fun _ _ => 0) c where
  size := rfl
  elements i hi j hj := by
    have hlt := index_lt hi hshape.m_le_ldc hj
    have hsize := h.c
    rw [Shape.cLen] at hsize
    exact getElem?_entry (by omega)
  others _ _ := rfl

/-! ## One term -/

/-- Terms taken when the loops stand at column `j`, term `kk` and row `i`. -/
def taken (k j kk i : Nat) (i' j' : Nat) : Nat :=
  if j' < j then k else if j' = j then (if i' < i then kk + 1 else kk) else 0

/-- One round of the innermost loop. -/
theorem Summed.addTerm (h : Summed mulAdd shape a b c (taken shape.k j kk i) c')
    (hspans : Spans shape a b c) (hshape : shape.Valid) (hi : i < shape.m) (hj : j < shape.n)
    (hkk : kk < shape.k) :
    ∃ c'', Reference.addTerm mulAdd shape a j kk (entry b shape.ldb kk j) c' i = .ok c'' ∧
      Summed mulAdd shape a b c (taken shape.k j kk (i + 1)) c'' := by
  have ha := index_lt hi hshape.m_le_lda hkk
  have hc := index_lt hi hshape.m_le_ldc hj
  have hsizeA := hspans.a
  have hsizeC := hspans.c
  have hsize := h.size
  rw [Shape.aLen] at hsizeA
  rw [Shape.cLen] at hsizeC
  have hsum := h.elements i hi j hj
  have htaken : taken shape.k j kk i i j = kk := by simp [taken]
  have hnext : taken shape.k j kk (i + 1) i j = kk + 1 := by simp [taken]
  rw [htaken] at hsum
  refine ⟨c'.setIfInBounds (i + j * shape.ldc) (mulAdd (entry a shape.lda i kk)
    (entry b shape.ldb kk j) (sumTo mulAdd (entry a shape.lda) (entry b shape.ldb)
    (entry c shape.ldc) kk i j)), ?_, ?_, fun i' hi' j' hj' => ?_, fun t ht => ?_⟩
  · rw [Reference.addTerm, element_eq_ok hsum, element_eq_ok (getElem?_entry (by omega))]
    rfl
  · rw [Array.size_setIfInBounds, h.size]
  · -- only the element at hand takes a term
    by_cases hsame : i' = i ∧ j' = j
    · obtain ⟨rfl, rfl⟩ := hsame
      rw [Array.getElem?_setIfInBounds_self_of_lt (by omega), hnext]
      rfl
    · have hne : i + j * shape.ldc ≠ i' + j' * shape.ldc := fun heq => by
        have hldc := hshape.m_le_ldc
        obtain ⟨rfl, rfl⟩ := index_injective (by omega) (by omega) heq
        exact hsame ⟨rfl, rfl⟩
      have hterms : taken shape.k j kk (i + 1) i' j' = taken shape.k j kk i i' j' := by
        grind [taken]
      rw [Array.getElem?_setIfInBounds_ne hne, h.elements i' hi' j' hj', hterms]
  · rw [Array.getElem?_setIfInBounds_ne (ht i hi j hj).symm, h.others t ht]

/-! ## All terms -/

/-- One round of the middle loop: a term for every row. -/
theorem Summed.addColumn (h : Summed mulAdd shape a b c (taken shape.k j kk 0) c')
    (hspans : Spans shape a b c) (hshape : shape.Valid) (hj : j < shape.n) (hkk : kk < shape.k) :
    ∃ c'', Reference.addColumn mulAdd shape a b j c' kk = .ok c'' ∧
      Summed mulAdd shape a b c (taken shape.k j (kk + 1) 0) c'' := by
  have hb := index_lt hkk hshape.k_le_ldb hj
  have hsizeB := hspans.b
  rw [Shape.bLen] at hsizeB
  obtain ⟨c'', hloop, hsummed⟩ : ∃ c'', loop _ shape.m 0 c' = .ok c'' ∧ _ := loop_invariant
    (P := fun i c' => Summed mulAdd shape a b c (taken shape.k j kk i) c') h
    fun i c' hi h => h.addTerm hspans hshape (by omega) hj hkk
  refine ⟨c'', ?_, hsummed.congr fun i hi j' => ?_⟩
  · rw [Reference.addColumn, element_eq_ok (getElem?_entry (by omega))]
    exact hloop
  · simp [taken, hi]

/-- One round of the outer loop: all terms of a column. -/
theorem Summed.column (h : Summed mulAdd shape a b c (taken shape.k j 0 0) c')
    (hspans : Spans shape a b c) (hshape : shape.Valid) (hj : j < shape.n) :
    ∃ c'', loop (Reference.addColumn mulAdd shape a b j) shape.k 0 c' = .ok c'' ∧
      Summed mulAdd shape a b c (taken shape.k (j + 1) 0 0) c'' := by
  obtain ⟨c'', hloop, hsummed⟩ : ∃ c'', loop _ shape.k 0 c' = .ok c'' ∧ _ := loop_invariant
    (P := fun kk c' => Summed mulAdd shape a b c (taken shape.k j kk 0) c') h
    fun kk c' hkk h => h.addColumn hspans hshape hj (by omega)
  refine ⟨c'', hloop, hsummed.congr fun i hi j' => ?_⟩
  grind [taken]

/-- The plain product gives every element the sum of its terms, in their
    order, and leaves everything between the columns. -/
theorem exists_gemm_eq (mulAdd : MulAdd) (hspans : Spans shape a b c) (hshape : shape.Valid) :
    ∃ c', gemm mulAdd shape a b c = .ok c' ∧
      Summed mulAdd shape a b c (fun _ _ => shape.k) c' := by
  have hstart : Summed mulAdd shape a b c (taken shape.k 0 0 0) c :=
    (hspans.summed hshape).congr fun i hi j => by simp [taken]
  obtain ⟨c', hloop, hsummed⟩ : ∃ c', loop _ shape.n 0 c = .ok c' ∧ _ := loop_invariant
    (P := fun j c' => Summed mulAdd shape a b c (taken shape.k j 0 0) c') hstart
    fun j c' hj h => h.column hspans hshape (by omega)
  have hm := hshape.m_pos
  have hk := hshape.k_pos
  have hlong : ¬(a.size < shape.aLen ∨ b.size < shape.bLen ∨ c.size < shape.cLen) := by
    have := hspans.a
    have := hspans.b
    have := hspans.c
    omega
  refine ⟨c', ?_, hsummed.size, fun i hi j hj => ?_, hsummed.others⟩
  · rw [gemm, if_neg hlong, if_neg (by omega)]
    exact hloop
  · rw [hsummed.elements i hi j hj, taken, if_pos (by omega)]

/-! ## Element by element -/

theorem accumulate_eq_foldl (mulAdd : MulAdd) (x y : Nat → UInt32) (initial : UInt32) (k : Nat) :
    accumulate mulAdd x y initial k =
      (List.range k).foldl (fun sum kk => mulAdd (x kk) (y kk) sum) initial := by
  induction k with
  | zero => rfl
  | succ k ih => rw [accumulate, ih, List.range_succ, List.foldl_append, List.foldl_cons,
      List.foldl_nil]

/-- For every accepted shape and operands that are long enough the plain product is defined.  It
    folds the terms of each element into it, in the order of the inner dimension, and changes
    nothing else: neither the rows between the matrix and its leading dimension nor what lies
    behind the last column. -/
theorem gemm_entrywise {initial : Array UInt32} (hshape : shape.error? = none)
    (hspans : Spans shape a b initial) (mulAdd : MulAdd) :
    ∃ sums, gemm mulAdd shape a b initial = .ok sums ∧ sums.size = initial.size ∧
      (∀ i < shape.m, ∀ j < shape.n, sums[i + j * shape.ldc]? =
        some ((List.range shape.k).foldl
          (fun sum kk => mulAdd (entry a shape.lda i kk) (entry b shape.ldb kk j) sum)
          (entry initial shape.ldc i j))) ∧
      ∀ t, (∀ i < shape.m, ∀ j < shape.n, t ≠ i + j * shape.ldc) →
        sums[t]? = initial[t]? := by
  obtain ⟨sums, hgemm, hsummed⟩ := exists_gemm_eq mulAdd hspans (Shape.valid_of_error? hshape)
  refine ⟨sums, hgemm, hsummed.size, fun i hi j hj => ?_, hsummed.others⟩
  rw [hsummed.elements i hi j hj, sumTo, accumulate_eq_foldl]

/-- One row in columns of three, and a float behind the last column: the two elements take their
    two terms each, the rest stays. -/
theorem gemm_entrywise_padded :
    let shape : Shape := ⟨1, 2, 2, 2, 3, 3⟩
    let a := #[0x40000000, 0xBF800000, 0x3F800000, 0xBF800000]
    let b := #[0x40400000, 0x40A00000, 0xBF800000, 0x40800000, 0x40C00000, 0xBF800000]
    let initial :=
      #[0x3F800000, 0x41100000, 0x41100000, 0x3F800000, 0x41100000, 0x41100000, 0x40E00000]
    ∃ sums, gemm Binary32.mulAdd shape a b initial = .ok sums ∧
      sums[0]? = some 0x41400000 ∧ sums[3]? = some 0x41700000 ∧ sums[1]? = some 0x41100000 ∧
      sums[6]? = some 0x40E00000 := by
  intro shape a b initial
  have hspans : Spans shape a b initial := ⟨by decide, by decide, by decide⟩
  obtain ⟨sums, hgemm, -, helements, hothers⟩ := gemm_entrywise rfl hspans Binary32.mulAdd
  refine ⟨sums, hgemm, (helements 0 (by decide) 0 (by decide)).trans ?_,
    (helements 0 (by decide) 1 (by decide)).trans ?_, (hothers 1 (by decide)).trans rfl,
    (hothers 6 (by decide)).trans rfl⟩
  · decide +kernel
  · decide +kernel

end HeliumKernels.Gemm.Reference
