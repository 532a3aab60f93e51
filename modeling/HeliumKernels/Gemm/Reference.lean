/-
  HeliumKernels.Gemm.Reference

  The product `C += A * B` in its plainest form.  Each element of `C` takes
  its terms in the order of the inner dimension, one multiply-add per term.
-/
import HeliumKernels.Binary32
import HeliumKernels.Gemm.Shape
import HeliumKernels.Trap

namespace HeliumKernels.Gemm.Reference

/-- Element `i` of an operand. -/
@[inline] def element (xs : Array UInt32) (i : Nat) : Except Trap UInt32 :=
  match xs[i]? with
  | some x => .ok x
  | none => .error .outOfBounds

/-- Add the term of `A(i, kk)` and a scalar to `C(i, j)`. -/
@[inline] def addTerm (mulAdd : MulAdd) (shape : Shape) (a : Array UInt32)
    (j kk : Nat) (scalar : UInt32) (c : Array UInt32) (i : Nat) : Except Trap (Array UInt32) := do
  let acc ← element c (i + j * shape.ldc)
  let x ← element a (i + kk * shape.lda)
  return c.setIfInBounds (i + j * shape.ldc) (mulAdd x scalar acc)

/-- Take `body` through `count` indices from `first` on. -/
@[specialize] def loop {σ : Type} (body : σ → Nat → Except Trap σ) : Nat → Nat → σ → Except Trap σ
  | 0, _, state => .ok state
  | count + 1, first, state => do loop body count (first + 1) (← body state first)

/-- Add the terms of `B(kk, j)` to column `j`. -/
def addColumn (mulAdd : MulAdd) (shape : Shape) (a b : Array UInt32)
    (j : Nat) (c : Array UInt32) (kk : Nat) : Except Trap (Array UInt32) := do
  let scalar ← element b (kk + j * shape.ldb)
  loop (addTerm mulAdd shape a j kk scalar) shape.m 0 c

/-- Add the terms of all columns. -/
def addColumns (mulAdd : MulAdd) (shape : Shape) (a b c : Array UInt32) :
    Except Trap (Array UInt32) :=
  loop (fun c j => loop (addColumn mulAdd shape a b j) shape.k 0 c) shape.n 0 c

/-- Index behind the last element of `B` that the columns look at. -/
def scalarLimit (shape : Shape) : Nat :=
  if shape.k = 0 ∨ shape.n = 0 then 0 else shape.k + (shape.n - 1) * shape.ldb

/-- `C += A * B`.  Operands shorter than the shape says are refused.  Columns
    without rows or without terms change nothing: of them only the extent in
    `B` matters. -/
def gemm (mulAdd : MulAdd) (shape : Shape) (a b c : Array UInt32) :
    Except Trap (Array UInt32) :=
  if a.size < shape.aLen ∨ b.size < shape.bLen ∨ c.size < shape.cLen then .error .outOfBounds
  else if shape.m = 0 ∨ shape.k = 0 then
    if scalarLimit shape ≤ b.size then .ok c else .error .outOfBounds
  else addColumns mulAdd shape a b c

end HeliumKernels.Gemm.Reference
