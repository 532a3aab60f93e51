/-
  HeliumKernels.Gemm.Shape

  Problem shapes of `C += A * B` with column-major operands.  `A` is `m` by
  `k`, `B` is `k` by `n` and `C` is `m` by `n`; element `(i, j)` of a matrix
  with leading dimension `ld` is float number `i + j * ld`.
-/

namespace HeliumKernels.Gemm

/-- Dimensions and leading dimensions. -/
structure Shape where
  m : Nat
  k : Nat
  n : Nat
  lda : Nat
  ldb : Nat
  ldc : Nat
deriving DecidableEq, Repr

/-- Why a shape is refused. -/
inductive ShapeError where
  /-- A dimension is zero. -/
  | zero (name : String)
  /-- A leading dimension is smaller than the column it strides over. -/
  | short (name : String) (value : Nat) (rows : String) (count : Nat)
  /-- A dimension is too large. -/
  | large (name : String) (value : Nat)
deriving DecidableEq, Repr

namespace Shape

/-- Largest dimension or leading dimension. -/
def maxDimension : Nat := 16777216

/-- Shape of densely packed operands. -/
def packed (m k n : Nat) : Shape :=
  ⟨m, k, n, m, k, m⟩

/-- Floats spanned by `A`. -/
def aLen (s : Shape) : Nat := s.lda * s.k

/-- Floats spanned by `B`. -/
def bLen (s : Shape) : Nat := s.ldb * s.n

/-- Floats spanned by `C`. -/
def cLen (s : Shape) : Nat := s.ldc * s.n

/-- First reason to refuse the shape, if there is one: empty dimensions, then
    leading dimensions, then sizes. -/
def error? (s : Shape) : Option ShapeError :=
  let zero (name : String) (value : Nat) :=
    if value = 0 then some (ShapeError.zero name) else none
  let short (name : String) (value : Nat) (rows : String) (count : Nat) :=
    if value < count then some (ShapeError.short name value rows count) else none
  let large (name : String) (value : Nat) :=
    if maxDimension < value then some (ShapeError.large name value) else none
  zero "m" s.m <|> zero "k" s.k <|> zero "n" s.n <|>
  short "lda" s.lda "m" s.m <|> short "ldb" s.ldb "k" s.k <|> short "ldc" s.ldc "m" s.m <|>
  large "m" s.m <|> large "k" s.k <|> large "n" s.n <|>
  large "lda" s.lda <|> large "ldb" s.ldb <|> large "ldc" s.ldc

end Shape

/-- Wording of each cause. -/
def ShapeError.message : ShapeError → String
  | zero name => s!"{name} must be at least 1"
  | short name value rows count => s!"{name} = {value} is smaller than {rows} = {count}"
  | large name value => s!"{name} = {value} exceeds {Shape.maxDimension}"

end HeliumKernels.Gemm
