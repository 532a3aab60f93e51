/-
  HeliumKernels.CommandLine.Command

  What the command line asks for: one kernel, how large its buffer is, and
  what to do with it.
-/
import HeliumKernels.Binary32.Decimal
import HeliumKernels.CommandLine.Arguments
import HeliumKernels.Gemm.Tiling

namespace HeliumKernels.CommandLine

/-- The kernel asked for. -/
inductive Job where
  | gemm (shape : Gemm.Shape) (tiling : Gemm.Tiling)
  | triad (scalar : UInt32)
  | stream (unroll : Nat)
  | peak (count : Nat)
  /-- The text of the constant is read when the kernel is generated. -/
  | constant (text : String) (float : Bool)
deriving DecidableEq, Repr

namespace Job

/-- Name of the kernel. -/
def name : Job → String
  | gemm .. => "gemm"
  | triad .. => "triad"
  | stream .. => "stream"
  | peak .. => "peak"
  | constant .. => "constant"

/-- Number an option gives, or its default. -/
def word? (a : Arguments) (name : String) (default : Nat) : Option Nat :=
  match a.value? name with
  | none => some default
  | some text => Integer.parseWord? text

/-- Number an option has to give. -/
def required? (a : Arguments) (name : String) : Option Nat := do
  Integer.parseWord? (← a.value? name)

/-- Matrix product of a given shape. -/
def gemm? (args : List String) : Option Job := do
  let a ← Grammar.parse?
    { options := ["-m", "-k", "-n", "--lda", "--ldb", "--ldc", "--tile-m", "--tile-n"]
      flags := [], plain := 0, commands := [] } args
  let m ← required? a "-m"
  let k ← required? a "-k"
  let n ← required? a "-n"
  let shape : Gemm.Shape :=
    { m, k, n, lda := ← word? a "--lda" m, ldb := ← word? a "--ldb" k, ldc := ← word? a "--ldc" m }
  let tiling : Gemm.Tiling := {}
  return .gemm shape
    { tiling with
      tileM := ← word? a "--tile-m" tiling.tileM
      tileN := ← word? a "--tile-n" tiling.tileN }

/-- Scalar of a triad unless told otherwise. -/
def defaultScalar : UInt32 := Binary32.ofRatio 3 1

/-- Triad with a given scalar. -/
def triad? (args : List String) : Option Job := do
  let a ← Grammar.parse?
    { options := ["--scalar"], flags := [], plain := 0, commands := [] } args
  match a.value? "--scalar" with
  | none => return .triad defaultScalar
  | some text => return .triad (← (Binary32.parse text).toOption)

/-- Sequential reads. -/
def stream? (args : List String) : Option Job := do
  let a ← Grammar.parse?
    { options := ["--unroll"], flags := [], plain := 0, commands := [] } args
  return .stream (← word? a "--unroll" 8)

/-- Chain of multiply-adds. -/
def peak? (args : List String) : Option Job := do
  let a ← Grammar.parse?
    { options := ["--fma-count"], flags := [], plain := 0, commands := [] } args
  return .peak (← word? a "--fma-count" 24)

/-- Constant function. -/
def constant? (args : List String) : Option Job := do
  let a ← Grammar.parse? { options := [], flags := ["--float"], plain := 1, commands := [] } args
  return .constant (← a.plain.head?) (a.has "--float")

/-- The kernel of a named command. -/
def ofCommand? (name : String) (args : List String) : Option Job :=
  match name with
  | "gemm" => gemm? args
  | "triad" => triad? args
  | "stream" => stream? args
  | "peak" => peak? args
  | "constant" => constant? args
  | _ => none

end Job

/-- A whole command line. -/
structure Command where
  /-- Half-words of the buffer. -/
  capacity : Nat
  /-- Print a listing. -/
  listing : Bool
  /-- Write an object file. -/
  objectPath? : Option String
  /-- Try the kernel on the simulated processor. -/
  verify : Bool
  job : Job
deriving DecidableEq, Repr

namespace Command

/-- Half-words of the buffer unless told otherwise. -/
def defaultCapacity : Nat := 4096

/-- Options that stand before the command. -/
def grammar : Grammar where
  options := ["--capacity", "--elf"]
  flags := ["--disasm", "--verify"]
  plain := 0
  commands := ["gemm", "triad", "stream", "peak", "constant"]

/-- Read a command line; `none` if it is not one. -/
def ofArguments? (args : List String) : Option Command := do
  let a ← grammar.parse? args
  let capacity ← match a.value? "--capacity" with
    | none => some defaultCapacity
    | some text => Integer.parseSize? text
  if a.value? "--elf" = some "" then none
  let (name, rest) ← a.command
  return { capacity
           listing := a.has "--disasm"
           objectPath? := a.value? "--elf"
           verify := a.has "--verify"
           job := ← Job.ofCommand? name rest }

end Command

end HeliumKernels.CommandLine
