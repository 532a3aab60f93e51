import HeliumKernels.Trap
import HeliumKernels.Numeral
import HeliumKernels.Register.Basic
import HeliumKernels.Register.Set
import HeliumKernels.Instruction.Constant
import HeliumKernels.Instruction.Basic
import HeliumKernels.Instruction.Word
import HeliumKernels.Instruction.Encode
import HeliumKernels.Operation.Basic
import HeliumKernels.Operation.Decode
import HeliumKernels.Operation.Listing
import HeliumKernels.Assembly.Fault
import HeliumKernels.Assembly.Buffer
import HeliumKernels.Assembly.Script
import HeliumKernels.Kernel.Sequence
import HeliumKernels.Kernel.Constant
import HeliumKernels.Kernel.Triad
import HeliumKernels.Kernel.Stream
import HeliumKernels.Kernel.Peak
import HeliumKernels.Kernel.Request
import HeliumKernels.Gemm.Shape
import HeliumKernels.Gemm.Tiling
import HeliumKernels.Gemm.Plan
import HeliumKernels.Gemm.Microkernel
import HeliumKernels.Gemm.Kernel
import HeliumKernels.Bytes
import HeliumKernels.Binary32
import HeliumKernels.Machine.Memory
import HeliumKernels.Machine.Basic
import HeliumKernels.Machine.Step
import HeliumKernels.Gemm.Reference
import HeliumKernels.Sample
import HeliumKernels.Machine.Trial
import HeliumKernels.Object.Format
import HeliumKernels.Object.Names
import HeliumKernels.Object.Elf
import HeliumKernels.Integer
import HeliumKernels.Binary32.Decimal
import HeliumKernels.Binary32.Fused
import HeliumKernels.CommandLine.Arguments
import HeliumKernels.CommandLine.Command
import HeliumKernels.CommandLine.Session
import HeliumKernels.CommandLine.WriteError
import HeliumKernels.Main
import HeliumKernels.Proofs.Encoding.Constant
import HeliumKernels.Proofs.Encoding.Operand
import HeliumKernels.Proofs.Gemm.Tiling
import HeliumKernels.Proofs.Encoding.Scalar
import HeliumKernels.Proofs.Encoding.Control
import HeliumKernels.Proofs.Encoding.Vector
import HeliumKernels.Proofs.Encoding.RoundTrip
import HeliumKernels.Proofs.Assembly.Spelling
import HeliumKernels.Proofs.Assembly.Invariant
import HeliumKernels.Proofs.Assembly.Landing
import HeliumKernels.Proofs.Assembly.Layout
import HeliumKernels.Proofs.Assembly.Capacity
import HeliumKernels.Proofs.Assembly.Ledger
import HeliumKernels.Proofs.Assembly.Agreement
import HeliumKernels.Proofs.Assembly.Scope
import HeliumKernels.Proofs.Assembly.Tame
import HeliumKernels.Proofs.Assembly.Exposure
import HeliumKernels.Proofs.Machine.Composition
import HeliumKernels.Proofs.Machine.Limit
import HeliumKernels.Proofs.Machine.Memory
import HeliumKernels.Proofs.Machine.Effect
import HeliumKernels.Proofs.Machine.Stack
import HeliumKernels.Proofs.Machine.Execution
import HeliumKernels.Proofs.Machine.Structured
import HeliumKernels.Proofs.Machine.Frame
import HeliumKernels.Proofs.Machine.Straight
import HeliumKernels.Proofs.Machine.Duration
import HeliumKernels.Proofs.Kernel.Emit
import HeliumKernels.Proofs.Gemm.Plan
import HeliumKernels.Proofs.Kernel.Sequence
import HeliumKernels.Proofs.Gemm.Tile
import HeliumKernels.Proofs.Gemm.Columns
import HeliumKernels.Proofs.Gemm.Depth
import HeliumKernels.Proofs.Gemm.Extent
import HeliumKernels.Proofs.Gemm.Microkernel
import HeliumKernels.Proofs.Gemm.Product
import HeliumKernels.Proofs.Gemm.Loops
import HeliumKernels.Proofs.Gemm.Kernel
import HeliumKernels.Proofs.Gemm.Reference
import HeliumKernels.Proofs.Machine.Mapping
import HeliumKernels.Proofs.Machine.ByteMap
import HeliumKernels.Proofs.Machine.Condition
import HeliumKernels.Proofs.Machine.Trial
import HeliumKernels.Proofs.Gemm.EndToEnd
import HeliumKernels.Proofs.Gemm.Isolation
import HeliumKernels.Proofs.Gemm.WellFormed
import HeliumKernels.Proofs.Kernel.Request
import HeliumKernels.Proofs.Gemm.Faults
import HeliumKernels.Proofs.Gemm.Allocation
import HeliumKernels.Proofs.Gemm.Coverage
import HeliumKernels.Proofs.Gemm.TileCode
import HeliumKernels.Proofs.Gemm.Nest
import HeliumKernels.Proofs.Assembly.Guarded
import HeliumKernels.Proofs.Assembly.Span
import HeliumKernels.Proofs.Machine.LowOverhead
import HeliumKernels.Proofs.Kernel.Constant
import HeliumKernels.Proofs.Kernel.Bracket
import HeliumKernels.Proofs.Kernel.Looped
import HeliumKernels.Proofs.Kernel.Triad
import HeliumKernels.Proofs.Kernel.Stream
import HeliumKernels.Proofs.Kernel.Peak
import HeliumKernels.Proofs.Object.Storage
import HeliumKernels.Proofs.Object.Layout
import HeliumKernels.Proofs.Operation.Listing
import HeliumKernels.Proofs.Machine.Iteration
import HeliumKernels.Proofs.Machine.Hazard
