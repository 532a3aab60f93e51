/-
  HeliumKernels.CommandLine.Session

  What a command does, as a list of effects for the outer layer to carry out
  and an exit code.  An error ends the session; what was printed before stays.
-/
import HeliumKernels.Binary32.Fused
import HeliumKernels.CommandLine.Command
import HeliumKernels.Gemm.Reference
import HeliumKernels.Kernel.Request
import HeliumKernels.Machine.Trial
import HeliumKernels.Object.Elf
import HeliumKernels.Sample

namespace HeliumKernels.CommandLine

/-- Something the outer world sees. -/
inductive Effect where
  /-- A line on standard output. -/
  | output (line : String)
  /-- A line on standard error. -/
  | diagnostic (line : String)
  /-- A file. -/
  | write (path : String) (bytes : List UInt8)
deriving DecidableEq, Repr

/-- Effects in order and the exit code. -/
structure Outcome where
  effects : List Effect
  exit : Nat
deriving DecidableEq, Repr

/-- Why a session ends early. -/
inductive Failure where
  | error (text : String)
  | trap (cause : Trap)
deriving DecidableEq, Repr

/-- A computation with effects that may end early. -/
abbrev Session := EStateM Failure (Array Effect)

namespace Session

/-- Have an effect. -/
def perform (effect : Effect) : Session Unit :=
  modify fun effects => effects.push effect

/-- Print a line. -/
def print (line : String) : Session Unit :=
  perform (.output line)

/-- End with an error. -/
def fail {α : Type} (text : String) : Session α :=
  throw (.error text)

/-- A value, or the end of the session by a trap. -/
def checked {α : Type} : Except Trap α → Session α
  | .ok value => pure value
  | .error cause => throw (.trap cause)

end Session

open Session

/-! ## Errors in detail -/

/-- Name and fields of an error. -/
def record (name : String) (fields : List (String × String)) : String :=
  let body := ", ".intercalate (fields.map fun (field, value) => field ++ ": " ++ value)
  name ++ " \x7b " ++ body ++ " \x7d"

/-- Text between quotes. -/
def quoted (text : String) : String :=
  "\"" ++ text ++ "\""

/-- An unusable buffer in detail. -/
def bufferDetail : BufferError → String
  | .tooSmall capacity minimum =>
    record "BufferTooSmall" [("capacity", toString capacity), ("minimum", toString minimum)]

/-- An unreadable integer in detail. -/
def integerDetail (e : IntegerError) : String :=
  let kind := match e with
    | .empty => "Empty"
    | .invalidDigit => "InvalidDigit"
    | .positiveOverflow => "PosOverflow"
    | .negativeOverflow => "NegOverflow"
  record "ParseIntError" [("kind", kind)]

/-- An unreadable decimal in detail. -/
def decimalDetail (e : Binary32.DecimalError) : String :=
  let kind := match e with
    | .empty => "Empty"
    | .invalid => "Invalid"
  record "ParseFloatError" [("kind", kind)]

/-- A memory error in detail. -/
def memoryDetail : MemoryError → String
  | .unmapped address size access =>
    record "Unmapped" [("address", toString address.toNat), ("size", toString size),
      ("access", quoted access)]
  | .unaligned address size =>
    record "Unaligned" [("address", toString address.toNat), ("size", toString size)]
  | .readOnly address => record "ReadOnly" [("address", toString address.toNat)]
  | .overlap base size =>
    record "Overlap" [("base", toString base.toNat), ("len", toString size)]

/-- A decoding error in detail. -/
def decodeDetail : DecodeError → String
  | .undefinedNarrow hw1 => record "UndefinedNarrow" [("hw1", toString hw1.toNat)]
  | .undefinedWide hw1 hw2 =>
    record "UndefinedWide" [("hw1", toString hw1.toNat), ("hw2", toString hw2.toNat)]
  | .truncated hw1 => record "Truncated" [("hw1", toString hw1.toNat)]
  | .empty => "Empty"

/-- An error of the simulated processor in detail. -/
def machineDetail : MachineError → String
  | .undefined address cause =>
    record "Undefined" [("address", toString address.toNat), ("source", decodeDetail cause)]
  | .pcOutOfRange address => record "PcOutOfRange" [("address", toString address.toNat)]
  | .memory cause => memoryDetail cause
  | .stepLimit limit => record "StepLimit" [("limit", toString limit)]
  | .vptBlock address op =>
    record "VptBlock" [("address", toString address.toNat), ("op", quoted op)]
  | .armState target => record "ArmState" [("target", toString target.toNat)]
  | .unsupported address what =>
    record "Unsupported" [("address", toString address.toNat), ("what", quoted what)]

/-! ## Steps of a session -/

/-- The request a job stands for. -/
def Job.request : Job → Session Request
  | .gemm shape tiling => return .gemm tiling none shape
  | .triad scalar => return .triad scalar
  | .stream unroll => return .stream unroll
  | .peak count => return .peak count
  | .constant text true =>
    match Binary32.parse text with
    | .ok bits => return .constantFloat bits
    | .error e => fail (decimalDetail e)
  | .constant text false =>
    match Integer.parseInt32 text with
    | .ok value => return .constant (UInt32.ofInt value)
    | .error e => fail (integerDetail e)

/-- Generate the kernel.  The buffer is looked at before the text of a constant. -/
def generate (c : Command) : Session Kernel := do
  match ← checked (Buffer.allocate c.capacity) with
  | .error e => fail (bufferDetail e)
  | .ok buffer =>
    let request ← c.job.request
    let buffer ← checked (buffer.fulfil request)
    return buffer.kernel

/-- The result of a trial, or the end of the session. -/
def trialResult {α : Type} : Except Halt α → Session α
  | .ok value => pure value
  | .error (.error e) => fail (machineDetail e)
  | .error (.trap cause) => throw (.trap cause)

/-- Number of places in which two operands differ. -/
def mismatches (xs ys : Array UInt32) : Nat :=
  (xs.zip ys).countP fun (x, y) => x != y

/-- Compare a trial of a matrix kernel with the reference. -/
def verifyGemm (code : Array UInt16) (shape : Gemm.Shape) : Session Unit := do
  let a ← checked (Sample.operand shape.aLen 1)
  let b ← checked (Sample.operand shape.bLen 2)
  let c ← checked (Sample.operand shape.cLen 3)
  let trial ← trialResult
    (Trial.gemm Binary32.mulAdd Machine.defaultStepLimit code shape a b c)
  let expected ← checked (Gemm.Reference.gemm Binary32.mulAdd shape a b c)
  let wrong := mismatches trial.c expected
  let canary := if trial.canaryIntact then "intact" else "clobbered"
  let saved := if trial.calleeSavedIntact then "restored" else "clobbered"
  print s!"verify: {trial.steps} instructions, {wrong} mismatches, canary {canary}, callee-saved {saved}"
  if 0 < wrong || !trial.canaryIntact || !trial.calleeSavedIntact then
    fail (quoted "simulated kernel disagrees with the reference")

/-- Compare a trial of a triad kernel with its definition. -/
def verifyTriad (code : Array UInt16) (scalar : UInt32) : Session Unit := do
  let count := 37
  let a := Sample.dyadic count 4
  let b := Sample.dyadic count 5
  let found ← trialResult (Trial.triad Binary32.mulAdd Machine.defaultStepLimit code a b count)
  let expected := Array.zipWith (fun x y => Binary32.mulAdd x scalar y) a b
  let good := (found.zip expected).all fun (x, y) => Binary32.eq x y
  let verdict := if good then "ok" else "wrong"
  print s!"verify: triad over {count} elements {verdict}"
  if !good then
    fail (quoted "simulated triad disagrees with the reference")

/-- Try the kernel, if trials of its kind are known. -/
def Job.verify (code : Array UInt16) : Job → Session Unit
  | .gemm shape _ => verifyGemm code shape
  | .triad scalar => verifyTriad code scalar
  | _ => pure ()

/-- Carry out a command; gives the exit code. -/
def Command.run (c : Command) : Session Nat := do
  let kernel ← generate c
  for fault in kernel.faults do
    perform (.diagnostic s!"fault: {fault.message}")
  print s!"{c.job.name}: {kernel.byteSize} bytes"
  if c.listing then
    for line in ← checked (Listing.texts kernel.code.toList) do
      print line
  if let some path := c.objectPath? then
    let bytes ← checked (Object.Elf.ofFunctions [⟨c.job.name, kernel.code.toList⟩])
    perform (.write path bytes)
    print s!"wrote {path}"
  if c.verify then
    c.job.verify kernel.code
  return if kernel.hasFatalFault then 1 else 0

/-- Exit code of a command line that is not one. -/
def usageExit : Nat := 2

/-- Exit code after an error. -/
def errorExit : Nat := 1

/-- Exit code after a trap. -/
def trapExit : Nat := 101

/-- Line that reports the error a session ends with. -/
def Effect.error (text : String) : Effect :=
  .diagnostic s!"Error: {text}"

/-- What a command line does. -/
def outcome (args : List String) : Outcome :=
  match Command.ofArguments? args with
  | none => ⟨[], usageExit⟩
  | some command =>
    match command.run #[] with
    | .ok exit effects => ⟨effects.toList, exit⟩
    | .error (.error text) effects =>
      ⟨(effects.push (.error text)).toList, errorExit⟩
    | .error (.trap _) effects => ⟨effects.toList, trapExit⟩

end HeliumKernels.CommandLine
