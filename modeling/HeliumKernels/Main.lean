/-
  HeliumKernels.Main

  The command line tool: carries out the effects of a command in order.
-/
import HeliumKernels.CommandLine.WriteError

namespace HeliumKernels.CommandLine

/-- Carry out one effect. -/
def Effect.perform : Effect → IO Unit
  | output line => IO.println line
  | diagnostic line => IO.eprintln line
  | write path bytes => IO.FS.withFile path .write fun file => do
    file.write ⟨bytes.toArray⟩
    file.flush

/-- Cause of a write that failed, if it is one that is known. -/
def writeError? : IO.Error → Option WriteError
  | .noFileOrDirectory _ code _ | .permissionDenied _ code _ | .inappropriateType _ code _
  | .resourceExhausted _ code _ | .invalidArgument _ code _ | .otherError code _ =>
    WriteError.ofCode? code.toNat
  | _ => none

/-- Carry out an outcome; an effect that fails ends it. -/
def Outcome.perform (o : Outcome) : IO UInt32 := do
  try
    o.effects.forM Effect.perform
    return UInt32.ofNat o.exit
  catch e =>
    (Effect.error (((writeError? e).map WriteError.detail).getD (toString e))).perform
    return UInt32.ofNat errorExit

end HeliumKernels.CommandLine

/-- Generate one kernel, as the arguments say. -/
def main (args : List String) : IO UInt32 :=
  (HeliumKernels.CommandLine.outcome args).perform
