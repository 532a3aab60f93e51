/-
  HeliumKernels.CommandLine.WriteError

  Why a file cannot be written, and how the diagnostic of a command that
  failed on it spells the cause.
-/
import HeliumKernels.CommandLine.Session

namespace HeliumKernels.CommandLine

/-- Why a file cannot be written. -/
inductive WriteError where
  | notFound
  | permissionDenied
  | notDirectory
  | isDirectory
  | noSpace
  | readOnly
  | nameTooLong
deriving DecidableEq, Repr

namespace WriteError

/-- All causes. -/
def all : List WriteError :=
  [notFound, permissionDenied, notDirectory, isDirectory, noSpace, readOnly, nameTooLong]

/-- Error number of the operating system. -/
def code : WriteError → Nat
  | notFound => 2
  | permissionDenied => 13
  | notDirectory => 20
  | isDirectory => 21
  | noSpace => 28
  | readOnly => 30
  | nameTooLong => 36

/-- The cause with an error number. -/
def ofCode? (code : Nat) : Option WriteError :=
  all.find? fun e => e.code == code

/-- Name of each cause. -/
def kind : WriteError → String
  | notFound => "NotFound"
  | permissionDenied => "PermissionDenied"
  | notDirectory => "NotADirectory"
  | isDirectory => "IsADirectory"
  | noSpace => "StorageFull"
  | readOnly => "ReadOnlyFilesystem"
  | nameTooLong => "InvalidFilename"

/-- Wording of each cause. -/
def message : WriteError → String
  | notFound => "No such file or directory"
  | permissionDenied => "Permission denied"
  | notDirectory => "Not a directory"
  | isDirectory => "Is a directory"
  | noSpace => "No space left on device"
  | readOnly => "Read-only file system"
  | nameTooLong => "File name too long"

/-- The cause in detail. -/
def detail (e : WriteError) : String :=
  record "Os" [("code", toString e.code), ("kind", e.kind), ("message", quoted e.message)]

end WriteError

end HeliumKernels.CommandLine
