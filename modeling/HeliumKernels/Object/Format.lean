/-
  HeliumKernels.Object.Format

  Object files of functions.  A format brings along how data is added to a
  code section and how the section and its symbols are written to a file;
  what is stored, and under which symbols, is settled here.  Functions follow
  each other at word boundaries.  Each has a mapping symbol that marks it as
  Thumb code and a symbol of its own whose value carries the Thumb bit.
-/
import HeliumKernels.Bytes
import HeliumKernels.Trap

namespace HeliumKernels.Object

/-- A function to store. -/
structure Function where
  name : String
  code : List UInt16
deriving DecidableEq, Repr

/-- What a symbol stands for. -/
inductive SymbolKind where
  /-- A place in the code. -/
  | label
  /-- A function. -/
  | text
deriving DecidableEq, Repr

/-- Where a symbol can be referred to. -/
inductive SymbolScope where
  /-- In its own file. -/
  | compilation
  /-- In all files that are linked together. -/
  | linkage
deriving DecidableEq, Repr

/-- A symbol of the code section. -/
structure Symbol where
  name : List UInt8
  value : Nat
  size : Nat
  kind : SymbolKind
  scope : SymbolScope
deriving DecidableEq, Repr

namespace Symbol

/-- Mark the code from `offset` on as Thumb code. -/
def mapping (offset : Nat) : Symbol :=
  ⟨Bytes.ofText "$t", offset, 0, .label, .compilation⟩

/-- Symbol of a function; the lowest bit of its value selects the Thumb state. -/
def function (name : String) (offset size : Nat) : Symbol :=
  ⟨Bytes.ofText name, offset ||| 1, size, .text, .linkage⟩

end Symbol

/-- A format of object files with one code section. -/
structure Format where
  /-- Code sections that are being filled. -/
  Text : Type
  /-- A code section without data. -/
  empty : Text
  /-- What a code section holds. -/
  bytes : Text → List UInt8
  /-- Add data at the next multiple of an alignment; gives the place of the data too. -/
  append : Text → (data : List UInt8) → (alignment : Nat) → Text × Nat
  /-- File with the given processor flags, code section and symbols. -/
  write : (flags : Nat) → Text → List Symbol → Except Trap (List UInt8)

/-- Functions start at multiples of this. -/
def functionAlignment : Nat := 4

/-- Processor flags: version five of the binary interface. -/
def interfaceFlags : Nat := 0x05000000

/-- An object file in the making. -/
structure Draft (F : Format) where
  text : F.Text
  symbols : List Symbol

namespace Draft

variable {F : Format}

/-- No functions. -/
def empty : Draft F := ⟨F.empty, []⟩

def addSymbol (d : Draft F) (s : Symbol) : Draft F :=
  { d with symbols := d.symbols ++ [s] }

/-- Store a function with its symbols. -/
def addFunction (d : Draft F) (f : Function) : Draft F :=
  let code := Bytes.ofHalfWords f.code
  let (text, offset) := F.append d.text code functionAlignment
  let d : Draft F := { d with text }
  (d.addSymbol (.mapping offset)).addSymbol (.function f.name offset code.length)

/-- Store functions in order. -/
def ofFunctions (fs : List Function) : Draft F :=
  fs.foldl addFunction empty

end Draft

/-- Object file that holds the given functions. -/
def Format.ofFunctions (F : Format) (fs : List Function) : Except Trap (List UInt8) :=
  let d : Draft F := .ofFunctions fs
  F.write interfaceFlags d.text d.symbols

end HeliumKernels.Object
