/-
  HeliumKernels.Object.Elf

  Relocatable ELF files for 32-bit Arm, little-endian: the header, the code,
  the symbols, the two string tables and the section headers, in that order.
-/
import HeliumKernels.Object.Format
import HeliumKernels.Object.Names

namespace HeliumKernels.Object.Elf

open Bytes

/-! ## The code section -/

/-- Zero bytes up to the next multiple of an alignment behind `size` bytes. -/
def padding (size alignment : Nat) : List UInt8 :=
  List.replicate ((alignment - size % alignment) % alignment) 0

/-- Code with the largest alignment that was asked for. -/
structure Text where
  bytes : List UInt8
  alignment : Nat
deriving DecidableEq, Repr

/-- No code. -/
def Text.empty : Text := ⟨[], 1⟩

/-- Add data at the next multiple of an alignment; gives the place of the data too. -/
def Text.append (t : Text) (data : List UInt8) (alignment : Nat) : Text × Nat :=
  let start := t.bytes ++ padding t.bytes.length alignment
  (⟨start ++ data, max t.alignment alignment⟩, start.length)

/-! ## Parts of a file -/

/-- Bytes of the file header. -/
def headerSize : Nat := 52

/-- Bytes of a section header. -/
def sectionHeaderSize : Nat := 40

/-- Bytes of a symbol. -/
def symbolSize : Nat := 16

/-- Alignment of the tables in the file. -/
def tableAlignment : Nat := 4

/-- Section names, each behind a zero byte. -/
def sectionNames : List UInt8 :=
  ofText "\x00.text\x00.shstrtab\x00.strtab\x00.symtab\x00"

/-- File header; the section headers lie at `sections`. -/
def header (flags sections : Nat) : List UInt8 :=
  [0x7F, 0x45, 0x4C, 0x46, 1, 1, 1, 0] ++ List.replicate 8 0 ++
  little 2 1 ++ little 2 40 ++ little 4 1 ++ little 4 0 ++ little 4 0 ++ little 4 sections ++
  little 4 flags ++ little 2 headerSize ++ little 2 0 ++ little 2 0 ++
  little 2 sectionHeaderSize ++ little 2 5 ++ little 2 4

/-- Type of a symbol. -/
def symbolType : SymbolKind → Nat
  | .label => 0
  | .text => 2

/-- Binding of a symbol. -/
def symbolBinding : SymbolScope → Nat
  | .compilation => 0
  | .linkage => 1

/-- Visibility of a symbol. -/
def symbolOther : SymbolScope → Nat
  | .compilation => 0
  | .linkage => 2

/-- Bytes of a symbol of the first section. -/
def symbol (names : Names) (s : Symbol) : List UInt8 :=
  little 4 (names.offset s.name) ++ little 4 s.value ++ little 4 s.size ++
  little 1 (symbolBinding s.scope * 16 + symbolType s.kind) ++ little 1 (symbolOther s.scope) ++
  little 2 1

/-- Whether a symbol is known in its own file only. -/
def isLocal (s : Symbol) : Bool :=
  s.scope == .compilation

/-- Symbols as they are stored: local ones come first. -/
def localFirst (symbols : List Symbol) : List Symbol :=
  symbols.filter isLocal ++ symbols.filter fun s => !isLocal s

/-- Symbol table: a null symbol and the given ones. -/
def symbolTable (names : Names) (symbols : List Symbol) : List UInt8 :=
  List.replicate symbolSize 0 ++ symbols.flatMap (symbol names)

/-- Fields of a section header. -/
structure Section where
  name : Nat
  kind : Nat
  flags : Nat
  offset : Nat
  size : Nat
  link : Nat
  info : Nat
  alignment : Nat
  entrySize : Nat

/-- The fields in order, with the address that a relocatable section does not have. -/
def Section.fields (s : Section) : List Nat :=
  [s.name, s.kind, s.flags, 0, s.offset, s.size, s.link, s.info, s.alignment, s.entrySize]

/-- Bytes of a section header. -/
def Section.bytes (s : Section) : List UInt8 :=
  s.fields.flatMap (little 4)

/-! ## Files -/

/-- What a file is made of. -/
structure Content where
  text : Text
  symbols : List Symbol

namespace Content

variable (c : Content)

def names : Names :=
  .ofList (c.symbols.map Symbol.name)

def table : List UInt8 :=
  symbolTable c.names (localFirst c.symbols)

/-- The code, up to the next table. -/
def code : List UInt8 :=
  c.text.bytes ++ padding (headerSize + c.text.bytes.length) tableAlignment

/-- Place of the symbol table. -/
def tableAt : Nat :=
  headerSize + c.code.length

/-- Place of the symbol names. -/
def namesAt : Nat :=
  c.tableAt + c.table.length

/-- Place of the section names. -/
def sectionNamesAt : Nat :=
  c.namesAt + c.names.bytes.length

/-- All that stands between the file header and the section headers. -/
def body : List UInt8 :=
  let parts := c.code ++ c.table ++ c.names.bytes ++ sectionNames
  parts ++ padding (headerSize + parts.length) tableAlignment

/-- Place of the section headers. -/
def sectionsAt : Nat :=
  headerSize + c.body.length

def sections : List Section := [
  { name := 0, kind := 0, flags := 0, offset := 0, size := 0, link := 0, info := 0,
    alignment := 0, entrySize := 0 },
  { name := 0x01, kind := 1, flags := 6, offset := headerSize, size := c.text.bytes.length,
    link := 0, info := 0, alignment := c.text.alignment, entrySize := 0 },
  { name := 0x19, kind := 2, flags := 0, offset := c.tableAt, size := c.table.length,
    link := 3, info := 1 + c.symbols.countP isLocal, alignment := tableAlignment,
    entrySize := symbolSize },
  { name := 0x11, kind := 3, flags := 0, offset := c.namesAt, size := c.names.bytes.length,
    link := 0, info := 0, alignment := 1, entrySize := 0 },
  { name := 0x07, kind := 3, flags := 0, offset := c.sectionNamesAt, size := sectionNames.length,
    link := 0, info := 0, alignment := 1, entrySize := 0 }]

def file (flags : Nat) : List UInt8 :=
  header flags c.sectionsAt ++ (c.body ++ c.sections.flatMap Section.bytes)

end Content

/-- Write an object file.  Names are stored zero-terminated, so none may hold a zero byte. -/
def write (flags : Nat) (text : Text) (symbols : List Symbol) : Except Trap (List UInt8) :=
  if symbols.any fun s => s.name.contains 0 then .error .zeroInName
  else .ok (Content.file ⟨text, symbols⟩ flags)

/-- The format of these files. -/
def format : Format where
  Text := Text
  empty := .empty
  bytes := Text.bytes
  append := Text.append
  write := write

/-- Object file that holds the given functions. -/
def ofFunctions (fs : List Function) : Except Trap (List UInt8) :=
  format.ofFunctions fs

end HeliumKernels.Object.Elf
