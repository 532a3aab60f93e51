/-
  HeliumKernels.Object.Names

  String tables.  Names are stored zero-terminated behind a leading zero
  byte.  A name that ends another one is not stored again: it points into the
  longer name.  Sorting by the reversed bytes, largest first, brings each
  name right behind the names it ends.
-/

namespace HeliumKernels.Object

/-- Stored names with the place of each. -/
structure Names where
  bytes : List UInt8
  /-- Bytes of the last name stored. -/
  last : List UInt8
  /-- Place of the last name stored. -/
  lastOffset : Nat
  offsets : List (List UInt8 × Nat)
deriving DecidableEq, Repr

namespace Names

/-- A table without names. -/
def empty : Names := ⟨[0], [], 0, []⟩

/-- Enter a name, inside the last one stored if that ends with it. -/
def enter (t : Names) (name : List UInt8) : Names :=
  if name.isSuffixOf t.last then
    { t with offsets := (name, t.lastOffset + (t.last.length - name.length)) :: t.offsets }
  else
    { bytes := t.bytes ++ name ++ [0]
      last := name
      lastOffset := t.bytes.length
      offsets := (name, t.bytes.length) :: t.offsets }

/-- Order of entry: reversed bytes, the larger first, a name behind those it ends. -/
def entersBefore (x y : List UInt8) : Bool :=
  decide (y.reverse ≤ x.reverse)

/-- Table of the given names, each entered once; the empty name is not stored. -/
def ofList (names : List (List UInt8)) : Names :=
  (((names.filter fun name => !name.isEmpty).eraseDups).mergeSort entersBefore).foldl enter empty

/-- Place of a name; the empty name is the leading zero byte. -/
def offset (t : Names) (name : List UInt8) : Nat :=
  (t.offsets.lookup name).getD 0

end Names

end HeliumKernels.Object
