/-
  HeliumKernels.Proofs.Object.Storage

  What a format of object files is asked for, and that ELF files do it.  A
  format has to align the data that is appended with zero bytes and to tell
  where the data starts; and a reader has to find the section and the symbols
  in a file as they were handed over.  The reader of ELF files goes from the
  file header to the section headers, from there to the sections, and looks
  up the name of each symbol in the string table.
-/
import HeliumKernels.Object.Elf
import Mathlib

namespace HeliumKernels.Object

open Bytes

/-! ## Formats -/

namespace Format

/-- Appended data stands behind the fewest zero bytes that align it, and its start is told. -/
structure Appends (F : Format) : Prop where
  empty : F.bytes F.empty = []
  append : ∀ t data alignment, alignment.isPowerOfTwo → ∃ zeros < alignment,
    alignment ∣ (F.bytes t).length + zeros ∧
    (F.append t data alignment).2 = (F.bytes t).length + zeros ∧
    F.bytes (F.append t data alignment).1 = F.bytes t ++ (List.replicate zeros 0 ++ data)

/-- What a reader finds in an object file: the data of the code section, and the symbols. -/
structure Reader where
  text? : List UInt8 → Option (List UInt8)
  symbols : List UInt8 → List Symbol

/-- Objects of a certain kind are written, and their section and symbols are stored as they
    were handed over.  The symbols may come in another order. -/
def Stores (F : Format) (R : Reader) (storable : F.Text → List Symbol → Prop) : Prop :=
  ∀ flags text symbols, storable text symbols → ∃ file, F.write flags text symbols = .ok file ∧
    R.text? file = some (F.bytes text) ∧ (R.symbols file).Perm symbols

end Format

/-! ## Parts of a file -/

/-- A part stands at a position of some bytes. -/
def Stands (part bytes : List UInt8) (position : Nat) : Prop :=
  part <+: bytes.drop position

section Stands

variable {part bytes : List UInt8} {position : Nat}

theorem stands_append (before part after : List UInt8) :
    Stands part (before ++ (part ++ after)) before.length := by
  rw [Stands, List.drop_left]
  exact List.prefix_append part after

theorem Stands.append (h : Stands part bytes position) (more : List UInt8) :
    Stands part (bytes ++ more) position := by
  rw [Stands, List.drop_append]
  exact List.IsPrefix.trans h (List.prefix_append _ _)

/-- A part of a part. -/
theorem Stands.trans {inner : List UInt8} {position' : Nat} (h : Stands part bytes position)
    (hinner : Stands inner part position') : Stands inner bytes (position + position') := by
  obtain ⟨after, hafter⟩ := h
  rw [Stands, ← List.drop_drop, ← hafter]
  exact hinner.append after

theorem Stands.take_drop_eq (h : Stands part bytes position) :
    (bytes.drop position).take part.length = part :=
  (List.prefix_iff_eq_take.mp h).symm

theorem Stands.add_length_le (h : Stands part bytes position) (hne : part ≠ []) :
    position + part.length ≤ bytes.length := by
  have hle := h.length_le
  have hpos := List.length_pos_iff.mpr hne
  rw [List.length_drop] at hle
  omega

/-- Entries of one size stand one after the other. -/
theorem stands_flatMap {α : Type} {f : α → List UInt8} {size : Nat}
    (hsize : ∀ x, (f x).length = size) {xs : List α} {k : Nat} {x : α} (h : xs[k]? = some x) :
    Stands (f x) (xs.flatMap f) (size * k) := by
  induction xs generalizing k with
  | nil => cases h
  | cons first xs ih =>
    rw [Stands, List.flatMap_cons]
    cases k with
    | zero =>
      obtain rfl := Option.some.inj h
      exact List.prefix_append _ _
    | succ k =>
      rw [List.getElem?_cons_succ] at h
      rw [Nat.mul_succ, Nat.add_comm, ← List.drop_drop, List.drop_left' (hsize first)]
      exact ih h

end Stands

namespace Elf

/-! ## Reading -/

/-- Number with the bytes at a position. -/
def numberAt (bytes : List UInt8) (position width : Nat) : Nat :=
  toNat ((bytes.drop position).take width)

/-- Bytes from a position up to the next zero byte. -/
def nameAt (bytes : List UInt8) (position : Nat) : List UInt8 :=
  (bytes.drop position).takeWhile (· != 0)

/-- Field `k` of section header `i`. -/
def fieldAt (file : List UInt8) (i k : Nat) : Nat :=
  numberAt file (numberAt file 32 4 + sectionHeaderSize * i + 4 * k) 4

/-- What section `i` holds. -/
def dataAt (file : List UInt8) (i : Nat) : List UInt8 :=
  (file.drop (fieldAt file i 4)).take (fieldAt file i 5)

/-- The first section with a property. -/
def section? (file : List UInt8) (p : Nat → Bool) : Option Nat :=
  (List.range (numberAt file 48 2)).find? p

/-- Name of section `i`, from the section that the header points to. -/
def sectionName (file : List UInt8) (i : Nat) : List UInt8 :=
  nameAt (dataAt file (numberAt file 50 2)) (fieldAt file i 0)

/-- A symbol from its bytes and the table of names. -/
def readSymbol (names entry : List UInt8) : Symbol where
  name := nameAt names (numberAt entry 0 4)
  value := numberAt entry 4 4
  size := numberAt entry 8 4
  kind := if numberAt entry 12 1 % 16 = 2 then .text else .label
  scope := if numberAt entry 12 1 / 16 = 0 then .compilation else .linkage

/-- The symbols of a table behind the null symbol. -/
def readTable (names table : List UInt8) : List Symbol :=
  (List.range (table.length / symbolSize - 1)).map fun k =>
    readSymbol names ((table.drop (symbolSize * (k + 1))).take symbolSize)

/-- The section `.text` of a file, and the symbols of its symbol table. -/
def reader : Format.Reader where
  text? file := (section? file fun i => sectionName file i == ofText ".text").map (dataAt file)
  symbols file :=
    match section? file fun i => fieldAt file i 1 == 2 with
    | none => []
    | some i => readTable (dataAt file (fieldAt file i 6)) (dataAt file i)

theorem toNat_little (width n : Nat) : Bytes.toNat (little width n) = n % 256 ^ width := by
  induction width generalizing n with
  | zero => simp only [little, Bytes.toNat, Nat.pow_zero, Nat.mod_one]
  | succ width ih =>
    rw [little, Bytes.toNat, ih, Nat.pow_succ', Nat.mod_mul, UInt8.toNat_ofNat']

theorem numberAt_eq {bytes : List UInt8} {position width n : Nat}
    (h : Stands (little width n) bytes position) (hn : n < 256 ^ width) :
    numberAt bytes position width = n := by
  have htake := h.take_drop_eq
  rw [length_little] at htake
  rw [numberAt, htake, toNat_little, Nat.mod_eq_of_lt hn]

theorem nameAt_eq {bytes name : List UInt8} {position : Nat}
    (h : Stands (name ++ [0]) bytes position) (hname : 0 ∉ name) : nameAt bytes position = name := by
  obtain ⟨after, hafter⟩ := h
  rw [nameAt, ← hafter, List.append_assoc, List.takeWhile_append_of_pos]
  · exact List.append_nil name
  · intro b hb
    exact bne_iff_ne.mpr fun hzero => hname (hzero ▸ hb)

end Elf

/-! ## Names -/

/-- Every name that was entered stands at its place, with a zero byte behind it. -/
structure Names.Sound (t : Names) : Prop where
  first : Stands [0] t.bytes 0
  last : Stands (t.last ++ [0]) t.bytes t.lastOffset
  entered : ∀ entry ∈ t.offsets, Stands (entry.1 ++ [0]) t.bytes entry.2

namespace Names

theorem sound_empty : empty.Sound where
  first := List.prefix_rfl
  last := List.prefix_rfl
  entered _ h := absurd h List.not_mem_nil

theorem Sound.enter {t : Names} (h : t.Sound) (name : List UInt8) : (t.enter name).Sound := by
  unfold Names.enter
  split
  · next hsuffix =>
    refine ⟨h.first, h.last, List.forall_mem_cons.mpr ⟨?_, h.entered⟩⟩
    -- a name that ends the last one ends where that one does
    obtain ⟨start, hstart⟩ := List.isSuffixOf_iff_suffix.mp hsuffix
    refine h.last.trans ?_
    rw [← hstart, List.length_append, Nat.add_sub_cancel, List.append_assoc]
    have hend := stands_append start (name ++ [0]) []
    rwa [List.append_nil] at hend
  · have hkeep : ∀ {part position}, Stands part t.bytes position →
        Stands part (t.bytes ++ name ++ [0]) position :=
      fun hpart => (hpart.append name).append [0]
    have hnew : Stands (name ++ [0]) (t.bytes ++ name ++ [0]) t.bytes.length := by
      rw [List.append_assoc, Stands, List.drop_left]
    exact ⟨hkeep h.first, hnew, List.forall_mem_cons.mpr
      ⟨hnew, fun entry hentry => hkeep (h.entered entry hentry)⟩⟩

theorem exists_offsets_enter (t : Names) (name : List UInt8) :
    ∃ place, (t.enter name).offsets = (name, place) :: t.offsets := by
  unfold enter
  split <;> exact ⟨_, rfl⟩

theorem Sound.foldl_enter {t : Names} (h : t.Sound) (names : List (List UInt8)) :
    (names.foldl Names.enter t).Sound ∧
      ∀ name, name ∈ names ∨ name ∈ t.offsets.map Prod.fst →
        name ∈ (names.foldl Names.enter t).offsets.map Prod.fst := by
  induction names generalizing t with
  | nil => exact ⟨h, fun name hname => hname.resolve_left List.not_mem_nil⟩
  | cons first names ih =>
    obtain ⟨hsound, hall⟩ := ih (h.enter first)
    obtain ⟨place, hplace⟩ := exists_offsets_enter t first
    refine ⟨hsound, fun name hname => hall name ?_⟩
    rw [hplace, List.map_cons, List.mem_cons]
    rcases hname with hname | hname
    · rcases List.mem_cons.mp hname with rfl | hname
      · exact .inr (.inl rfl)
      · exact .inl hname
    · exact .inr (.inr hname)

/-- Each of the names that a table was made of stands at its place. -/
theorem stands_offset {names : List (List UInt8)} {name : List UInt8} (hname : name ∈ names) :
    Stands (name ++ [0]) (ofList names).bytes ((ofList names).offset name) := by
  obtain ⟨hsound, hall⟩ := sound_empty.foldl_enter
    (((names.filter fun name => !name.isEmpty).eraseDups).mergeSort entersBefore)
  change (ofList names).Sound at hsound
  rw [offset]
  cases hlookup : (ofList names).offsets.lookup name with
  | some place =>
    obtain ⟨before, after, hoffsets, -⟩ := List.lookup_eq_some_iff.mp hlookup
    exact hsound.entered (name, place) (by rw [hoffsets]; simp)
  | none =>
    -- only the empty name is left out, and it ends at once
    have hempty : name = [] := by
      by_contra hne
      have hmem := hall name (.inl (by simp [hname, hne]))
      obtain ⟨entry, hentry, rfl⟩ := List.mem_map.mp hmem
      exact absurd (List.lookup_eq_none_iff.mp hlookup entry hentry) (by simp)
    subst hempty
    exact hsound.first

end Names

/-! ## Content -/

namespace Elf

theorem length_padding (size alignment : Nat) :
    (padding size alignment).length = (alignment - size % alignment) % alignment :=
  List.length_replicate ..

theorem length_header (flags sections : Nat) : (header flags sections).length = headerSize := by
  simp only [header, List.length_append, length_little, List.length_replicate, List.length_cons,
    List.length_nil]
  rfl

theorem length_sectionBytes (s : Section) : s.bytes.length = sectionHeaderSize := rfl

theorem length_symbol (names : Names) (s : Symbol) : (symbol names s).length = symbolSize := by
  simp only [symbol, List.length_append, length_little]
  rfl

theorem readSymbol_symbol {names : Names} {s : Symbol} (hname : 0 ∉ s.name)
    (hstands : Stands (s.name ++ [0]) names.bytes (names.offset s.name))
    (hsmall : names.bytes.length < 2 ^ 32) (hvalue : s.value < 2 ^ 32) (hsize : s.size < 2 ^ 32) :
    readSymbol names.bytes (symbol names s) = s := by
  have hoffset := hstands.add_length_le (by simp)
  have hinfo : symbolBinding s.scope * 16 + symbolType s.kind < 256 ^ 1 := by
    cases s.scope <;> cases s.kind <;> decide
  unfold readSymbol
  rw [numberAt_eq (n := names.offset s.name) ⟨(symbol names s).drop 4, rfl⟩ (by omega),
    numberAt_eq (n := s.value) ⟨(symbol names s).drop 8, rfl⟩ (by omega),
    numberAt_eq (n := s.size) ⟨(symbol names s).drop 12, rfl⟩ (by omega),
    numberAt_eq (n := symbolBinding s.scope * 16 + symbolType s.kind)
      ⟨(symbol names s).drop 13, rfl⟩ hinfo, nameAt_eq hstands hname]
  obtain ⟨name, value, size, kind, scope⟩ := s
  cases kind <;> cases scope <;> simp [symbolBinding, symbolType]

theorem length_symbolTable (names : Names) (symbols : List Symbol) :
    (symbolTable names symbols).length = symbolSize * (symbols.length + 1) := by
  have hentries : (symbols.flatMap (symbol names)).length = symbolSize * symbols.length := by
    induction symbols with
    | nil => rfl
    | cons s symbols ih =>
      rw [List.flatMap_cons, List.length_append, length_symbol, ih, List.length_cons, Nat.mul_succ,
        Nat.add_comm]
  rw [symbolTable, List.length_append, List.length_replicate, hentries, Nat.mul_succ, Nat.add_comm]

/-- A table is read entry by entry. -/
theorem readTable_symbolTable {names : Names} {symbols : List Symbol}
    (h : ∀ s ∈ symbols, readSymbol names.bytes (symbol names s) = s) :
    readTable names.bytes (symbolTable names symbols) = symbols := by
  have hcount : (symbolTable names symbols).length / symbolSize - 1 = symbols.length := by
    rw [length_symbolTable, Nat.mul_div_cancel_left _ (by decide), Nat.add_sub_cancel]
  rw [readTable, hcount]
  apply List.ext_getElem?
  intro k
  rw [List.getElem?_map]
  by_cases hk : k < symbols.length
  · obtain ⟨s, hs⟩ : ∃ s, symbols[k]? = some s := ⟨_, List.getElem?_eq_getElem hk⟩
    have hentry : Stands (symbol names s) (symbolTable names symbols) (symbolSize * (k + 1)) := by
      rw [Nat.mul_succ, Nat.add_comm]
      have hall := stands_append (List.replicate symbolSize 0) (symbols.flatMap (symbol names)) []
      rw [List.append_nil, List.length_replicate] at hall
      exact hall.trans (stands_flatMap (length_symbol names) hs)
    have htake := hentry.take_drop_eq
    rw [length_symbol] at htake
    rw [List.getElem?_range hk, Option.map_some, htake, h s (List.mem_of_getElem? hs), hs]
  · rw [List.getElem?_eq_none (by rw [List.length_range]; omega),
      List.getElem?_eq_none (by omega)]
    rfl

namespace Content

variable {c : Content} {flags : Nat}

theorem stands_body : Stands c.body (c.file flags) headerSize := by
  have h := stands_append (header flags c.sectionsAt) c.body (c.sections.flatMap Section.bytes)
  rwa [length_header] at h

/-- What stands behind some bytes at the start of the body. -/
theorem stands_part (before : List UInt8) {part : List UInt8} (h : before ++ part <+: c.body) :
    Stands part (c.file flags) (headerSize + before.length) := by
  obtain ⟨after, hafter⟩ := h
  have hpart := stands_append before part after
  rw [← List.append_assoc, hafter] at hpart
  exact stands_body.trans hpart

theorem sectionNames_prefix : c.code ++ c.table ++ c.names.bytes ++ sectionNames <+: c.body :=
  List.prefix_append _ _

theorem names_prefix : c.code ++ c.table ++ c.names.bytes <+: c.body :=
  (List.prefix_append _ _).trans sectionNames_prefix

theorem table_prefix : c.code ++ c.table <+: c.body :=
  (List.prefix_append _ _).trans names_prefix

theorem text_prefix : c.text.bytes <+: c.body := by
  have hcode : c.text.bytes <+: c.code := List.prefix_append _ _
  exact (hcode.trans (List.prefix_append _ _)).trans table_prefix

theorem stands_text : Stands c.text.bytes (c.file flags) headerSize :=
  stands_part [] text_prefix

theorem stands_table : Stands c.table (c.file flags) c.tableAt :=
  stands_part c.code table_prefix

theorem stands_names : Stands c.names.bytes (c.file flags) c.namesAt := by
  rw [namesAt, tableAt, Nat.add_assoc, ← List.length_append]
  exact stands_part (c.code ++ c.table) names_prefix

theorem stands_sectionNames : Stands sectionNames (c.file flags) c.sectionNamesAt := by
  rw [sectionNamesAt, namesAt, tableAt, Nat.add_assoc, Nat.add_assoc, ← List.length_append,
    ← List.length_append, ← List.append_assoc]
  exact stands_part (c.code ++ c.table ++ c.names.bytes) sectionNames_prefix

theorem length_body_ge :
    c.code.length + c.table.length + c.names.bytes.length + sectionNames.length ≤
      c.body.length := by
  simp only [body, List.length_append]
  omega

theorem length_text_le : c.text.bytes.length ≤ c.code.length := by
  rw [code, List.length_append]
  omega

theorem stands_sections :
    Stands (c.sections.flatMap Section.bytes) (c.file flags) c.sectionsAt := by
  have h := stands_append (header flags c.sectionsAt ++ c.body)
    (c.sections.flatMap Section.bytes) []
  rw [List.length_append, length_header, List.append_nil, List.append_assoc] at h
  exact h

/-- A number of the file header is read as it was written. -/
theorem numberAt_header {width position n : Nat}
    (h : Stands (little width n) (header flags c.sectionsAt) position) (hn : n < 256 ^ width) :
    numberAt (c.file flags) position width = n := by
  have hheader : Stands (header flags c.sectionsAt) (c.file flags) 0 := List.prefix_append _ _
  have hnumber := hheader.trans h
  rw [Nat.zero_add] at hnumber
  exact numberAt_eq hnumber hn

theorem numberAt_sectionCount : numberAt (c.file flags) 48 2 = 5 :=
  numberAt_header ⟨(header flags c.sectionsAt).drop 50, rfl⟩ (by decide)

theorem numberAt_sectionNames : numberAt (c.file flags) 50 2 = 4 :=
  numberAt_header ⟨(header flags c.sectionsAt).drop 52, rfl⟩ (by decide)

variable (hsmall : c.sectionsAt < 2 ^ 32)

include hsmall

theorem numberAt_sections : numberAt (c.file flags) 32 4 = c.sectionsAt :=
  numberAt_header ⟨(header flags c.sectionsAt).drop 36, rfl⟩ (by omega)

/-- A field of a section header is read as it was written. -/
theorem fieldAt_eq {i k v : Nat} (hv : (c.sections[i]?.bind fun s => s.fields[k]?) = some v)
    (hlt : v < 2 ^ 32) : fieldAt (c.file flags) i k = v := by
  obtain ⟨s, hs, hv⟩ := Option.bind_eq_some_iff.mp hv
  have hsection := stands_flatMap length_sectionBytes hs
  have hfield := stands_flatMap (length_little 4) hv
  rw [fieldAt, numberAt_sections hsmall]
  exact numberAt_eq ((stands_sections.trans hsection).trans hfield) (by omega)

theorem dataAt_eq {i offset : Nat} {data : List UInt8}
    (hdata : Stands data (c.file flags) offset) (hle : offset + data.length ≤ c.sectionsAt)
    (hoffset : (c.sections[i]?.bind fun s => s.fields[4]?) = some offset)
    (hsize : (c.sections[i]?.bind fun s => s.fields[5]?) = some data.length) :
    dataAt (c.file flags) i = data := by
  rw [dataAt, fieldAt_eq hsmall hoffset (by omega), fieldAt_eq hsmall hsize (by omega)]
  exact hdata.take_drop_eq

/-- The sections hold the parts of the content. -/
theorem dataAt_parts (flags : Nat) :
    dataAt (c.file flags) 1 = c.text.bytes ∧ dataAt (c.file flags) 2 = c.table ∧
      dataAt (c.file flags) 3 = c.names.bytes ∧ dataAt (c.file flags) 4 = sectionNames := by
  have hbody := c.length_body_ge
  have htext := c.length_text_le
  have hat : c.tableAt = headerSize + c.code.length ∧ c.namesAt = c.tableAt + c.table.length ∧
    c.sectionNamesAt = c.namesAt + c.names.bytes.length ∧
    c.sectionsAt = headerSize + c.body.length := ⟨rfl, rfl, rfl, rfl⟩
  exact ⟨dataAt_eq hsmall stands_text (by omega) rfl rfl,
    dataAt_eq hsmall stands_table (by omega) rfl rfl,
    dataAt_eq hsmall stands_names (by omega) rfl rfl,
    dataAt_eq hsmall stands_sectionNames (by omega) rfl rfl⟩

theorem sectionName_eq {i n : Nat} (hn : (c.sections[i]?.bind fun s => s.fields[0]?) = some n)
    (hlt : n < 2 ^ 32) : sectionName (c.file flags) i = nameAt sectionNames n := by
  rw [sectionName, numberAt_sectionNames, (dataAt_parts hsmall flags).2.2.2, fieldAt_eq hsmall hn hlt]

/-- The code section is the second one, behind the null section. -/
theorem text?_file : reader.text? (c.file flags) = some c.text.bytes := by
  have hnull : sectionName (c.file flags) 0 = [] :=
    sectionName_eq hsmall (n := 0) rfl (by decide)
  have htext : sectionName (c.file flags) 1 = ofText ".text" :=
    (sectionName_eq hsmall (n := 1) rfl (by decide)).trans (by decide)
  have hfind : section? (c.file flags) (fun i => sectionName (c.file flags) i == ofText ".text") =
      some 1 := by
    rw [section?, numberAt_sectionCount, show List.range 5 = [0, 1, 2, 3, 4] from rfl,
      List.find?_cons_of_neg (by rw [hnull]; decide),
      List.find?_cons_of_pos (by rw [htext]; decide)]
  simp only [reader, hfind, Option.map_some, (dataAt_parts hsmall flags).1]

/-- The symbol table follows the code section. -/
theorem symbols_file : reader.symbols (c.file flags) = readTable c.names.bytes c.table := by
  have hnull : fieldAt (c.file flags) 0 1 = 0 := fieldAt_eq hsmall rfl (by decide)
  have htext : fieldAt (c.file flags) 1 1 = 1 := fieldAt_eq hsmall rfl (by decide)
  have htable : fieldAt (c.file flags) 2 1 = 2 := fieldAt_eq hsmall rfl (by decide)
  have hlink : fieldAt (c.file flags) 2 6 = 3 := fieldAt_eq hsmall rfl (by decide)
  have hfind : section? (c.file flags) (fun i => fieldAt (c.file flags) i 1 == 2) = some 2 := by
    rw [section?, numberAt_sectionCount, show List.range 5 = [0, 1, 2, 3, 4] from rfl,
      List.find?_cons_of_neg (by rw [hnull]; decide),
      List.find?_cons_of_neg (by rw [htext]; decide),
      List.find?_cons_of_pos (by rw [htable]; decide)]
  obtain ⟨-, hdata, hnames, -⟩ := dataAt_parts hsmall flags
  simp only [reader, hfind, hlink, hdata, hnames]

end Content

/-! ## Round trip -/

theorem localFirst_perm (symbols : List Symbol) : (localFirst symbols).Perm symbols :=
  List.filter_append_perm isLocal symbols

/-- What these files can hold: names without zero bytes, and numbers of four bytes. -/
structure Storable (text : Text) (symbols : List Symbol) : Prop where
  symbol : ∀ s ∈ symbols, 0 ∉ s.name ∧ s.value < 2 ^ 32 ∧ s.size < 2 ^ 32
  file : (Content.mk text symbols).sectionsAt < 2 ^ 32

theorem dvd_add_padding (size : Nat) {alignment : Nat} (hpos : 0 < alignment) :
    alignment ∣ size + (alignment - size % alignment) % alignment := by
  have hle := (Nat.mod_lt size hpos).le
  rw [Nat.dvd_iff_mod_eq_zero, Nat.add_mod_mod, ← Nat.mod_add_mod, Nat.add_sub_cancel' hle,
    Nat.mod_self]

theorem appends : format.Appends where
  empty := rfl
  append t data alignment hpower := by
    have hpos := Nat.pos_of_isPowerOfTwo hpower
    refine ⟨_, Nat.mod_lt _ hpos, dvd_add_padding t.bytes.length hpos, ?_, ?_⟩
    · show (t.bytes ++ padding t.bytes.length alignment).length = _
      rw [List.length_append, length_padding]
      rfl
    · exact List.append_assoc ..

/-- The symbols of a file are read as they were handed over, local ones first. -/
theorem Storable.readTable_eq {text : Text} {symbols : List Symbol} (h : Storable text symbols) :
    readTable (Content.mk text symbols).names.bytes (Content.mk text symbols).table =
      localFirst symbols := by
  have hnames : (Content.mk text symbols).names.bytes.length < 2 ^ 32 := by
    have hbody := (Content.mk text symbols).length_body_ge
    have hfile := h.file
    rw [Content.sectionsAt] at hfile
    omega
  refine readTable_symbolTable fun s hs => ?_
  rw [(localFirst_perm symbols).mem_iff] at hs
  obtain ⟨hname, hvalue, hsize⟩ := h.symbol s hs
  exact readSymbol_symbol hname (Names.stands_offset (List.mem_map_of_mem hs)) hnames hvalue hsize

theorem stores : format.Stores reader Storable := by
  intro flags text symbols h
  have hzero : ¬(symbols.any fun s => s.name.contains 0) = true := by
    rw [List.any_eq_true]
    rintro ⟨s, hs, hzero⟩
    exact (h.symbol s hs).1 (List.contains_iff_mem.mp hzero)
  refine ⟨_, if_neg hzero, Content.text?_file h.file, ?_⟩
  rw [Content.symbols_file h.file, h.readTable_eq]
  exact localFirst_perm symbols

end Elf

end HeliumKernels.Object
