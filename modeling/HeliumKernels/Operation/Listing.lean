/-
  HeliumKernels.Operation.Listing

  Assembly text of operations and listings of code.  A listing has one line
  per instruction with its byte offset, its half-words and its text; a
  half-word that starts no instruction gets an error line of its own and
  reading goes on at the next one.
-/
import HeliumKernels.Operation.Decode
import HeliumKernels.Trap

namespace HeliumKernels

namespace Operation

/-- Immediate operand: decimal below 256, hexadecimal from there on. -/
def immediateText (imm : UInt32) : String :=
  if imm < 256 then s!"#{imm.toNat}" else s!"#{Numeral.marked imm.toNat}"

/-- Left shift of the last operand, if there is one. -/
def shiftText (shift : Nat) : String :=
  if shift = 0 then "" else s!", lsl #{shift}"

/-- Suffix of the flag-setting forms. -/
def flagText (setFlags : Bool) : String :=
  if setFlags then "s" else ""

/-- Suffix of the tail-predicated loops. -/
def tailText : Option LaneSize → String
  | none => ""
  | some size => s!"tp.{size.bits}"

/-- Address operand. -/
def addressText (rn : Reg) (offset : Int) : Indexing → String
  | .offset => s!"[{rn.text}, #{offset}]"
  | .preIndex => s!"[{rn.text}, #{offset}]!"
  | .postIndex => s!"[{rn.text}], #{offset}"

/-- Range of double registers from `first`; the empty range at zero has no
    last register to print. -/
def rangeText (first count : Nat) : Except Trap String := do
  let last ← Checked.sub (first + count) 1
  return s!"\x7bd{first}-d{last}\x7d"

/-- Assembly text. -/
def text : Operation → Except Trap String
  | movImm rd imm setFlags => .ok s!"mov{flagText setFlags} {rd.text}, {immediateText imm}"
  | movTop rd imm => .ok s!"movt {rd.text}, #{Numeral.marked imm.toNat}"
  | movReg rd rm => .ok s!"mov {rd.text}, {rm.text}"
  | addImm rd rn imm setFlags =>
    .ok s!"add{flagText setFlags} {rd.text}, {rn.text}, {immediateText imm}"
  | subImm rd rn imm setFlags =>
    .ok s!"sub{flagText setFlags} {rd.text}, {rn.text}, {immediateText imm}"
  | addReg rd rn rm shift setFlags =>
    .ok s!"add{flagText setFlags} {rd.text}, {rn.text}, {rm.text}{shiftText shift}"
  | subReg rd rn rm shift setFlags =>
    .ok s!"sub{flagText setFlags} {rd.text}, {rn.text}, {rm.text}{shiftText shift}"
  | cmpImm rn imm => .ok s!"cmp {rn.text}, {immediateText imm}"
  | cmpReg rn rm => .ok s!"cmp {rn.text}, {rm.text}"
  | ldrImm rt rn offset indexing => .ok s!"ldr {rt.text}, {addressText rn offset indexing}"
  | ldrReg rt rn rm shift => .ok s!"ldr {rt.text}, [{rn.text}, {rm.text}{shiftText shift}]"
  | branch cond offset => .ok s!"b{cond.suffix} #{offset}"
  | bx rm => .ok s!"bx {rm.text}"
  | push regs => .ok s!"push {regs.text}"
  | pop regs => .ok s!"pop {regs.text}"
  | vpush first count => return "vpush " ++ (← rangeText first count)
  | vpop first count => return "vpop " ++ (← rangeText first count)
  | loopStart rn tail none => .ok s!"dls{tailText tail} lr, {rn.text}"
  | loopStart rn tail (some exit) => .ok s!"wls{tailText tail} lr, {rn.text}, #{exit}"
  | loopEnd back false => .ok s!"le lr, #-{back}"
  | loopEnd back true => .ok s!"letp lr, #-{back}"
  | vecMem .load qd rn offset indexing =>
    .ok s!"vldrw.u32 {QReg.text qd}, {addressText rn offset indexing}"
  | vecMem .store qd rn offset indexing =>
    .ok s!"vstrw.32 {QReg.text qd}, {addressText rn offset indexing}"
  | vfmaScalar qda qn rm => .ok s!"vfma.f32 {QReg.text qda}, {QReg.text qn}, {rm.text}"
  | vfmaVector qd qn qm => .ok s!"vfma.f32 {QReg.text qd}, {QReg.text qn}, {QReg.text qm}"
  | vmovImm qd value => .ok s!"vmov.i32 {QReg.text qd}, #{Numeral.marked value.toNat}"
  | vctp size rn => .ok s!"vctp.{size.bits} {rn.text}"
  | vpst count => .ok ("vpst" ++ String.ofList (List.replicate (count - 1) 't'))
  | vmovSr sd rt => .ok s!"vmov {SReg.text sd}, {rt.text}"
  | nop => .ok "nop"

end Operation

namespace Listing

/-- One line of a listing: the byte offset, the half-words it covers, and the
    instruction they are or the reason why they are none. -/
structure Line where
  offset : Nat
  raw : List UInt16
  content : Except DecodeError Operation

/-- Columns of a line that show its offset, in five of them, and its half-words, in nine. -/
def Line.head (line : Line) : String :=
  let raw := Numeral.halfWords line.raw
  let padding := String.ofList (List.replicate (9 - raw.length) ' ')
  s!"{Numeral.aligned 5 line.offset}: {raw}{padding}  "

/-- The rest of a line. -/
def Line.body (line : Line) : Except Trap String :=
  match line.content with
  | .ok op => op.text
  | .error e => .ok s!"<{e.message}>"

/-- Printed line. -/
def Line.text (line : Line) : Except Trap String := do
  return line.head ++ (← line.body)

/-- Lines of the half-words from byte `offset` on. -/
def linesFrom (offset : Nat) : List UInt16 → List Line
  | [] => []
  | [hw1] =>
    match decode [hw1] with
    | .ok decoded => [⟨offset, [hw1], .ok decoded.op⟩]
    | .error e => [⟨offset, [hw1], .error e⟩]
  | hw1 :: hw2 :: rest =>
    match decode [hw1, hw2] with
    | .error e => ⟨offset, [hw1], .error e⟩ :: linesFrom (offset + 2) (hw2 :: rest)
    | .ok decoded =>
      match decoded.width with
      | .narrow => ⟨offset, [hw1], .ok decoded.op⟩ :: linesFrom (offset + 2) (hw2 :: rest)
      | .wide => ⟨offset, [hw1, hw2], .ok decoded.op⟩ :: linesFrom (offset + 4) rest

/-- Lines of a code sequence. -/
def lines (code : List UInt16) : List Line :=
  linesFrom 0 code

/-- Printed lines of a code sequence. -/
def texts (code : List UInt16) : Except Trap (List String) :=
  (lines code).mapM Line.text

end Listing

end HeliumKernels
