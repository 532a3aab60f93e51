/-
  HeliumKernels.Register.Set

  Sets of scalar registers, one bit per register: the lists of push and pop
  and the pool of registers a plan may hand out.  Membership (`contains`) is
  the view every operation is described by; `toList` enumerates by
  increasing number.
-/
import HeliumKernels.Register.Basic

namespace HeliumKernels

/-- Set of scalar registers; bit `n` stands for register number `n`. -/
structure RegSet where
  bits : BitVec 16
deriving DecidableEq, Repr

namespace RegSet

/-- The set without members. -/
def empty : RegSet := ⟨0⟩

/-- Membership. -/
def contains (s : RegSet) (r : Reg) : Bool :=
  s.bits.getLsbD r.num

/-- Add a register. -/
def insert (s : RegSet) (r : Reg) : RegSet :=
  ⟨s.bits ||| BitVec.twoPow 16 r.num⟩

/-- Remove a register. -/
def erase (s : RegSet) (r : Reg) : RegSet :=
  ⟨s.bits &&& ~~~BitVec.twoPow 16 r.num⟩

/-- The registers of a list. -/
def ofList (rs : List Reg) : RegSet :=
  rs.foldl insert empty

/-- All registers from `first` to `last`, both included. -/
def range (first last : Reg) : RegSet :=
  ofList (Reg.all.filter fun r => first.num ≤ r.num && r.num ≤ last.num)

/-- Members by increasing number. -/
def toList (s : RegSet) : List Reg :=
  Reg.all.filter s.contains

/-- Number of members. -/
def size (s : RegSet) : Nat :=
  s.toList.length

/-- Whether there is no member. -/
def isEmpty (s : RegSet) : Bool :=
  s.bits == 0

/-- Member of the lowest number. -/
def first? (s : RegSet) : Option Reg :=
  s.toList.head?

/-- Member of the lowest number, and the set without it. -/
def takeFirst? (s : RegSet) : Option (Reg × RegSet) :=
  s.first?.map fun r => (r, s.erase r)

/-- Whether every member is a low register or `extra`. -/
def isLowPlus (s : RegSet) (extra : Reg) : Bool :=
  s.toList.all fun r => r.isLow || r == extra

/-- Members in braces. -/
def text (s : RegSet) : String :=
  "\x7b" ++ ", ".intercalate (s.toList.map Reg.text) ++ "\x7d"

/-! ## Membership -/

theorem contains_insert (s : RegSet) (r t : Reg) :
    (s.insert r).contains t = (s.contains t || decide (r = t)) := by
  have hiff : r.num = t.num ↔ r = t := ⟨Reg.num_injective, fun h => h ▸ rfl⟩
  simp only [contains, insert, BitVec.getLsbD_or, BitVec.getLsbD_twoPow, r.num_lt, hiff,
    decide_true, Bool.true_and]

theorem contains_erase (s : RegSet) (r t : Reg) :
    (s.erase r).contains t = (s.contains t && !decide (r = t)) := by
  have hiff : r.num = t.num ↔ r = t := ⟨Reg.num_injective, fun h => h ▸ rfl⟩
  simp only [contains, erase, BitVec.getLsbD_and, BitVec.getLsbD_not, BitVec.getLsbD_twoPow,
    r.num_lt, t.num_lt, hiff, decide_true, Bool.true_and]

@[simp] theorem mem_toList {s : RegSet} {r : Reg} : r ∈ s.toList ↔ s.contains r = true := by
  simp [toList, Reg.mem_all]

end RegSet

end HeliumKernels
