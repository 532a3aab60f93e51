/-
  HeliumKernels.Proofs.Gemm.Plan

  What a register plan promises.  Every value has the form its instructions
  need, no register is handed out twice, and all of them come from the pool,
  so none has a fixed role.  For an accepted shape a plan always exists, with
  any pool.

  A plan is made by six values that ask for a register one after the other.
  `Claims.Settles` says how one of them can fare, `Claims.Serves` lines the
  six up; what holds of a whole plan follows by induction over them.
-/
import HeliumKernels.Gemm.Plan
import HeliumKernels.Proofs.Gemm.Tiling
import HeliumKernels.Proofs.Kernel.Emit

namespace HeliumKernels

/-! ## The pool -/

namespace RegSet

theorem nodup_toList (s : RegSet) : s.toList.Nodup :=
  List.Nodup.filter _ (by decide)

theorem toList_erase (s : RegSet) (r : Reg) : (s.erase r).toList = s.toList.erase r := by
  rw [s.nodup_toList.erase_eq_filter, toList, toList, List.filter_filter]
  refine List.filter_congr fun t _ => ?_
  rw [contains_erase, Bool.and_comm]
  congr 1
  simp [bne, beq_eq_decide, eq_comm]

theorem takeFirst?_eq_some {s t : RegSet} {r : Reg} (h : s.takeFirst? = some (r, t)) :
    s.toList = r :: t.toList := by
  obtain ⟨r', hfirst, heq⟩ := Option.map_eq_some_iff.mp h
  obtain ⟨rfl, rfl⟩ := Prod.mk.inj heq
  obtain ⟨rest, hrest⟩ := List.head?_eq_some_iff.mp hfirst
  rw [toList_erase, hrest, List.erase_cons_head]

theorem takeFirst?_eq_none {s : RegSet} (h : s.takeFirst? = none) : s.toList = [] :=
  List.head?_eq_none_iff.mp (Option.map_eq_none_iff.mp h)

end RegSet

namespace Gemm

theorem contains_pool (layout : Layout) (r : Reg) :
    (pool layout).contains r = true ↔
      r = .r10 ∨ r = .r11 ∨ r = .r12 ∨ (layout.mLoop = false ∧ r = Role.mIndex) ∨
      (layout.nLoop = false ∧ r = Role.nIndex) ∨ (layout.maxTileN ≤ 1 ∧ r = Role.bScalar 1) ∨
      (layout.maxTileN ≤ 2 ∧ r = Role.bScalar 2) := by
  have hfree : ∀ (c : Prop) [Decidable c] (s : RegSet) (reg : Reg),
      (if c then s.insert reg else s).contains r = true ↔
        s.contains r = true ∨ c ∧ r = reg := by
    intro c _ s reg
    by_cases hc : c
    · simp only [hc, ↓reduceIte, RegSet.contains_insert, Bool.or_eq_true, decide_eq_true_eq,
        true_and, eq_comm (b := r)]
    · simp [hc]
  have hbase : (RegSet.ofList [.r10, .r11, .r12]).contains r = true ↔
      r = .r10 ∨ r = .r11 ∨ r = .r12 := by
    cases r <;> decide
  simp only [pool, decide_eq_true_eq, Bool.not_eq_true', hfree, hbase, or_assoc]

/-! ## Forms -/

/-- Registers of a form. -/
def AStride.regs : AStride → List Reg
  | register reg => [reg]
  | postIndex _ | plain _ | modified _ | scratch _ => []

/-- Registers of a form. -/
def BStride.regs : BStride → List Reg
  | register reg => [reg]
  | offset _ | scratch _ => []

/-- Registers of a form. -/
def CColumn.regs : CColumn → List Reg
  | register reg => [reg]
  | offset _ | scratch _ => []

/-- Registers of a form. -/
def Bound.regs : Bound → List Reg
  | register reg => [reg]
  | absent | immediate _ | scratch _ => []

/-- Whether the value is rebuilt at every use. -/
def AStride.isScratch : AStride → Bool
  | scratch _ => true
  | postIndex _ | plain _ | modified _ | register _ => false

/-- Whether the value is rebuilt at every use. -/
def BStride.isScratch : BStride → Bool
  | scratch _ => true
  | offset _ | register _ => false

/-- Whether the value is rebuilt at every use. -/
def CColumn.isScratch : CColumn → Bool
  | scratch _ => true
  | offset _ | register _ => false

/-- Whether the value is rebuilt at every use. -/
def Bound.isScratch : Bound → Bool
  | scratch _ => true
  | absent | immediate _ | register _ => false

/-- The form suits a column stride of `A`. -/
def AStride.Fits (bytes : Nat) : AStride → Prop
  | postIndex b => b = bytes ∧ b ≤ vectorOffsetMax
  | plain b => b = bytes ∧ b ≤ imm12Max
  | modified b => b = bytes ∧ ModifiedConstant.isEncodable (UInt32.ofNat b) = true
  | register _ => True
  | scratch b => b = bytes

/-- The form suits a column stride of `B` for tiles of up to `columns` columns. -/
def BStride.Fits (columns bytes : Nat) : BStride → Prop
  | offset b => b = bytes ∧ (columns - 1) * bytes ≤ imm12Max
  | register _ => True
  | scratch b => b = bytes

/-- The form suits the base of column `j` of `C` in the tiles of a layout. -/
def CColumn.Fits (layout : Layout) (bytes j : Nat) : CColumn → Prop
  | offset b => b = j * bytes ∧
      (j < layout.maxTileN → b + 16 * (vectorsOf layout.maxTileM - 1) ≤ vectorOffsetMax)
  | register _ => True
  | scratch b => b = j * bytes

/-- The form suits the bound of a loop. -/
def Bound.Fits (active : Bool) (value : Nat) : Bound → Prop
  | absent => active = false
  | immediate v => v = value ∧ ModifiedConstant.isEncodable (UInt32.ofNat v) = true
  | register _ => True
  | scratch v => v = value

/-! ## Values -/

namespace Plan

/-- The values of a plan, in the order in which they ask for a register. -/
inductive Value where
  | bStride | aStride | cColumn1 | cColumn2 | mBound | nBound
deriving DecidableEq, Repr

namespace Value

/-- All of them in that order. -/
def all : List Value :=
  [bStride, aStride, cColumn1, cColumn2, mBound, nBound]

theorem mem_all (v : Value) : v ∈ all := by
  cases v <;> decide

/-- What a value is called where it is reported. -/
def name : Value → String
  | bStride => "the B column stride"
  | aStride => "the A column stride"
  | cColumn1 => "the C column 1 base"
  | cColumn2 => "the C column 2 base"
  | mBound => "the m loop bound"
  | nBound => "the n loop bound"

/-- Whether the base of column `j` of `C` is out of reach of a vector offset. -/
def columnAsks (layout : Layout) (bytes j : Nat) : Bool :=
  j < layout.maxTileN ∧ vectorOffsetMax < j * bytes + 16 * (vectorsOf layout.maxTileM - 1)

/-- Whether a loop has a bound that no comparison holds. -/
def boundAsks (active : Bool) (value : Nat) : Bool :=
  active && !ModifiedConstant.isEncodable (UInt32.ofNat value)

/-- Whether a value does not fit the immediate of its instruction. -/
def asks (shape : Shape) (layout : Layout) : Value → Bool
  | bStride => imm12Max < (layout.maxTileN - 1) * (shape.ldb * 4)
  | aStride => imm12Max < shape.lda * 4
  | cColumn1 => columnAsks layout (shape.ldc * 4) 1
  | cColumn2 => columnAsks layout (shape.ldc * 4) 2
  | mBound => boundAsks layout.mLoop layout.mBound
  | nBound => boundAsks layout.nLoop layout.nBound

/-- Whether a value that asks has another immediate form. -/
def fallsBack (shape : Shape) : Value → Bool
  | aStride => ModifiedConstant.isEncodable (UInt32.ofNat (shape.lda * 4))
  | bStride | cColumn1 | cColumn2 | mBound | nBound => false

/-- What its register is loaded with at the start of the kernel; the base of a
    column depends on the tile. -/
def preload? (shape : Shape) (layout : Layout) : Value → Option Nat
  | bStride => some (shape.ldb * 4)
  | aStride => some (shape.lda * 4)
  | cColumn1 | cColumn2 => none
  | mBound => some layout.mBound
  | nBound => some layout.nBound

end Value

/-- Registers of a value. -/
def regs (p : Plan) : Value → List Reg
  | .bStride => p.bStride.regs
  | .aStride => p.aStride.regs
  | .cColumn1 => p.cColumn1.regs
  | .cColumn2 => p.cColumn2.regs
  | .mBound => p.mBound.regs
  | .nBound => p.nBound.regs

/-- Whether a value is rebuilt at every use. -/
def isScratch (p : Plan) : Value → Bool
  | .bStride => p.bStride.isScratch
  | .aStride => p.aStride.isScratch
  | .cColumn1 => p.cColumn1.isScratch
  | .cColumn2 => p.cColumn2.isScratch
  | .mBound => p.mBound.isScratch
  | .nBound => p.nBound.isScratch

/-- The form of a value suits it. -/
def Suits (p : Plan) (shape : Shape) (layout : Layout) : Value → Prop
  | .bStride => p.bStride.Fits layout.maxTileN (shape.ldb * 4)
  | .aStride => p.aStride.Fits (shape.lda * 4)
  | .cColumn1 => p.cColumn1.Fits layout (shape.ldc * 4) 1
  | .cColumn2 => p.cColumn2.Fits layout (shape.ldc * 4) 2
  | .mBound => p.mBound.Fits layout.mLoop layout.mBound
  | .nBound => p.nBound.Fits layout.nLoop layout.nBound

end Plan

/-! ## Claims -/

namespace Claims

variable {c c' : Claims} {asks fallback scratch : Bool} {name : String} {value : Option Nat}
  {regs : List Reg}

/-- How a value fares: with its immediate it takes nothing, a register is the first of
    the pool, and only from an empty pool does it fall back to another form or go
    without. -/
inductive Settles (c : Claims) (asks fallback : Bool) (name : String) (value : Option Nat) :
    List Reg → Bool → Claims → Prop where
  | immediate (hasks : asks = false) : Settles c asks fallback name value [] false c
  | granted {reg : Reg} {c' : Claims} (hasks : asks = true)
      (htake : c.take? value = some (reg, c')) : Settles c asks fallback name value [reg] false c'
  | fallback (hasks : asks = true) (hnone : c.take? value = none) (hfallback : fallback = true) :
      Settles c asks fallback name value [] false c
  | missed (hasks : asks = true) (hnone : c.take? value = none) (hfallback : fallback = false) :
      Settles c asks fallback name value [] true (c.miss name)

section

variable {layout : Layout} {bytes : Nat}

/-- With a single column the reach is zero, so it need not be told apart. -/
theorem bStride_eq (c : Claims) (layout : Layout) (bytes : Nat) : c.bStride layout bytes = do
    let reach ← Checked.mul (layout.maxTileN - 1) bytes
    if reach ≤ imm12Max then
      return (.offset bytes, c)
    match c.take? (some bytes) with
    | some (reg, c) => return (.register reg, c)
    | none => return (.scratch bytes, c.miss "the B column stride") := by
  unfold bStride
  by_cases htwo : layout.maxTileN < 2
  · have hzero : Checked.mul (layout.maxTileN - 1) bytes = .ok 0 := by
      rw [show layout.maxTileN - 1 = 0 by omega, Checked.mul_eq_ok (by omega), Nat.zero_mul]
    rw [hzero]
    exact if_pos htwo
  · exact if_neg htwo

theorem settles_bStride {s : BStride} (h : c.bStride layout bytes = .ok (s, c')) :
    s.Fits layout.maxTileN bytes ∧
      c.Settles (imm12Max < (layout.maxTileN - 1) * bytes) false "the B column stride" (some bytes)
        s.regs s.isScratch c' := by
  rw [bStride_eq] at h
  obtain ⟨reach, hreach, h⟩ := bind_eq_ok.mp h
  obtain ⟨-, rfl⟩ := Checked.below_eq_ok_iff.mp hreach
  split at h
  · rename_i hle
    obtain ⟨rfl, rfl⟩ := Prod.mk.inj (pure_eq_ok.mp h)
    exact ⟨⟨rfl, hle⟩, .immediate (decide_eq_false (Nat.not_lt.mpr hle))⟩
  rename_i hgt
  have hasks := decide_eq_true (Nat.lt_of_not_le hgt)
  split at h
  · rename_i reg c₁ htake
    obtain ⟨rfl, rfl⟩ := Prod.mk.inj (pure_eq_ok.mp h)
    exact ⟨trivial, .granted hasks htake⟩
  · rename_i hnone
    obtain ⟨rfl, rfl⟩ := Prod.mk.inj (pure_eq_ok.mp h)
    exact ⟨rfl, .missed hasks hnone rfl⟩

theorem settles_aStride {s : AStride} (h : c.aStride bytes = (s, c')) :
    s.Fits bytes ∧ c.Settles (imm12Max < bytes) (ModifiedConstant.isEncodable (UInt32.ofNat bytes))
      "the A column stride" (some bytes) s.regs s.isScratch c' := by
  unfold aStride at h
  split at h
  · rename_i hpost
    obtain ⟨rfl, rfl⟩ := Prod.mk.inj h
    have hle : bytes ≤ imm12Max := Nat.le_trans hpost (by decide)
    exact ⟨⟨rfl, hpost⟩, .immediate (decide_eq_false (Nat.not_lt.mpr hle))⟩
  split at h
  · rename_i hle
    obtain ⟨rfl, rfl⟩ := Prod.mk.inj h
    exact ⟨⟨rfl, hle⟩, .immediate (decide_eq_false (Nat.not_lt.mpr hle))⟩
  rename_i hgt
  have hasks := decide_eq_true (Nat.lt_of_not_le hgt)
  split at h
  · rename_i reg c₁ htake
    obtain ⟨rfl, rfl⟩ := Prod.mk.inj h
    exact ⟨trivial, .granted hasks htake⟩
  rename_i hnone
  split at h
  · rename_i hmodified
    obtain ⟨rfl, rfl⟩ := Prod.mk.inj h
    exact ⟨⟨rfl, hmodified⟩, .fallback hasks hnone hmodified⟩
  · rename_i hmodified
    obtain ⟨rfl, rfl⟩ := Prod.mk.inj h
    exact ⟨rfl, .missed hasks hnone (Bool.eq_false_iff.mpr hmodified)⟩

theorem settles_cColumn {s : CColumn} {j : Nat} (h : c.cColumn layout bytes j name = .ok (s, c')) :
    s.Fits layout bytes j ∧ c.Settles (Plan.Value.columnAsks layout bytes j) false name none s.regs
      s.isScratch c' := by
  obtain ⟨offset, hoffset, h⟩ := bind_eq_ok.mp h
  obtain ⟨-, rfl⟩ := Checked.below_eq_ok_iff.mp hoffset
  unfold Plan.Value.columnAsks
  split at h
  · rename_i hcolumns
    obtain ⟨rfl, rfl⟩ := Prod.mk.inj (pure_eq_ok.mp h)
    exact ⟨⟨rfl, fun hlt => absurd hlt (Nat.not_lt.mpr hcolumns)⟩,
      .immediate (decide_eq_false fun hasks => absurd hasks.1 (Nat.not_lt.mpr hcolumns))⟩
  rename_i hcolumns
  obtain ⟨vectors, hvectors, h⟩ := bind_eq_ok.mp h
  obtain ⟨-, rfl⟩ := Checked.sub_eq_ok_iff.mp hvectors
  obtain ⟨last, hlast, h⟩ := bind_eq_ok.mp h
  obtain ⟨-, rfl⟩ := Checked.below_eq_ok_iff.mp hlast
  obtain ⟨reach, hreach, h⟩ := bind_eq_ok.mp h
  obtain ⟨-, rfl⟩ := Checked.below_eq_ok_iff.mp hreach
  split at h
  · rename_i hle
    obtain ⟨rfl, rfl⟩ := Prod.mk.inj (pure_eq_ok.mp h)
    exact ⟨⟨rfl, fun _ => hle⟩,
      .immediate (decide_eq_false fun hasks => absurd hasks.2 (Nat.not_lt.mpr hle))⟩
  rename_i hgt
  have hasks := decide_eq_true (And.intro (Nat.lt_of_not_le hcolumns) (Nat.lt_of_not_le hgt))
  split at h
  · rename_i reg c₁ htake
    obtain ⟨rfl, rfl⟩ := Prod.mk.inj (pure_eq_ok.mp h)
    exact ⟨trivial, .granted hasks htake⟩
  · rename_i hnone
    obtain ⟨rfl, rfl⟩ := Prod.mk.inj (pure_eq_ok.mp h)
    exact ⟨rfl, .missed hasks hnone rfl⟩

theorem settles_bound {s : Bound} {active : Bool} {bound : Nat}
    (h : c.bound active bound name = (s, c')) :
    s.Fits active bound ∧ c.Settles (Plan.Value.boundAsks active bound) false name (some bound)
      s.regs s.isScratch c' := by
  unfold Claims.bound at h
  unfold Plan.Value.boundAsks
  split at h
  · rename_i hactive
    obtain ⟨rfl, rfl⟩ := Prod.mk.inj h
    obtain rfl : active = false := by simpa using hactive
    exact ⟨rfl, .immediate rfl⟩
  rename_i hactive
  obtain rfl : active = true := by simpa using hactive
  split at h
  · rename_i hmodified
    obtain ⟨rfl, rfl⟩ := Prod.mk.inj h
    exact ⟨⟨rfl, hmodified⟩, .immediate (by rw [hmodified]; rfl)⟩
  rename_i hmodified
  have hasks : (true && !ModifiedConstant.isEncodable (UInt32.ofNat bound)) = true := by
    simpa using hmodified
  split at h
  · rename_i reg c₁ htake
    obtain ⟨rfl, rfl⟩ := Prod.mk.inj h
    exact ⟨trivial, .granted hasks htake⟩
  · rename_i hnone
    obtain ⟨rfl, rfl⟩ := Prod.mk.inj h
    exact ⟨rfl, .missed hasks hnone rfl⟩

/-- The column stride of `B` finds a form if its last column can be addressed. -/
theorem exists_bStride (c : Claims) (hreach : (layout.maxTileN - 1) * bytes < 2 ^ 32) :
    ∃ s c', c.bStride layout bytes = .ok (s, c') := by
  simp only [bStride_eq, Checked.mul_eq_ok hreach, bind, Except.bind]
  split
  · exact ⟨_, _, rfl⟩
  · cases c.take? (some bytes) <;> exact ⟨_, _, rfl⟩

/-- So does the base of a column of `C`. -/
theorem exists_cColumn (c : Claims) {j : Nat} (name : String)
    (hreach : j * bytes + 16 * vectorsOf layout.maxTileM < 2 ^ 32)
    (hvectors : 1 ≤ vectorsOf layout.maxTileM) :
    ∃ s c', c.cColumn layout bytes j name = .ok (s, c') := by
  simp only [cColumn, Checked.mul_eq_ok (show j * bytes < 2 ^ 32 by omega), bind,
    Except.bind, Checked.sub_eq_ok_iff.mpr ⟨hvectors, rfl⟩,
    Checked.mul_eq_ok (show 16 * (vectorsOf layout.maxTileM - 1) < 2 ^ 32 by omega),
    Checked.add_eq_ok (show j * bytes + 16 * (vectorsOf layout.maxTileM - 1) < 2 ^ 32 by omega)]
  split
  · exact ⟨_, _, rfl⟩
  · split
    · exact ⟨_, _, rfl⟩
    · cases c.take? none <;> exact ⟨_, _, rfl⟩

end

/-- Values of a plan that settle one after the other. -/
inductive Serves (p : Plan) (shape : Shape) (layout : Layout) :
    Claims → List Plan.Value → Claims → Prop where
  | nil {c : Claims} : Serves p shape layout c [] c
  | cons {c c₁ c' : Claims} {v : Plan.Value} {vs : List Plan.Value}
      (hsettles : c.Settles (v.asks shape layout) (v.fallsBack shape) v.name
        (v.preload? shape layout) (p.regs v) (p.isScratch v) c₁)
      (hrest : Serves p shape layout c₁ vs c') : Serves p shape layout c (v :: vs) c'

end Claims

namespace Plan

variable {shape : Shape} {layout : Layout} {initial : RegSet} {p : Plan}

/-- A plan comes from its values settling in order, each with a form that suits it. -/
theorem serves_of_ofPool (h : ofPool shape layout initial = .ok p) :
    (∀ v, p.Suits shape layout v) ∧
      Claims.Serves p shape layout { pool := initial, preloads := [], unavailable := [] } Value.all
        { pool := p.spare, preloads := p.preloads, unavailable := p.unavailable } := by
  obtain ⟨a, ha, h⟩ := bind_eq_ok.mp h
  obtain ⟨b, hb, h⟩ := bind_eq_ok.mp h
  obtain ⟨col, hcol, h⟩ := bind_eq_ok.mp h
  obtain ⟨-, rfl⟩ := Checked.below_eq_ok_iff.mp ha
  obtain ⟨-, rfl⟩ := Checked.below_eq_ok_iff.mp hb
  obtain ⟨-, rfl⟩ := Checked.below_eq_ok_iff.mp hcol
  obtain ⟨⟨sb, c₁⟩, hsb, h⟩ := bind_eq_ok.mp h
  obtain ⟨⟨col₁, c₃⟩, hcol₁, h⟩ := bind_eq_ok.mp h
  obtain ⟨⟨col₂, c₄⟩, hcol₂, h⟩ := bind_eq_ok.mp h
  obtain rfl := pure_eq_ok.mp h
  obtain ⟨hfits₁, hsettles₁⟩ := Claims.settles_bStride hsb
  obtain ⟨hfits₂, hsettles₂⟩ := Claims.settles_aStride
    (show c₁.aStride (shape.lda * 4) = (_, _) from rfl)
  obtain ⟨hfits₃, hsettles₃⟩ := Claims.settles_cColumn hcol₁
  obtain ⟨hfits₄, hsettles₄⟩ := Claims.settles_cColumn hcol₂
  obtain ⟨hfits₅, hsettles₅⟩ := Claims.settles_bound
    (show c₄.bound layout.mLoop layout.mBound "the m loop bound" = (_, _) from rfl)
  obtain ⟨hfits₆, hsettles₆⟩ := Claims.settles_bound
    (show (c₄.bound layout.mLoop layout.mBound "the m loop bound").2.bound layout.nLoop
      layout.nBound "the n loop bound" = (_, _) from rfl)
  refine ⟨fun v => ?_, .cons hsettles₁ (.cons hsettles₂ (.cons hsettles₃ (.cons hsettles₄
    (.cons hsettles₅ (.cons hsettles₆ .nil)))))⟩
  cases v with
  | bStride => exact hfits₁
  | aStride => exact hfits₂
  | cColumn1 => exact hfits₃
  | cColumn2 => exact hfits₄
  | mBound => exact hfits₅
  | nBound => exact hfits₆

end Plan

/-! ## What is left of the pool -/

namespace Claims

variable {c c' : Claims}

theorem take?_eq_some {value : Option Nat} {reg : Reg} (h : c.take? value = some (reg, c')) :
    c.pool.toList = reg :: c'.pool.toList ∧
      c'.preloads = c.preloads ++ (value.map (reg, ·)).toList ∧ c'.unavailable = c.unavailable := by
  obtain ⟨⟨r, pool⟩, hfirst, heq⟩ := Option.map_eq_some_iff.mp h
  obtain ⟨rfl, rfl⟩ := Prod.mk.inj heq
  exact ⟨RegSet.takeFirst?_eq_some hfirst, rfl, rfl⟩

theorem take?_eq_none {value : Option Nat} (h : c.take? value = none) : c.pool.toList = [] :=
  RegSet.takeFirst?_eq_none (Option.map_eq_none_iff.mp h)

section

variable {asks fallback scratch : Bool} {name : String} {value : Option Nat} {regs : List Reg}

/-- A value takes its register from the front of the pool. -/
theorem Settles.pool_eq (h : c.Settles asks fallback name value regs scratch c') :
    c.pool.toList = regs ++ c'.pool.toList := by
  cases h with
  | granted _ htake => exact (take?_eq_some htake).1
  | immediate | fallback | missed => rfl

theorem Settles.preloads_eq (h : c.Settles asks fallback name value regs scratch c') :
    c'.preloads = c.preloads ++ regs.flatMap fun reg => (value.map (reg, ·)).toList := by
  cases h with
  | granted _ htake => rw [(take?_eq_some htake).2.1, List.flatMap_singleton]
  | immediate | fallback | missed => exact (List.append_nil _).symm

theorem Settles.unavailable_eq (h : c.Settles asks fallback name value regs scratch c') :
    c'.unavailable = c.unavailable ++ if scratch then [name] else [] := by
  cases h with
  | granted _ htake => exact (take?_eq_some htake).2.2.trans (List.append_nil _).symm
  | immediate | fallback => exact (List.append_nil _).symm
  | missed => rfl

end

section

variable {p : Plan} {shape : Shape} {layout : Layout} {vs : List Plan.Value}

/-- The registers of a pool go out from its front. -/
theorem Serves.pool_eq (h : Serves p shape layout c vs c') :
    c.pool.toList = vs.flatMap p.regs ++ c'.pool.toList := by
  induction h with
  | nil => rfl
  | cons hsettles _ ih => rw [hsettles.pool_eq, ih, List.flatMap_cons, List.append_assoc]

theorem Serves.preloads_eq (h : Serves p shape layout c vs c') :
    c'.preloads = c.preloads ++ vs.flatMap fun v =>
      (p.regs v).flatMap fun reg => ((v.preload? shape layout).map (reg, ·)).toList := by
  induction h with
  | nil => exact (List.append_nil _).symm
  | cons hsettles _ ih => rw [ih, hsettles.preloads_eq, List.flatMap_cons, List.append_assoc]

/-- The values without a register are reported in order. -/
theorem Serves.unavailable_eq (h : Serves p shape layout c vs c') :
    c'.unavailable = c.unavailable ++ (vs.filter p.isScratch).map Plan.Value.name := by
  induction h with
  | nil => exact (List.append_nil _).symm
  | @cons _ _ _ v _ hsettles _ ih =>
    rw [ih, hsettles.unavailable_eq, List.append_assoc]
    cases hscratch : p.isScratch v with
    | true => simp [hscratch]
    | false => simp [hscratch]

end

end Claims

/-! ## The plan -/

namespace Plan

/-- Registers the plan hands out. -/
def registers (p : Plan) : List Reg :=
  p.bStride.regs ++ p.aStride.regs ++ p.cColumn1.regs ++ p.cColumn2.regs ++ p.mBound.regs ++
    p.nBound.regs

/-- All forms suit their values, registers are handed out once and from the given
    set, and those of the strides and bounds are loaded beforehand. -/
structure Fits (p : Plan) (shape : Shape) (layout : Layout) (initial : RegSet) : Prop where
  aStride : p.aStride.Fits (shape.lda * 4)
  bStride : p.bStride.Fits layout.maxTileN (shape.ldb * 4)
  cColumn1 : p.cColumn1.Fits layout (shape.ldc * 4) 1
  cColumn2 : p.cColumn2.Fits layout (shape.ldc * 4) 2
  mBound : p.mBound.Fits layout.mLoop layout.mBound
  nBound : p.nBound.Fits layout.nLoop layout.nBound
  nodup : p.registers.Nodup
  pool : ∀ r ∈ p.registers, initial.contains r = true
  preloads : p.preloads = p.bStride.regs.map (·, shape.ldb * 4) ++
    p.aStride.regs.map (·, shape.lda * 4) ++ p.mBound.regs.map (·, layout.mBound) ++
    p.nBound.regs.map (·, layout.nBound)
  unavailable : p.unavailable.length ≤ 6

theorem Fits.mono {p : Plan} {shape : Shape} {layout : Layout} {initial initial' : RegSet}
    (h : p.Fits shape layout initial)
    (hsub : ∀ r, initial.contains r = true → initial'.contains r = true) :
    p.Fits shape layout initial' :=
  { h with pool := fun r hr => hsub r (h.pool r hr) }

theorem registers_eq_flatMap (p : Plan) : p.registers = Value.all.flatMap p.regs := by
  simp [registers, Value.all, regs]

section

variable {shape : Shape} {layout : Layout} {initial : RegSet} {p : Plan}

/-- The registers of a plan are the first ones of its pool. -/
theorem toList_eq_of_ofPool (h : ofPool shape layout initial = .ok p) :
    initial.toList = p.registers ++ p.spare.toList := by
  rw [registers_eq_flatMap]
  exact (serves_of_ofPool h).2.pool_eq

/-- A plan from any set of registers fits. -/
theorem fits_of_ofPool (h : ofPool shape layout initial = .ok p) : p.Fits shape layout initial := by
  obtain ⟨hsuits, hserves⟩ := serves_of_ofPool h
  have horder := toList_eq_of_ofPool h
  have hnodup := initial.nodup_toList
  rw [horder] at hnodup
  refine ⟨hsuits .aStride, hsuits .bStride, hsuits .cColumn1, hsuits .cColumn2, hsuits .mBound,
    hsuits .nBound, (List.nodup_append.mp hnodup).1, fun r hr => ?_, ?_, ?_⟩
  · rw [← RegSet.mem_toList, horder]
    exact List.mem_append_left _ hr
  · have hnone : ∀ regs : List Reg, regs.flatMap (fun _ => ([] : List (Reg × Nat))) = [] := by simp
    simpa [Value.all, Value.preload?, regs, ← List.map_eq_flatMap, hnone] using hserves.preloads_eq
  · have hreported : p.unavailable = (Value.all.filter p.isScratch).map Value.name :=
      hserves.unavailable_eq
    rw [hreported, List.length_map]
    exact List.length_filter_le _ Value.all

end

/-- Any set of registers gives a plan. -/
theorem exists_ofPool {shape : Shape} {layout : Layout} (hshape : shape.Valid) (hfits : layout.Fits)
    (initial : RegSet) :
    ∃ p, ofPool shape layout initial = .ok p ∧ p.Fits shape layout initial := by
  have hmax : Shape.maxDimension = 2 ^ 24 := rfl
  have hlda := hshape.lda_le
  have hldb := hshape.ldb_le
  have hldc := hshape.ldc_le
  have hpos := hfits.maxTileM_pos
  have hthree := hfits.maxTileN_le
  have hvectors : 1 ≤ vectorsOf layout.maxTileM := by
    unfold vectorsOf
    omega
  have hbudget := Nat.le_trans (Nat.mul_le_mul_left (vectorsOf layout.maxTileM)
    (Nat.le_add_left 1 layout.maxTileN)) hfits.budget
  have hreach := Nat.mul_le_mul (show layout.maxTileN - 1 ≤ 2 by omega)
    (show shape.ldb * 4 ≤ 2 ^ 26 by omega)
  obtain ⟨b, c₁, hb⟩ := Claims.exists_bStride
    { pool := initial, preloads := [], unavailable := [] }
    (show (layout.maxTileN - 1) * (shape.ldb * 4) < 2 ^ 32 by omega)
  obtain ⟨col₁, c₃, hcol₁⟩ := Claims.exists_cColumn (c₁.aStride (shape.lda * 4)).2
    "the C column 1 base"
    (show 1 * (shape.ldc * 4) + 16 * vectorsOf layout.maxTileM < 2 ^ 32 by omega) hvectors
  obtain ⟨col₂, c₄, hcol₂⟩ := Claims.exists_cColumn c₃
    "the C column 2 base"
    (show 2 * (shape.ldc * 4) + 16 * vectorsOf layout.maxTileM < 2 ^ 32 by omega) hvectors
  have hplan : ∃ p, ofPool shape layout initial = .ok p := by
    simp only [ofPool, Checked.mul_eq_ok (show shape.lda * 4 < 2 ^ 32 by omega),
      Checked.mul_eq_ok (show shape.ldb * 4 < 2 ^ 32 by omega),
      Checked.mul_eq_ok (show shape.ldc * 4 < 2 ^ 32 by omega), bind, Except.bind, hb, hcol₁, hcol₂]
    exact ⟨_, rfl⟩
  obtain ⟨p, hp⟩ := hplan
  exact ⟨p, hp, fits_of_ofPool hp⟩

end Plan

end Gemm

end HeliumKernels
