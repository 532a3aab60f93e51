/-
  HeliumKernels.Proofs.Gemm.Allocation

  Who gets the registers of a pool.  The values that do not fit their
  immediates are served in a fixed order, first come, first served: the value
  that is number `i` among them gets register number `i` of the pool, if the
  pool has that many.  A value that comes too late is rebuilt at every use,
  unless it has another immediate form, and exactly these values are reported,
  in the same order.
-/
import HeliumKernels.Proofs.Gemm.Tile

namespace HeliumKernels.Gemm

/-! ## One value -/

namespace Claims

variable {c c' : Claims}

section

variable {asks fallback scratch : Bool} {name : String} {value : Option Nat} {regs : List Reg}

theorem Settles.regs_eq_nil (h : c.Settles asks fallback name value regs scratch c')
    (hasks : asks = false) : regs = [] := by
  cases h with
  | granted hasks' => exact absurd hasks' (by simp [hasks])
  | immediate | fallback | missed => rfl

/-- Only a value that asked in vain and cannot do without is rebuilt. -/
theorem Settles.scratch_iff (h : c.Settles asks fallback name value regs scratch c') :
    scratch = true ↔ asks = true ∧ regs = [] ∧ fallback = false := by
  cases h with
  | immediate hasks => simp [hasks]
  | granted => simp
  | fallback _ _ hfallback => simp [hfallback]
  | missed hasks _ hfallback => simp [hasks, hfallback]

/-- A value that asks gets what is at the front of the pool, and the next one finds
    the rest. -/
theorem Settles.front (h : c.Settles asks fallback name value regs scratch c')
    (hasks : asks = true) :
    regs = c.pool.toList.head?.toList ∧ c'.pool.toList = c.pool.toList.tail := by
  cases h with
  | immediate hasks' => exact absurd hasks (by simp [hasks'])
  | granted _ htake =>
    rw [(take?_eq_some htake).1]
    exact ⟨rfl, rfl⟩
  | fallback _ hnone =>
    rw [take?_eq_none hnone]
    exact ⟨rfl, rfl⟩
  | missed _ hnone =>
    have hempty := take?_eq_none hnone
    rw [hempty]
    exact ⟨rfl, hempty⟩

/-- Any other value leaves the pool alone. -/
theorem Settles.pool_eq_of_not_asks (h : c.Settles asks fallback name value regs scratch c')
    (hasks : asks = false) : c'.pool.toList = c.pool.toList := by
  rw [h.pool_eq, h.regs_eq_nil hasks, List.nil_append]

end

/-! ## All values -/

variable {p : Plan} {shape : Shape} {layout : Layout} {vs : List Plan.Value}

theorem Serves.settles_of_mem (h : Serves p shape layout c vs c') {v : Plan.Value} (hv : v ∈ vs) :
    ∃ c₁ c₂ : Claims, c₁.Settles (v.asks shape layout) (v.fallsBack shape) v.name
      (v.preload? shape layout) (p.regs v) (p.isScratch v) c₂ := by
  induction h with
  | nil => cases hv
  | cons hsettles _ ih =>
    rcases List.mem_cons.mp hv with rfl | hv
    · exact ⟨_, _, hsettles⟩
    · exact ih hv

/-- Number `i` of the values that ask gets number `i` of the registers. -/
theorem Serves.regs_eq (h : Serves p shape layout c vs c') {i : Nat} {v : Plan.Value}
    (hv : (vs.filter (Plan.Value.asks shape layout))[i]? = some v) :
    p.regs v = c.pool.toList[i]?.toList := by
  induction h generalizing i with
  | nil => simp at hv
  | @cons c c₁ _ w _ hsettles _ ih =>
    cases hasks : w.asks shape layout with
    | false =>
      -- the first value takes nothing, so the numbers stay as they are
      rw [List.filter_cons_of_neg (by simp [hasks])] at hv
      rw [ih hv, hsettles.pool_eq_of_not_asks hasks]
    | true =>
      obtain ⟨hregs, hpool⟩ := hsettles.front hasks
      rw [List.filter_cons_of_pos hasks] at hv
      cases i with
      | zero =>
        obtain rfl : w = v := by simpa using hv
        rw [hregs, List.head?_eq_getElem?]
      | succ i =>
        rw [List.getElem?_cons_succ] at hv
        rw [ih hv, hpool, List.getElem?_tail]

end Claims

/-! ## The plan -/

namespace Plan

/-- The values that do not fit their immediates, in the order in which they ask. -/
def asking (shape : Shape) (layout : Layout) : List Value :=
  Value.all.filter (Value.asks shape layout)

/-- What a plan promises about the registers of a pool, beyond what it promises
    about each value. -/
structure Sound (p : Plan) (shape : Shape) (layout : Layout) (initial : RegSet) : Prop
    extends p.Fits shape layout initial where
  /-- No register has a fixed role. -/
  free : ∀ r ∈ p.registers, ¬layout.Reserves r
  /-- What is not handed out is spare. -/
  spare : ∀ r, p.spare.contains r = true ↔ initial.contains r = true ∧ r ∉ p.registers
  /-- The values that ask get the registers of the pool one after the other. -/
  granted : ∀ (i : Nat) v, (asking shape layout)[i]? = some v → p.regs v = initial.toList[i]?.toList
  /-- The others get none. -/
  idle : ∀ v, v.asks shape layout = false → p.regs v = []
  /-- Values that got none are rebuilt, unless they have another form. -/
  rebuilt : ∀ v, p.isScratch v = true ↔
    v.asks shape layout = true ∧ p.regs v = [] ∧ v.fallsBack shape = false
  /-- Exactly these are reported, in order. -/
  reported : p.unavailable = (Value.all.filter p.isScratch).map Value.name

/-- Every accepted shape and tiling has a sound plan with each part of the pool that
    its layout leaves free. -/
theorem exists_sound {tiling : Tiling} {shape : Shape} (htiling : tiling.error? = .ok none)
    (hshape : shape.error? = none) :
    ∃ layout, (Regime.select shape tiling).layout shape = .ok layout ∧
      ∀ initial : RegSet, (∀ r, initial.contains r = true → (pool layout).contains r = true) →
        ∃ p, ofPool shape layout initial = .ok p ∧ p.Sound shape layout initial := by
  have hvalid := Shape.valid_of_error? hshape
  obtain ⟨layout, harranges, hlayout⟩ :=
    Regime.exists_layout hvalid (Tiling.valid_of_error? htiling)
  refine ⟨layout, harranges.layout_eq, fun initial hinitial => ?_⟩
  obtain ⟨p, hp, hfits⟩ := exists_ofPool hvalid hlayout initial
  obtain ⟨-, hserves⟩ := serves_of_ofPool hp
  have horder := toList_eq_of_ofPool hp
  have hnodup := initial.nodup_toList
  rw [horder] at hnodup
  have hapart := (List.nodup_append.mp hnodup).2.2
  refine ⟨p, hp, hfits, fun r hr hreserves => ?_, fun r => ?_, fun i v hv => hserves.regs_eq hv,
    fun v hasks => ?_, fun v => ?_, hserves.unavailable_eq⟩
  · exact (hfits.mono hinitial).ne_of_reserves hlayout hr hreserves rfl
  · rw [← RegSet.mem_toList, ← RegSet.mem_toList, horder, List.mem_append]
    constructor
    · exact fun hspare => ⟨.inr hspare, fun hr => hapart r hr r hspare rfl⟩
    · exact fun ⟨hmem, hr⟩ => hmem.resolve_left hr
  · obtain ⟨_, _, hsettles⟩ := hserves.settles_of_mem v.mem_all
    exact hsettles.regs_eq_nil hasks
  · obtain ⟨_, _, hsettles⟩ := hserves.settles_of_mem v.mem_all
    exact hsettles.scratch_iff

/-- All six values of a large problem ask; with two registers, four go without. -/
theorem exists_sound_scarce :
    Tiling.error? {} = .ok none ∧ (Shape.packed 2060 1200 1000).error? = none ∧
      ∃ layout p, (Regime.select (Shape.packed 2060 1200 1000) {}).layout
          (Shape.packed 2060 1200 1000) = .ok layout ∧
        ofPool (Shape.packed 2060 1200 1000) layout (.ofList [.r11, .r12]) = .ok p ∧
        p.bStride.regs = [.r11] ∧ p.aStride.regs = [.r12] ∧
        p.preloads = [(.r11, 4800), (.r12, 8240)] ∧
        p.unavailable = ["the C column 1 base", "the C column 2 base", "the m loop bound",
          "the n loop bound"] := by
  have hlayout : (Regime.select (Shape.packed 2060 1200 1000) {}).layout
      (Shape.packed 2060 1200 1000) = .ok ⟨true, true, 8, 3, 2056, 999⟩ := rfl
  obtain ⟨layout, hlayout', hpools⟩ := exists_sound (show Tiling.error? {} = .ok none from rfl)
    (show (Shape.packed 2060 1200 1000).error? = none from rfl)
  obtain rfl := Except.ok.inj (hlayout.symm.trans hlayout')
  obtain ⟨p, hp, hsound⟩ := hpools (.ofList [.r11, .r12]) (by rintro (_ | _) <;> decide)
  have hregs : ∀ (i : Nat) v, Value.all[i]? = some v → p.regs v = [Reg.r11, .r12][i]?.toList :=
    hsound.granted
  have hscratch : ∀ v, p.isScratch v = (p.regs v).isEmpty := by
    intro v
    have hneeds : v.asks (Shape.packed 2060 1200 1000) ⟨true, true, 8, 3, 2056, 999⟩ = true ∧
        v.fallsBack (Shape.packed 2060 1200 1000) = false := by
      cases v <;> decide
    rw [Bool.eq_iff_iff, hsound.rebuilt, List.isEmpty_iff]
    exact ⟨fun h => h.2.1, fun h => ⟨hneeds.1, h, hneeds.2⟩⟩
  have hb : p.bStride.regs = [.r11] := hregs 0 .bStride rfl
  have ha : p.aStride.regs = [.r12] := hregs 1 .aStride rfl
  have hm : p.mBound.regs = [] := hregs 4 .mBound rfl
  have hn : p.nBound.regs = [] := hregs 5 .nBound rfl
  refine ⟨rfl, rfl, _, p, hlayout, hp, hb, ha, ?_, ?_⟩
  · rw [hsound.preloads, hb, ha, hm, hn]
    rfl
  · rw [hsound.reported]
    simp only [Value.all, List.filter, hscratch, hregs 0 .bStride rfl, hregs 1 .aStride rfl,
      hregs 2 .cColumn1 rfl, hregs 3 .cColumn2 rfl, hregs 4 .mBound rfl, hregs 5 .nBound rfl]
    rfl

end Plan

end HeliumKernels.Gemm
