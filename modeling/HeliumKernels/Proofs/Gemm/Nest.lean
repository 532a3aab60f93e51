/-
  HeliumKernels.Proofs.Gemm.Nest

  The loops over tiles, seen from outside the tiles.  A `Nest` is the code of
  a regime with the tiles left as they are named; `Runs` executes what stands
  around them, the loop indices, pointers, comparisons and branches, and
  lists the tiles it comes by.  A tile may do what it likes with words and
  with registers, except those that persist.  Then every run comes by the
  tiles of the regime, in order, with the pointers at their places; and where
  the operands can be accessed, the code of the tiles is such a run.
-/
import HeliumKernels.Binary32.Fused
import HeliumKernels.Proofs.Gemm.Coverage
import HeliumKernels.Proofs.Gemm.Loops
import HeliumKernels.Proofs.Gemm.TileCode
import HeliumKernels.Proofs.Machine.Straight

namespace HeliumKernels.Gemm

open Role Machine

/-! ## Nests -/

/-- Code around tiles. -/
inductive Nest where
  /-- Code without tiles. -/
  | code (s : Script)
  | tile (t : Tile)
  | seq (first second : Nest)
  /-- Once, and again as long as the comparison at the end says so. -/
  | loop (label : Label) (body : Nest)

namespace Nest

/-- The script of a nest. -/
def script (ctx : Context) : Nest → Script
  | code s => s
  | tile t => ctx.microkernel t
  | seq first second => first.script ctx ++ second.script ctx
  | loop label body => .mark label :: (body.script ctx ++ [.branchTo label .ne])

/-- A nest whose index counts in steps up to its bound. -/
def counted (label : Label) (index : Reg) (bound : Bound) (step : Nat) (body : Nest) : Nest :=
  .seq (.code (Sequence.loadConstant index 0))
    (.loop label (.seq body (.code (Sequence.addConstant index index step aWalk ++
      Context.compare index bound))))

theorem script_counted (ctx : Context) (label : Label) (index : Reg) (bound : Bound) (step : Nat)
    (body : Nest) : (counted label index bound step body).script ctx =
      countedLoop label index bound step (body.script ctx) := rfl

/-- No loop inside a loop has its label. -/
def Fresh (ctx : Context) : Nest → Prop
  | code _ | tile _ => True
  | seq first second => first.Fresh ctx ∧ second.Fresh ctx
  | loop label body => label ∉ (body.script ctx).labels ∧ body.Fresh ctx

/-- A tile that is come by, and the state at that time. -/
abbrev Visit := Tile × Machine

/-- Running a nest takes one state to another and comes by tiles. -/
inductive Runs (mulAdd : MulAdd) (run : Tile → Machine → Machine → Prop) :
    Nest → Machine → List Visit → Machine → Prop where
  | code {s : Script} {m m' : Machine} (h : Does mulAdd s m m') : Runs mulAdd run (.code s) m [] m'
  | tile {t : Tile} {m m' : Machine} (h : run t m m') : Runs mulAdd run (.tile t) m [(t, m)] m'
  | seq {first second : Nest} {m m₁ m' : Machine} {visits visits' : List Visit}
      (hfirst : Runs mulAdd run first m visits m₁) (hsecond : Runs mulAdd run second m₁ visits' m') :
      Runs mulAdd run (.seq first second) m (visits ++ visits') m'
  | again {label : Label} {body : Nest} {m m₁ m' : Machine} {visits visits' : List Visit}
      (hbody : Runs mulAdd run body m visits m₁) (hplain : m₁.Plain)
      (hflags : m₁.flags.holds .ne = true)
      (hrest : Runs mulAdd run (.loop label body) m₁.tick visits' m') :
      Runs mulAdd run (.loop label body) m (visits ++ visits') m'
  | leave {label : Label} {body : Nest} {m m₁ : Machine} {visits : List Visit}
      (hbody : Runs mulAdd run body m visits m₁) (hplain : m₁.Plain)
      (hflags : m₁.flags.holds .ne = false) :
      Runs mulAdd run (.loop label body) m visits m₁.tick

/-- With the code of the tiles in their places, a run of a nest is one of its script. -/
theorem Runs.does {ctx : Context} {mulAdd : MulAdd} {nest : Nest} {m m' : Machine}
    {visits : List Visit}
    (h : Runs mulAdd (fun t => Does mulAdd (ctx.microkernel t)) nest m visits m')
    (hfresh : nest.Fresh ctx) : Does mulAdd (nest.script ctx) m m' := by
  -- along the run; each rule has its counterpart for scripts
  induction h with
  | code h => exact h
  | tile h => exact h
  | seq _ _ ihfirst ihsecond => exact .append (ihfirst hfresh.1) (ihsecond hfresh.2)
  | @again label _ _ m₁ _ _ _ _ hplain hflags _ ihbody ihrest =>
    have hclosing : Closing (.branchTo label .ne) m₁ m₁ _ := .branch label .ne hplain
    rw [hflags] at hclosing
    exact .again rfl hfresh.1 (ihbody hfresh.2) hclosing (ihrest hfresh)
  | @leave label _ _ m₁ _ _ hplain hflags ihbody =>
    have hclosing : Closing (.branchTo label .ne) m₁ m₁ _ := .branch label .ne hplain
    rw [hflags] at hclosing
    exact .leave rfl hfresh.1 (ihbody hfresh.2) hclosing

/-- What the tiles do matters only at the tiles that are come by. -/
theorem Runs.mono {mulAdd : MulAdd} {run run' : Tile → Machine → Machine → Prop} {nest : Nest}
    {m m' : Machine} {visits : List Visit} (h : Runs mulAdd run nest m visits m')
    (himp : ∀ visit ∈ visits, ∀ m₁, run visit.1 visit.2 m₁ → run' visit.1 visit.2 m₁) :
    Runs mulAdd run' nest m visits m' := by
  induction h with
  | code h => exact .code h
  | tile h => exact .tile (himp _ List.mem_cons_self _ h)
  | seq _ _ ihfirst ihsecond =>
    obtain ⟨hfirst, hsecond⟩ := List.forall_mem_append.mp himp
    exact .seq (ihfirst hfirst) (ihsecond hsecond)
  | again _ hplain hflags _ ihbody ihrest =>
    obtain ⟨hbody, hrest⟩ := List.forall_mem_append.mp himp
    exact .again (ihbody hbody) hplain hflags (ihrest hrest)
  | leave _ hplain hflags ihbody => exact .leave (ihbody himp) hplain hflags

/-! ## Postconditions -/

/-- Every run of a nest has the postcondition, and if every tile runs, so does the
    nest. -/
def Must (mulAdd : MulAdd) (run : Tile → Machine → Machine → Prop) (nest : Nest) (m : Machine)
    (Q : List Visit → Machine → Prop) : Prop :=
  ((∀ t m, ∃ m', run t m m') → ∃ visits m', Runs mulAdd run nest m visits m') ∧
    ∀ visits m', Runs mulAdd run nest m visits m' → Q visits m'

namespace Must

variable {mulAdd : MulAdd} {run : Tile → Machine → Machine → Prop} {nest first second body : Nest}
  {m : Machine} {Q Q' : List Visit → Machine → Prop}

theorem imp (h : Must mulAdd run nest m Q) (hQ : ∀ visits m', Q visits m' → Q' visits m') :
    Must mulAdd run nest m Q' :=
  ⟨h.1, fun visits m' hrun => hQ _ _ (h.2 visits m' hrun)⟩

/-- Code does what it achieves. -/
theorem code {s : Script} {touch : Touch} {R : Machine → Prop} (hs : s.Straight)
    (h : Achieves mulAdd s touch m R) (hQ : ∀ m', Frame touch m m' → R m' → Q [] m') :
    Must mulAdd run (.code s) m Q := by
  constructor
  · intro _
    obtain ⟨m', hdoes, -⟩ := h
    exact ⟨[], m', .code hdoes⟩
  · intro visits m' hrun
    cases hrun with
    | code hdoes =>
      obtain ⟨hframe, hR⟩ := h.of_does hs hdoes
      exact hQ m' hframe hR

theorem tile {t : Tile} (h : ∀ m', run t m m' → Q [(t, m)] m') : Must mulAdd run (.tile t) m Q := by
  constructor
  · intro htiles
    obtain ⟨m', hrun⟩ := htiles t m
    exact ⟨_, m', .tile hrun⟩
  · intro visits m' hrun
    cases hrun with
    | tile hrun => exact h m' hrun

theorem seq (h : Must mulAdd run first m Q)
    (h' : ∀ visits m₁, Q visits m₁ →
      Must mulAdd run second m₁ fun visits' m' => Q' (visits ++ visits') m') :
    Must mulAdd run (.seq first second) m Q' := by
  constructor
  · intro htiles
    obtain ⟨visits, m₁, hfirst⟩ := h.1 htiles
    obtain ⟨visits', m', hsecond⟩ := (h' visits m₁ (h.2 _ _ hfirst)).1 htiles
    exact ⟨_, m', .seq hfirst hsecond⟩
  · intro visits m' hrun
    cases hrun with
    | seq hfirst hsecond => exact (h' _ _ (h.2 _ _ hfirst)).2 _ _ hsecond

/-- A loop that runs `n` times; round `c` comes by the tiles of `stops c`. -/
theorem loop {label : Label} {n : Nat} {I : Nat → Machine → Prop} {stops : Nat → List Stop}
    {At : Visit → Stop → Prop} (hn : 0 < n)
    (hround : ∀ c < n, ∀ m₁, I c m₁ → Must mulAdd run body m₁ fun visits m₂ =>
      List.Forall₂ At visits (stops c) ∧ m₂.Plain ∧ m₂.flags.holds .ne = decide (c + 1 < n) ∧
        I (c + 1) m₂.tick)
    (hI : I 0 m) :
    Must mulAdd run (.loop label body) m fun visits m' =>
      List.Forall₂ At visits ((List.range n).flatMap stops) ∧ I n m' := by
  -- from an arbitrary round on, so that the induction is on the rounds that are left
  suffices hmain : ∀ left c, c + (left + 1) = n → ∀ m₁, I c m₁ →
      Must mulAdd run (.loop label body) m₁ fun visits m' =>
        List.Forall₂ At visits ((List.range' c (left + 1)).flatMap stops) ∧ I n m' by
    rw [List.range_eq_range']
    obtain ⟨left, rfl⟩ : ∃ left, n = left + 1 := ⟨n - 1, by omega⟩
    exact hmain left 0 (Nat.zero_add _) m hI
  intro left
  -- the comparison decides which of the two rules for loops applies
  induction left with
  | zero =>
    intro c hc m₁ hIc
    obtain ⟨hexists, hall⟩ := hround c (by omega) m₁ hIc
    constructor
    · intro htiles
      obtain ⟨visits, m₂, hrun⟩ := hexists htiles
      obtain ⟨-, hplain, hflags, -⟩ := hall _ _ hrun
      exact ⟨_, _, .leave hrun hplain (hflags.trans (decide_eq_false (by omega)))⟩
    · intro visits m' hrun
      cases hrun with
      | again hbody _ hagain =>
        obtain ⟨-, -, hflags, -⟩ := hall _ _ hbody
        have := of_decide_eq_true (hflags.symm.trans hagain)
        omega
      | leave hbody =>
        obtain ⟨hvisits, -, -, hI'⟩ := hall _ _ hbody
        rw [hc] at hI'
        exact ⟨by simpa using hvisits, hI'⟩
  | succ left ih =>
    intro c hc m₁ hIc
    obtain ⟨hexists, hall⟩ := hround c (by omega) m₁ hIc
    have hrest : ∀ m₂, I (c + 1) m₂ → Must mulAdd run (.loop label body) m₂ _ :=
      ih (c + 1) (by omega)
    constructor
    · intro htiles
      obtain ⟨visits, m₂, hrun⟩ := hexists htiles
      obtain ⟨-, hplain, hflags, hI'⟩ := hall _ _ hrun
      obtain ⟨visits', m', hrun'⟩ := (hrest _ hI').1 htiles
      exact ⟨_, m', .again hrun hplain (hflags.trans (decide_eq_true (by omega))) hrun'⟩
    · intro visits m' hrun
      cases hrun with
      | again hbody _ _ hagain =>
        obtain ⟨hvisits, -, -, hI'⟩ := hall _ _ hbody
        obtain ⟨hvisits', hI''⟩ := (hrest _ hI').2 _ _ hagain
        rw [List.range'_succ, List.flatMap_cons]
        exact ⟨List.rel_append hvisits hvisits', hI''⟩
      | leave hbody _ hleave =>
        obtain ⟨-, -, hflags, -⟩ := hall _ _ hbody
        have := of_decide_eq_false (hflags.symm.trans hleave)
        omega

/-- A counted nest runs once for each step up to its bound. -/
theorem counted {label : Label} {index : Reg} {bound : Bound} {step n : Nat}
    {I : Nat → Machine → Prop} {stops : Nat → List Stop} {At : Visit → Stop → Prop}
    (hindex : index.General) (hne : index ≠ aWalk) (hstep : 0 < step) (hn : 0 < n)
    (hsmall : n * step < 2 ^ 32) (hbound : bound.Fits true (n * step))
    (hplain : ∀ c m₁, I c m₁ → m₁.Plain)
    (hround : ∀ c < n, ∀ m₁, I c m₁ → m₁.reg index = UInt32.ofNat (c * step) →
      Must mulAdd run body m₁ fun visits m₂ =>
        List.Forall₂ At visits (stops c) ∧ I (c + 1) m₂ ∧ m₂.reg index = m₁.reg index)
    (hkeep : ∀ c m₁ m₂, Frame (Touch.regs fun r => r = index ∨ r = aWalk) m₁ m₂ → I c m₁ → I c m₂)
    (hregs : ∀ c m₁, I c m₁ → ∀ r ∈ bound.regs, r ≠ .pc ∧ m₁.reg r = UInt32.ofNat (n * step))
    (hI : I 0 m) :
    Must mulAdd run (.counted label index bound step body) m fun visits m' =>
      List.Forall₂ At visits ((List.range n).flatMap stops) ∧ I n m' ∧
        m'.reg index = UInt32.ofNat (n * step) := by
  refine seq (Q := fun visits m₁ => visits = [] ∧ I 0 m₁ ∧ m₁.reg index = UInt32.ofNat (0 * step))
    (code (Sequence.straight_loadConstant _ _)
      (Sequence.achieves_loadConstant (hplain 0 m hI).block hindex 0)
      fun m₁ hframe hzero => ⟨rfl, ?_, ?_⟩)
    ?_
  · exact hkeep 0 m m₁ (hframe.mono (Touch.regs_within fun _ => .inl)) hI
  · rw [hzero, Nat.zero_mul]
    rfl
  rintro _ m₁ ⟨rfl, hI₁⟩
  refine (loop (I := fun c m' => I c m' ∧ m'.reg index = UInt32.ofNat (c * step)) hn
    (fun c hc m₂ hI₂ => ?_) hI₁).imp fun visits m' h => h
  refine (hround c hc m₂ hI₂.1 hI₂.2).seq ?_
  rintro visits m₃ ⟨hvisits, hI₃, hsame⟩
  have hplain₃ := hplain _ _ hI₃
  refine code (by simp) (achieves_roundEnd hplain₃ hindex hne hstep hc hsmall hbound
    (fun m' hframe => hregs _ m' (hkeep _ _ _ hframe hI₃)) (hsame.trans hI₂.2)) ?_
  rintro m₄ hframe ⟨hcount, hflags⟩
  rw [List.append_nil]
  exact ⟨hvisits, hframe.plain id hplain₃, hflags, hkeep _ _ _ hframe.tick hI₃, hcount⟩

end Must

end Nest

/-! ## The nest of a regime -/

namespace Context

/-- Full blocks of rows, then the remaining rows. -/
def rowNest (ctx : Context) (tileM nt : Nat) : Nest :=
  .seq
    (.counted rows mIndex ctx.plan.mBound tileM
      (.seq (.tile ⟨tileM, nt⟩)
        (.code (Sequence.addConstant aTile aTile (tileM * 4 : Nat) aWalk ++
          Sequence.addConstant cTile cTile (tileM * 4 : Nat) aWalk))))
    (if ctx.shape.m % tileM = 0 then .code [] else .tile ⟨ctx.shape.m % tileM, nt⟩)

/-- All rows of a block of columns. -/
def blockNest (ctx : Context) (tileM : Option Nat) (nt : Nat) : Nest :=
  match tileM with
  | none => .tile ⟨ctx.shape.m, nt⟩
  | some tileM => ctx.rowNest tileM nt

/-- Full blocks of columns, then the remaining columns. -/
def columnNest (ctx : Context) (tileM : Option Nat) (tileN : Nat) : Nest :=
  .seq
    (.counted columns nIndex ctx.plan.nBound tileN
      (.seq (ctx.blockNest tileM tileN)
        (.code (Sequence.addConstant aTile aTile (-(Product.moved ctx.shape tileM * 4 : Nat)) aWalk ++
          (Sequence.addConstant bTile bTile (tileN * ctx.shape.ldb * 4 : Nat) aWalk ++
            Sequence.addConstant cTile cTile ((tileN * ctx.shape.ldc * 4 : Nat) -
              (Product.moved ctx.shape tileM * 4 : Nat)) aWalk)))))
    (if ctx.shape.n % tileN = 0 then .code [] else ctx.blockNest tileM (ctx.shape.n % tileN))

/-- The tiles of a regime with the loops around them. -/
def nest (ctx : Context) : Regime → Nest
  | .single => ctx.blockNest none ctx.shape.n
  | .mLoop tileM => ctx.blockNest (some tileM) ctx.shape.n
  | .nLoop tileN => ctx.columnNest none tileN
  | .nested tileM tileN => ctx.columnNest (some tileM) tileN

theorem script_blockNest (ctx : Context) (tileM : Option Nat) (nt : Nat) :
    (ctx.blockNest tileM nt).script ctx = ctx.columnBlock tileM nt := by
  cases tileM with
  | none => rfl
  | some tileM =>
    simp only [blockNest, rowNest, columnBlock, Product.rowLoop_eq, Nest.script,
      Nest.script_counted]
    split <;> rfl

/-- The script of the nest is that of the kernel. -/
theorem script_nest (ctx : Context) (regime : Regime) :
    (ctx.nest regime).script ctx = ctx.tiles regime := by
  have hcolumns : ∀ tileM tileN,
      (ctx.columnNest tileM tileN).script ctx = ctx.columnLoop tileM tileN := by
    intro tileM tileN
    simp only [columnNest, Product.columnLoop_eq, Nest.script, Nest.script_counted,
      script_blockNest]
    congr 1
    split
    · rfl
    · exact script_blockNest _ _ _
  cases regime with
  | single => exact script_blockNest ctx none _
  | mLoop tileM => exact script_blockNest ctx (some tileM) _
  | nLoop tileN => exact hcolumns none tileN
  | nested tileM tileN => exact hcolumns (some tileM) tileN

theorem fresh_blockNest (ctx : Context) (tileM : Option Nat) (nt : Nat) :
    (ctx.blockNest tileM nt).Fresh ctx := by
  cases tileM with
  | none => trivial
  | some tileM =>
    refine ⟨⟨trivial, ?_, ⟨trivial, trivial⟩, trivial⟩, ?_⟩
    · simp only [Nest.script, Script.labels_append, Sequence.labels_addConstant, labels_compare,
        List.append_nil]
      exact fun hmem => absurd (labels_microkernel hmem) (by decide)
    · split <;> trivial

/-- Its labels do not get in each other's way. -/
theorem fresh_nest (ctx : Context) (regime : Regime) : (ctx.nest regime).Fresh ctx := by
  have hcolumns : ∀ tileM tileN, (ctx.columnNest tileM tileN).Fresh ctx := by
    refine fun tileM tileN =>
      ⟨⟨trivial, ?_, ⟨fresh_blockNest ctx tileM tileN, trivial⟩, trivial⟩, ?_⟩
    · simp only [Nest.script, script_blockNest, Script.labels_append, Sequence.labels_addConstant,
        labels_compare, List.append_nil]
      intro hmem
      rcases labels_columnBlock hmem with heq | heq <;> exact absurd heq (by decide)
    · split
      · trivial
      · exact fresh_blockNest ctx tileM _
  cases regime with
  | single => exact fresh_blockNest ctx none _
  | mLoop tileM => exact fresh_blockNest ctx (some tileM) _
  | nLoop tileN => exact hcolumns none tileN
  | nested tileM tileN => exact hcolumns (some tileM) tileN

/-! ## Tiles that are come by -/

/-- Tiles that do what they like, except with registers that persist and with the
    mapping of memory. -/
def Respects (ctx : Context) (layout : Layout) (run : Tile → Machine → Machine → Prop) : Prop :=
  ∀ t m m', run t m m' → m.Plain →
    m'.Plain ∧ m.memory.SameMap m'.memory ∧ ∀ r, ctx.Persists layout r → m'.reg r = m.reg r

/-- A tile is come by at its place, counted from where the pointers were at the start. -/
structure Visited (ctx : Context) (layout : Layout) (m₀ : Machine) (visit : Nest.Visit)
    (s : Stop) : Prop where
  tile : visit.1 = s.tile
  a : visit.2.reg aTile = elementAddress (m₀.reg aTile) ctx.shape.lda s.row 0
  b : visit.2.reg bTile = elementAddress (m₀.reg bTile) ctx.shape.ldb 0 s.column
  c : visit.2.reg cTile = elementAddress (m₀.reg cTile) ctx.shape.ldc s.row s.column
  row : layout.mLoop = true → visit.2.reg mIndex = UInt32.ofNat s.row
  column : layout.nLoop = true → visit.2.reg nIndex = UInt32.ofNat s.column
  plain : visit.2.Plain
  preloaded : ctx.Preloaded visit.2
  mapping : m₀.memory.SameMap visit.2.memory

/-- Matrices at the pointers of a state. -/
def origin (m₀ : Machine) : Product :=
  ⟨m₀.reg aTile, m₀.reg bTile, m₀.reg cTile, fun _ _ => 0, fun _ _ => 0, fun _ _ => 0⟩

/-- Between tiles: the pointers are at row `i` and column `j`. -/
structure Stands (ctx : Context) (m₀ : Machine) (i j : Nat) (m : Machine) : Prop where
  plain : m.Plain
  preloaded : ctx.Preloaded m
  mapping : m₀.memory.SameMap m.memory
  pointers : (origin m₀).At ctx.shape i j m

/-- How the rows of a block are cut. -/
def rowsCut (shape : Shape) : Option Nat → List Piece
  | none => [⟨0, shape.m⟩]
  | some tileM => cut shape.m tileM

/-- There is no loop over rows, or one with the given tiles. -/
def RowsOf (shape : Shape) (layout : Layout) : Option Nat → Prop
  | none => layout.mLoop = false
  | some tileM => Product.RowTiling shape layout tileM

section

variable {ctx : Context} {layout : Layout} {mulAdd : MulAdd}
  {run : Tile → Machine → Machine → Prop} {m₀ m m' : Machine} {i j nt : Nat}

/-- Code that works with registers of fixed roles only. -/
theorem Preloaded.of_reserved (hpre : ctx.Preloaded m)
    (hplan : ctx.plan.Fits ctx.shape layout (pool layout)) (hlayout : layout.Fits) {q : Reg → Prop}
    (hframe : Frame (Touch.regs q) m m') (hq : ∀ r, q r → layout.Reserves r) :
    ctx.Preloaded m' := fun x hx =>
  (hframe.reg x.1 fun hr => hplan.ne_of_reserves hlayout (hplan.mem_registers_of_preload hx)
    (hq _ hr) rfl).trans (hpre x hx)

theorem must_tile (hrun : ctx.Respects layout run) {t : Tile} (h : ctx.Stands m₀ i j m)
    (hrow : layout.mLoop = true → m.reg mIndex = UInt32.ofNat i)
    (hcolumn : layout.nLoop = true → m.reg nIndex = UInt32.ofNat j) :
    Nest.Must mulAdd run (.tile t) m fun visits m' =>
      List.Forall₂ (ctx.Visited layout m₀) visits [⟨t, i, j⟩] ∧ ctx.Stands m₀ i j m' ∧
        (layout.mLoop = true → m'.reg mIndex = m.reg mIndex) ∧
        (layout.nLoop = true → m'.reg nIndex = m.reg nIndex) := by
  refine .tile fun m' hm' => ?_
  obtain ⟨hplain, hmapping, hkeeps⟩ := hrun t m m' hm' h.plain
  have hat := h.pointers
  refine ⟨.cons ⟨rfl, hat.a, hat.b, hat.c, hrow, hcolumn, h.plain, h.preloaded, h.mapping⟩ .nil,
    ⟨hplain, fun x hx => (hkeeps _ (.preload hx)).trans (h.preloaded x hx),
      h.mapping.trans hmapping, ?_⟩,
    fun hloop => hkeeps _ (.rowIndex hloop), fun hloop => hkeeps _ (.columnIndex hloop)⟩
  exact ⟨(hkeeps _ (.pointer (by decide))).trans hat.a,
    (hkeeps _ (.pointer (by decide))).trans hat.b, (hkeeps _ (.pointer (by decide))).trans hat.c⟩

variable (hplan : ctx.plan.Fits ctx.shape layout (pool layout)) (hlayout : layout.Fits)
  (hrun : ctx.Respects layout run)

include hplan hlayout

/-- Code between tiles leaves the mapping of memory alone. -/
theorem Stands.of_reserved (h : ctx.Stands m₀ i j m) {q : Reg → Prop}
    (hframe : Frame (Touch.regs q) m m') (hq : ∀ r, q r → layout.Reserves r) {i' j' : Nat}
    (hat : (origin m₀).At ctx.shape i' j' m') : ctx.Stands m₀ i' j' m' where
  plain := hframe.plain id h.plain
  preloaded := h.preloaded.of_reserved hplan hlayout hframe hq
  mapping := h.mapping.trans hframe.memory.sameMap
  pointers := hat

theorem must_nextRows (h : ctx.Stands m₀ i j m) (rows : Nat) :
    Nest.Must mulAdd run (.code (Sequence.addConstant aTile aTile (rows * 4 : Nat) aWalk ++
      Sequence.addConstant cTile cTile (rows * 4 : Nat) aWalk)) m fun visits m' =>
      visits = [] ∧ ctx.Stands m₀ (i + rows) j m' ∧ m'.reg mIndex = m.reg mIndex ∧
        m'.reg nIndex = m.reg nIndex := by
  refine .code (by simp) (Product.achieves_nextRows h.plain h.pointers rows)
    fun m' hframe hat => ⟨rfl, h.of_reserved hplan hlayout hframe ?_ hat,
      hframe.reg _ (by show ¬(_ ∨ _ ∨ _); decide), hframe.reg _ (by show ¬(_ ∨ _ ∨ _); decide)⟩
  rintro r (rfl | rfl | rfl) <;> exact .fixed (by decide)

theorem must_nextColumns (h : ctx.Stands m₀ i j m) (width : Nat) :
    Nest.Must mulAdd run (.code (Sequence.addConstant aTile aTile (-(i * 4 : Nat)) aWalk ++
      (Sequence.addConstant bTile bTile (width * ctx.shape.ldb * 4 : Nat) aWalk ++
        Sequence.addConstant cTile cTile ((width * ctx.shape.ldc * 4 : Nat) - (i * 4 : Nat))
          aWalk))) m fun visits m' =>
      visits = [] ∧ ctx.Stands m₀ 0 (j + width) m' ∧ m'.reg nIndex = m.reg nIndex := by
  refine .code (by simp) (Product.achieves_nextColumns h.plain h.pointers width)
    fun m' hframe hat => ⟨rfl, h.of_reserved hplan hlayout hframe ?_ hat,
      hframe.reg _ (by show ¬_ ∈ _; decide)⟩
  intro r hr
  refine .fixed ?_
  revert r
  decide

include hrun

/-- The loop over full blocks of rows. -/
theorem must_rowBlocks {tileM : Nat} (hrow : Product.RowTiling ctx.shape layout tileM)
    (hm : ctx.shape.m < 2 ^ 32) (h : ctx.Stands m₀ 0 j m)
    (hcolumn : layout.nLoop = true → m.reg nIndex = UInt32.ofNat j) :
    Nest.Must mulAdd run (.counted rows mIndex ctx.plan.mBound tileM
        (.seq (.tile ⟨tileM, nt⟩)
          (.code (Sequence.addConstant aTile aTile (tileM * 4 : Nat) aWalk ++
            Sequence.addConstant cTile cTile (tileM * 4 : Nat) aWalk)))) m fun visits m' =>
      List.Forall₂ (ctx.Visited layout m₀) visits
          ((List.range (ctx.shape.m / tileM)).flatMap fun c => [⟨⟨tileM, nt⟩, c * tileM, j⟩]) ∧
        (ctx.Stands m₀ (ctx.shape.m / tileM * tileM) j m' ∧
          (layout.nLoop = true → m'.reg nIndex = UInt32.ofNat j)) ∧
        m'.reg mIndex = UInt32.ofNat (ctx.shape.m / tileM * tileM) := by
  have hdiv := Nat.div_mul_le_self ctx.shape.m tileM
  have hreserved : ∀ r, (r = mIndex ∨ r = aWalk) → layout.Reserves r := by
    rintro r (rfl | rfl)
    · exact .rowIndex hrow.loop
    · exact .fixed (by decide)
  refine Nest.Must.counted
    (I := fun c m' => ctx.Stands m₀ (c * tileM) j m' ∧
      (layout.nLoop = true → m'.reg nIndex = UInt32.ofNat j))
    (by decide) (by decide) hrow.pos (Nat.div_pos hrow.le hrow.pos) (by omega) ?_
    (fun c m₁ hI => hI.1.plain) (fun c _ m₁ hI hcount => ?_) (fun c m₁ m₂ hframe hI => ?_)
    (fun c m₁ hI r hr => ?_) ?_
  · rw [hrow.bound_eq, ← hrow.loop]
    exact hplan.mBound
  · -- a round: the tile, then the pointers move down
    refine (must_tile hrun hI.1 (fun _ => hcount) hI.2).seq ?_
    rintro visits m₂ ⟨hvisits, hstands, hrows, hcolumns⟩
    refine (must_nextRows hplan hlayout hstands tileM).imp ?_
    rintro _ m₃ ⟨rfl, hstands₃, hrows₃, hcolumns₃⟩
    rw [List.append_nil, Nat.succ_mul]
    exact ⟨hvisits, ⟨hstands₃, fun hloop => by rw [hcolumns₃, hcolumns hloop, hI.2 hloop]⟩,
      hrows₃.trans (hrows hrow.loop)⟩
  · refine ⟨hI.1.of_reserved hplan hlayout hframe hreserved (hI.1.pointers.of_frame hframe ?_),
      fun hloop => (hframe.reg nIndex ?_).trans (hI.2 hloop)⟩
    · rintro r hr (rfl | rfl) <;> exact absurd hr (by decide)
    · rintro (h | h) <;> exact absurd h (by decide)
  · rw [hrow.bound_eq]
    exact hI.1.preloaded.mBound hplan hlayout hr
  · rw [Nat.zero_mul]
    exact ⟨h, hcolumn⟩

/-- The row loop comes by the tiles of its block from top to bottom. -/
theorem must_rowNest {tileM : Nat} (hrow : Product.RowTiling ctx.shape layout tileM)
    (hm : ctx.shape.m < 2 ^ 32) (h : ctx.Stands m₀ 0 j m)
    (hcolumn : layout.nLoop = true → m.reg nIndex = UInt32.ofNat j) :
    Nest.Must mulAdd run (ctx.rowNest tileM nt) m fun visits m' =>
      List.Forall₂ (ctx.Visited layout m₀) visits (blockStops (cut ctx.shape.m tileM) ⟨j, nt⟩) ∧
        ctx.Stands m₀ (ctx.shape.m - ctx.shape.m % tileM) j m' ∧
        (layout.nLoop = true → m'.reg nIndex = UInt32.ofNat j) := by
  have hstops : blockStops (cut ctx.shape.m tileM) ⟨j, nt⟩ =
      ((List.range (ctx.shape.m / tileM)).flatMap fun c => [⟨⟨tileM, nt⟩, c * tileM, j⟩]) ++
        if ctx.shape.m % tileM = 0 then []
        else [⟨⟨ctx.shape.m % tileM, nt⟩, ctx.shape.m - ctx.shape.m % tileM, j⟩] := by
    rw [blockStops, cut, List.map_append, List.map_map, List.map_eq_flatMap]
    congr 1
    split <;> rfl
  rw [hstops]
  refine (must_rowBlocks hplan hlayout hrun hrow hm h hcolumn).seq ?_
  rintro visits m₁ ⟨hvisits, ⟨hstands, hcolumn₁⟩, hcount⟩
  rw [Nat.div_mul_self_eq_mod_sub_self] at hstands hcount
  by_cases hrest : ctx.shape.m % tileM = 0
  · rw [if_pos hrest, if_pos hrest]
    refine .code Script.straight_nil (.nil (t := {}) hstands) fun m' hframe hstands' => ?_
    rw [List.append_nil, List.append_nil]
    exact ⟨hvisits, hstands', fun hloop => (hframe.reg nIndex id).trans (hcolumn₁ hloop)⟩
  · rw [if_neg hrest, if_neg hrest]
    refine (must_tile hrun hstands (fun _ => hcount) hcolumn₁).imp ?_
    rintro visits' m' ⟨hvisits', hstands', -, hcolumns⟩
    exact ⟨List.rel_append hvisits hvisits', hstands',
      fun hloop => (hcolumns hloop).trans (hcolumn₁ hloop)⟩

/-- A block of columns, with a loop over rows or without. -/
theorem must_blockNest {tileM : Option Nat} (hrows : RowsOf ctx.shape layout tileM)
    (hm : ctx.shape.m < 2 ^ 32) (h : ctx.Stands m₀ 0 j m)
    (hcolumn : layout.nLoop = true → m.reg nIndex = UInt32.ofNat j) :
    Nest.Must mulAdd run (ctx.blockNest tileM nt) m fun visits m' =>
      List.Forall₂ (ctx.Visited layout m₀) visits
          (blockStops (rowsCut ctx.shape tileM) ⟨j, nt⟩) ∧
        ctx.Stands m₀ (Product.moved ctx.shape tileM) j m' ∧
        (layout.nLoop = true → m'.reg nIndex = UInt32.ofNat j) := by
  cases tileM with
  | none =>
    have hnone : layout.mLoop = false := hrows
    refine (must_tile hrun h (fun hloop => absurd hloop (by simp [hnone])) hcolumn).imp ?_
    rintro visits m' ⟨hvisits, hstands, -, hcolumns⟩
    exact ⟨hvisits, hstands, fun hloop => (hcolumns hloop).trans (hcolumn hloop)⟩
  | some tileM => exact must_rowNest hplan hlayout hrun hrows hm h hcolumn

/-- The loop over full blocks of columns. -/
theorem must_columnBlocks {tileM : Option Nat} {tileN : Nat}
    (hrows : RowsOf ctx.shape layout tileM) (hcolumns : Product.ColumnTiling ctx.shape layout tileN)
    (hm : ctx.shape.m < 2 ^ 32) (hn : ctx.shape.n < 2 ^ 32) (h : ctx.Stands m₀ 0 0 m) :
    Nest.Must mulAdd run (.counted columns nIndex ctx.plan.nBound tileN
        (.seq (ctx.blockNest tileM tileN)
          (.code (Sequence.addConstant aTile aTile (-(Product.moved ctx.shape tileM * 4 : Nat)) aWalk ++
            (Sequence.addConstant bTile bTile (tileN * ctx.shape.ldb * 4 : Nat) aWalk ++
              Sequence.addConstant cTile cTile ((tileN * ctx.shape.ldc * 4 : Nat) -
                (Product.moved ctx.shape tileM * 4 : Nat)) aWalk))))) m fun visits m' =>
      List.Forall₂ (ctx.Visited layout m₀) visits
          ((List.range (ctx.shape.n / tileN)).flatMap fun c =>
            blockStops (rowsCut ctx.shape tileM) ⟨c * tileN, tileN⟩) ∧
        ctx.Stands m₀ 0 (ctx.shape.n / tileN * tileN) m' ∧
        m'.reg nIndex = UInt32.ofNat (ctx.shape.n / tileN * tileN) := by
  have hdiv := Nat.div_mul_le_self ctx.shape.n tileN
  have hreserved : ∀ r, (r = nIndex ∨ r = aWalk) → layout.Reserves r := by
    rintro r (rfl | rfl)
    · exact .columnIndex hcolumns.loop
    · exact .fixed (by decide)
  refine Nest.Must.counted (I := fun c m' => ctx.Stands m₀ 0 (c * tileN) m')
    (by decide) (by decide) hcolumns.pos (Nat.div_pos hcolumns.le hcolumns.pos) (by omega) ?_
    (fun c m₁ hI => hI.plain) (fun c _ m₁ hI hcount => ?_) (fun c m₁ m₂ hframe hI => ?_)
    (fun c m₁ hI r hr => ?_) ?_
  · rw [hcolumns.bound_eq, ← hcolumns.loop]
    exact hplan.nBound
  · -- a round: the block, then the pointers move to the top of the next
    refine (must_blockNest hplan hlayout hrun hrows hm hI fun _ => hcount).seq ?_
    rintro visits m₂ ⟨hvisits, hstands, hsame⟩
    refine (must_nextColumns hplan hlayout hstands tileN).imp ?_
    rintro _ m₃ ⟨rfl, hstands₃, hsame₃⟩
    rw [List.append_nil, Nat.succ_mul]
    exact ⟨hvisits, hstands₃, by rw [hsame₃, hsame hcolumns.loop, hcount]⟩
  · refine hI.of_reserved hplan hlayout hframe hreserved (hI.pointers.of_frame hframe ?_)
    rintro r hr (rfl | rfl) <;> exact absurd hr (by decide)
  · rw [hcolumns.bound_eq]
    exact hI.preloaded.nBound hplan hlayout hr
  · rw [Nat.zero_mul]
    exact h

/-- The column loop comes by its blocks from left to right. -/
theorem must_columnNest (tileM : Option Nat) {tileN : Nat}
    (hrows : RowsOf ctx.shape layout tileM) (hcolumns : Product.ColumnTiling ctx.shape layout tileN)
    (hm : ctx.shape.m < 2 ^ 32) (hn : ctx.shape.n < 2 ^ 32) (h : ctx.Stands m₀ 0 0 m) :
    Nest.Must mulAdd run (ctx.columnNest tileM tileN) m fun visits _ =>
      List.Forall₂ (ctx.Visited layout m₀) visits
        ((cut ctx.shape.n tileN).flatMap (blockStops (rowsCut ctx.shape tileM))) := by
  have hstops : (cut ctx.shape.n tileN).flatMap (blockStops (rowsCut ctx.shape tileM)) =
      ((List.range (ctx.shape.n / tileN)).flatMap fun c =>
        blockStops (rowsCut ctx.shape tileM) ⟨c * tileN, tileN⟩) ++
        if ctx.shape.n % tileN = 0 then []
        else blockStops (rowsCut ctx.shape tileM)
          ⟨ctx.shape.n - ctx.shape.n % tileN, ctx.shape.n % tileN⟩ := by
    rw [cut, List.flatMap_append, List.flatMap_map]
    congr 1
    split <;> simp
  rw [hstops]
  refine (must_columnBlocks hplan hlayout hrun hrows hcolumns hm hn h).seq ?_
  rintro visits m₁ ⟨hvisits, hstands, hcount⟩
  rw [Nat.div_mul_self_eq_mod_sub_self] at hstands hcount
  by_cases hrest : ctx.shape.n % tileN = 0
  · rw [if_pos hrest, if_pos hrest]
    refine .code Script.straight_nil (.nil (t := {}) hstands) fun m' _ _ => ?_
    rw [List.append_nil, List.append_nil]
    exact hvisits
  · rw [if_neg hrest, if_neg hrest]
    exact (must_blockNest hplan hlayout hrun hrows hm hstands fun _ => hcount).imp
      fun visits' m' hvisits' => List.rel_append hvisits hvisits'.1

/-- Every regime comes by its tiles, in order and at their places. -/
theorem must_nest {regime : Regime} (harranges : regime.Arranges ctx.shape layout)
    (hm : ctx.shape.m < 2 ^ 32) (hn : ctx.shape.n < 2 ^ 32) (hplain : m.Plain)
    (hpre : ctx.Preloaded m) :
    Nest.Must mulAdd run (ctx.nest regime) m fun visits _ =>
      List.Forall₂ (ctx.Visited layout m) visits (regime.stops ctx.shape) := by
  have hstart : ctx.Stands m 0 0 m := by
    refine ⟨hplain, hpre, .refl _, ?_, ?_, ?_⟩ <;> simp [origin, elementAddress, wordAddress_zero]
  have hblock : ∀ tileM, RowsOf ctx.shape layout tileM → layout.nLoop = false →
      Nest.Must mulAdd run (ctx.blockNest tileM ctx.shape.n) m fun visits _ =>
        List.Forall₂ (ctx.Visited layout m) visits
          ([⟨0, ctx.shape.n⟩].flatMap (blockStops (rowsCut ctx.shape tileM))) := by
    intro tileM hrows hnone
    rw [List.flatMap_singleton]
    exact (must_blockNest hplan hlayout hrun hrows hm hstart
      fun hloop => absurd hloop (by simp [hnone])).imp fun visits m' hvisits => hvisits.1
  cases harranges with
  | single => exact hblock none rfl rfl
  | mLoop hpos hle => exact hblock (some _) ⟨rfl, rfl, hpos, hle, Nat.le_refl _⟩ rfl
  | nLoop hpos hle =>
    exact must_columnNest hplan hlayout hrun none rfl ⟨rfl, rfl, hpos, hle, Nat.le_refl _⟩ hm hn
      hstart
  | nested hpos hle hpos' hle' =>
    exact must_columnNest hplan hlayout hrun (some _) ⟨rfl, rfl, hpos, hle, Nat.le_refl _⟩
      ⟨rfl, rfl, hpos', hle', Nat.le_refl _⟩ hm hn hstart

end

end Context

/-! ## Coverage -/

/-- Elements of a tile are elements of the matrix. -/
theorem Coverage.inside {shape : Shape} {layout : Layout} {stops : List Stop}
    (h : Coverage shape layout stops) {s : Stop} (hs : s ∈ stops) {i j : Nat} (hi : i < s.tile.mt)
    (hj : j < s.tile.nt) : s.row + i < shape.m ∧ s.column + j < shape.n := by
  have hcovers : s.covers (s.row + i) (s.column + j) = true := by
    simp [Stop.covers, hi, hj]
  have hpos : 0 < stops.countP (·.covers (s.row + i) (s.column + j)) :=
    List.countP_pos_iff.mpr ⟨s, hs, hcovers⟩
  rw [h.once] at hpos
  -- an element outside is covered by no tile at all
  by_contra hout
  rw [if_neg hout] at hpos
  cases hpos

namespace Context

variable {ctx : Context} {layout : Layout} {m : Machine}

/-- If the operands of all tiles are there, so are those of a tile that is come by. -/
theorem Supplied.of_visited (h : ctx.Supplied ⟨ctx.shape.m, ctx.shape.n⟩ m) {stops : List Stop}
    (hcoverage : Coverage ctx.shape layout stops) {s : Stop} (hs : s ∈ stops) {visit : Nest.Visit}
    (hvisit : ctx.Visited layout m visit s) : ctx.Supplied visit.1 visit.2 := by
  obtain ⟨⟨hrows, -⟩, hcolumns, -⟩ := And.intro (hcoverage.rows s hs) (hcoverage.columns s hs)
  rw [hvisit.tile]
  refine ⟨hvisit.plain, hvisit.preloaded, fun i hi kk hkk => ?_, fun kk hkk j hj => ?_,
    fun i hi j hj => ?_⟩
  · rw [(hvisit.mapping _).1, hvisit.a, elementAddress_elementAddress, Nat.zero_add]
    exact h.a_readable _ (hcoverage.inside hs hi hcolumns).1 kk hkk
  · rw [(hvisit.mapping _).1, hvisit.b, elementAddress_elementAddress, Nat.zero_add]
    exact h.b_readable kk hkk _ (hcoverage.inside hs hrows hj).2
  · rw [(hvisit.mapping _).2, hvisit.c, elementAddress_elementAddress]
    obtain ⟨hi', hj'⟩ := hcoverage.inside hs hi hj
    exact h.c_writable _ hi' _ hj'

/-- With its operands at hand the code of the tiles runs, and comes by all of them. -/
theorem Fits.exists_runs (hctx : ctx.Fits layout) {regime : Regime}
    (harranges : regime.Arranges ctx.shape layout)
    (h : ctx.Supplied ⟨ctx.shape.m, ctx.shape.n⟩ m) (mulAdd : MulAdd) :
    ∃ visits m', Nest.Runs mulAdd (fun t => Does mulAdd (ctx.microkernel t)) (ctx.nest regime) m
        visits m' ∧
      List.Forall₂ (ctx.Visited layout m) visits (regime.stops ctx.shape) := by
  have hcoverage := harranges.coverage hctx.layout hctx.shape.m_pos hctx.shape.n_pos
  have hmax : Shape.maxDimension = 2 ^ 24 := rfl
  have hrows := Nat.le_trans hctx.shape.m_le_lda hctx.shape.lda_le
  have hcolumns := hctx.shape.n_le
  -- a tile without operands stands still, so that there always is a run to speak of
  let run : Tile → Machine → Machine → Prop := fun t m m' =>
    (t.Fits ctx.shape layout ∧ ctx.Supplied t m → Does mulAdd (ctx.microkernel t) m m') ∧
      (m.Plain → m'.Plain ∧ m.memory.SameMap m'.memory ∧
        ∀ r, ctx.Persists layout r → m'.reg r = m.reg r)
  have htotal : ∀ t m, ∃ m', run t m m' := by
    intro t m
    by_cases hready : t.Fits ctx.shape layout ∧ ctx.Supplied t m
    · obtain ⟨m', hdoes, hfinishes⟩ := hctx.exists_finishes hready.1 hready.2 mulAdd
      exact ⟨m', fun _ => hdoes, fun _ => ⟨hfinishes.plain, hfinishes.mapping, hfinishes.persists⟩⟩
    · exact ⟨m, fun hready' => absurd hready' hready,
        fun hplain => ⟨hplain, .refl _, fun _ _ => rfl⟩⟩
  have hrespects : ctx.Respects layout run := fun t m m' hrun => hrun.2
  have hmust : Nest.Must mulAdd run (ctx.nest regime) m _ :=
    must_nest hctx.plan hctx.layout hrespects harranges (by omega) (by omega) h.plain h.preloaded
  obtain ⟨hexists, hall⟩ := hmust
  obtain ⟨visits, m', hruns⟩ := hexists htotal
  have hvisits := hall visits m' hruns
  refine ⟨visits, m', hruns.mono fun visit hvisit m₁ hrun => hrun.1 ?_, hvisits⟩
  obtain ⟨n, hn, rfl⟩ := List.getElem_of_mem hvisit
  have hn' := hvisits.length_eq ▸ hn
  have hvisited := hvisits.get hn hn'
  have hmem := List.getElem_mem hn'
  refine ⟨?_, h.of_visited hcoverage hmem hvisited⟩
  obtain ⟨hmt, hmt'⟩ := hcoverage.rows _ hmem
  obtain ⟨hnt, hnt'⟩ := hcoverage.columns _ hmem
  have hfits : Tile.Fits _ ctx.shape layout :=
    ⟨hmt, hnt, hmt', hnt', Nat.le_trans hmt' harranges.maxTileM_le⟩
  exact hvisited.tile ▸ hfits

end Context

/-- The tiles of an accepted tiling cover `C` exactly once, within the registers there
    are, and they are the tiles that the code of the kernel comes by.  Whatever the tiles
    do apart from the registers that persist, the loops around them stop at each of
    them once, in order, with the pointers and indices at its place; and where the
    operands of a valid shape can be accessed, the code of the tiles is such a run. -/
theorem tiles_cover_once {tiling : Tiling} {shape : Shape} (htiling : tiling.error? = .ok none)
    (hm : 1 ≤ shape.m) (hn : 1 ≤ shape.n) :
    ∃ layout, (Regime.select shape tiling).layout shape = .ok layout ∧
      Coverage shape layout ((Regime.select shape tiling).stops shape) ∧
      ∀ (ctx : Context) (initial : RegSet), ctx.shape = shape → shape.m < 2 ^ 32 →
        shape.n < 2 ^ 32 → Plan.ofPool shape layout initial = .ok ctx.plan →
        (∀ r, initial.contains r = true → (pool layout).contains r = true) →
        (ctx.nest (Regime.select shape tiling)).script ctx =
            ctx.tiles (Regime.select shape tiling) ∧
          ∀ mulAdd : MulAdd,
            (∀ run : Tile → Machine → Machine → Prop, ctx.Respects layout run →
              ∀ m, m.Plain → ctx.Preloaded m →
                Nest.Must mulAdd run (ctx.nest (Regime.select shape tiling)) m fun visits _ =>
                  List.Forall₂ (ctx.Visited layout m) visits
                    ((Regime.select shape tiling).stops shape)) ∧
            (shape.error? = none → Context.ofPlan shape ctx.plan = .ok ctx →
              ∀ m, ctx.Supplied ⟨shape.m, shape.n⟩ m →
                ∃ visits m', Nest.Runs mulAdd (fun t => Does mulAdd (ctx.microkernel t))
                    (ctx.nest (Regime.select shape tiling)) m visits m' ∧
                  Does mulAdd (ctx.tiles (Regime.select shape tiling)) m m' ∧
                  List.Forall₂ (ctx.Visited layout m) visits
                    ((Regime.select shape tiling).stops shape)) := by
  obtain ⟨layout, harranges, hlayout⟩ :=
    Regime.exists_layout_of_pos hm hn (Tiling.valid_of_error? htiling)
  refine ⟨layout, harranges.layout_eq, harranges.coverage hlayout hm hn, ?_⟩
  rintro ctx initial rfl hm' hn' hplan hinitial
  have hfits := (Plan.fits_of_ofPool hplan).mono hinitial
  refine ⟨ctx.script_nest _, fun mulAdd => ⟨fun run hrun m hplain hpre => ?_,
    fun hshape hctx m hsupplied => ?_⟩⟩
  · exact Context.must_nest hfits hlayout hrun harranges hm' hn' hplain hpre
  · obtain ⟨ctx', hctx', -, -, hplanned⟩ :=
      Context.exists_ofPlan (Shape.valid_of_error? hshape) hlayout hfits
    obtain rfl := Except.ok.inj (hctx.symm.trans hctx')
    have hctxFits : ctx.Fits layout := hplanned
    obtain ⟨visits, m', hruns, hvisits⟩ := hctxFits.exists_runs harranges hsupplied mulAdd
    refine ⟨visits, m', hruns, ?_, hvisits⟩
    rw [← ctx.script_nest]
    exact hruns.does (ctx.fresh_nest _)

/-- Two rows of tiles, the second of a single row, and eighty-seven columns of tiles,
    with the bound of the columns in a register. -/
theorem tiles_cover_once_narrow :
    ∃ (ctx : Context) (visits : List Nest.Visit) (m' : Machine),
      ctx.shape = Shape.packed 9 5 261 ∧ ctx.plan.preloads = [(.r10, 261)] ∧
      Nest.Runs Binary32.mulAdd (fun _ m m' => m' = m) (ctx.nest (.nested 8 3))
        (Machine.fresh.setReg .r10 261) visits m' ∧ visits.length = 174 := by
  have hlayout : (Regime.select (Shape.packed 9 5 261) {}).layout (Shape.packed 9 5 261) =
      .ok ⟨true, true, 8, 3, 8, 261⟩ := rfl
  have hplan : Plan.ofPool (Shape.packed 9 5 261) ⟨true, true, 8, 3, 8, 261⟩
      (pool ⟨true, true, 8, 3, 8, 261⟩) = .ok ⟨.postIndex 36, .offset 20, .offset 36,
        .offset 72, .immediate 8, .register .r10, [(.r10, 261)], [], .ofList [.r11, .r12]⟩ := by
    decide +kernel
  obtain ⟨layout, hlayout', -, hcode⟩ :=
    tiles_cover_once (show Tiling.error? {} = .ok none from rfl)
      (show 1 ≤ (Shape.packed 9 5 261).m by decide) (by decide)
  obtain rfl := Except.ok.inj (hlayout.symm.trans hlayout')
  obtain ⟨-, hcode⟩ := hcode ⟨Shape.packed 9 5 261, _, 20, 40⟩ _ rfl (by decide) (by decide)
    hplan fun _ => id
  obtain ⟨hexists, hall⟩ := (hcode Binary32.mulAdd).1 (fun _ m m' => m' = m)
    (fun _ m _ heq (hplain : m.Plain) => by subst heq; exact ⟨hplain, .refl _, fun _ _ => rfl⟩)
    (Machine.fresh.setReg .r10 261) ⟨rfl, rfl⟩ (by simp [Context.Preloaded])
  obtain ⟨visits, m', hruns⟩ := hexists fun _ m => ⟨m, rfl⟩
  have hlength := (hall visits m' hruns).length_eq
  exact ⟨_, visits, m', rfl, rfl, hruns, hlength.trans (by decide +kernel)⟩

end HeliumKernels.Gemm
