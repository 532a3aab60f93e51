/-
  HeliumKernels.Proofs.Gemm.TileCode

  The code of a tile, wherever it stands.  A tile needs the elements of its
  rows of `A`, of its columns of `B` and of its block of `C`, and the values
  that the plan keeps in registers.  Its code then runs from its first
  half-word to its end: it adds up the products in order, from what memory
  held at first, and leaves alone all that lasts from one tile to the next.
-/
import HeliumKernels.Proofs.Gemm.Isolation
import HeliumKernels.Proofs.Gemm.Microkernel
import HeliumKernels.Proofs.Gemm.WellFormed

namespace HeliumKernels.Gemm

open Role Machine

namespace Context

/-! ## What a tile finds and leaves -/

/-- What a tile relies on: the pointers are at words that it may access, and no
    predication is under way. -/
structure Supplied (ctx : Context) (t : Tile) (m : Machine) : Prop where
  plain : m.Plain
  preloaded : ctx.Preloaded m
  a_readable : ∀ i < t.mt, ∀ kk < ctx.shape.k,
    m.memory.Readable (elementAddress (m.reg aTile) ctx.shape.lda i kk)
  b_readable : ∀ kk < ctx.shape.k, ∀ j < t.nt,
    m.memory.Readable (elementAddress (m.reg bTile) ctx.shape.ldb kk j)
  c_writable : ∀ i < t.mt, ∀ j < t.nt,
    m.memory.Writable (elementAddress (m.reg cTile) ctx.shape.ldc i j)

/-- What a tile has done: each element of its block is the sum of what was there and
    of the products, from the words that memory held at first. -/
structure Finishes (ctx : Context) (layout : Layout) (mulAdd : MulAdd) (t : Tile)
    (m m' : Machine) : Prop where
  result : ∀ i < t.mt, ∀ j < t.nt,
    m'.memory.read (elementAddress (m.reg cTile) ctx.shape.ldc i j) = .ok (accumulate mulAdd
      (fun kk => m.memory.wordAt (elementAddress (m.reg aTile) ctx.shape.lda i kk))
      (fun kk => m.memory.wordAt (elementAddress (m.reg bTile) ctx.shape.ldb kk j))
      (m.memory.wordAt (elementAddress (m.reg cTile) ctx.shape.ldc i j)) ctx.shape.k)
  bytes : ∀ address, (∀ i < t.mt, ∀ j < t.nt,
      ¬InWord address (elementAddress (m.reg cTile) ctx.shape.ldc i j)) →
    m'.memory.byte? address = m.memory.byte? address
  mapping : m.memory.SameMap m'.memory
  plain : m'.Plain
  persists : ∀ r, ctx.Persists layout r → m'.reg r = m.reg r

variable {ctx : Context} {layout : Layout} {t : Tile} {m : Machine}

/-- A tile that finds what it relies on does its work. -/
theorem Fits.exists_finishes (hctx : ctx.Fits layout) (ht : t.Fits ctx.shape layout)
    (h : ctx.Supplied t m) (mulAdd : MulAdd) :
    ∃ m', Does mulAdd (ctx.microkernel t) m m' ∧ ctx.Finishes layout mulAdd t m m' := by
  have hops : ctx.Operands t (m.reg aTile) (m.reg bTile)
      (fun i kk => m.memory.wordAt (elementAddress (m.reg aTile) ctx.shape.lda i kk))
      (fun kk j => m.memory.wordAt (elementAddress (m.reg bTile) ctx.shape.ldb kk j)) m.memory :=
    ⟨fun i hi kk hkk => (h.a_readable i hi kk hkk).read_eq,
      fun kk hkk j hj => (h.b_readable kk hkk j hj).read_eq⟩
  have hachieves : Achieves mulAdd (ctx.microkernel t) _ m _ :=
    (hctx.achieves_microkernel ht h.plain h.preloaded hops
      (fun i hi j hj => (h.c_writable i hi j hj).readable.read_eq) h.c_writable).achieves
  obtain ⟨m', hdoes, hframe, hresult⟩ := hachieves
  refine ⟨m', hdoes, hresult, fun address hout => ?_, hframe.memory.sameMap,
    hframe.plain id h.plain, fun r hr => hframe.reg r (hctx.not_uses_of_persists ht hr)⟩
  refine hframe.memory.byte?_eq ?_
  rintro _ ⟨i, hi, j, hj, rfl⟩
  have := hout i hi j hj
  rw [InWord] at this
  omega

/-! ## Where the code stands -/

open Assembler

/-- The code of a tile goes through the assembler at any place.  It records nothing
    but perhaps a full buffer. -/
theorem Fits.exists_run_microkernel (hctx : ctx.Fits layout) (ht : t.Fits ctx.shape layout)
    {a : Assembler} {ws : List Word} (ha : a.Sound ws) (hcursor : a.buffer.cursor ≤ 2 ^ 28) :
    ∃ a', a.run (ctx.microkernel t) = .ok a' ∧ a'.buffer.cursor ≤ a.buffer.cursor + 298 ∧
      (a.SlotsWide → a.buffer.cursor + 298 ≤ Jump.reach →
        a'.buffer.remarks = a.buffer.remarks) := by
  have hclosed : (ctx.microkernel t).Closed [] := closed_microkernel
  have hlength := length_microkernel ctx (ht.vectors_le hctx.layout) (ht.nt_le_three hctx.layout)
  obtain ⟨a', hrun, -⟩ := ha.exists_run (by omega) (hclosed.balanced a.scope)
  have hcursor' := Assembler.cursor_run_le hrun
  refine ⟨a', hrun, by omega, fun hwide hreach => ?_⟩
  have hquiet := hclosed.remarks_eq (hctx.assembles_microkernel ht)
  rw [ha.remarks_run hwide (hclosed.isTame fun _ h => absurd h List.not_mem_nil) (by omega)
    hquiet hrun, hclosed.notes, List.append_nil]

/-- Microkernels are correct wherever they are placed: for an accepted request, a plan
    from any part of the pool and a tile within the layout, the code that is emitted
    behind any other runs, in every kernel that goes on from there without a fatal fault
    and on every machine that has what the tile relies on, from its first half-word to
    its last, and does the work of the tile. -/
theorem microkernel_runs {tiling : Tiling} {shape : Shape} (htiling : tiling.error? = .ok none)
    (hshape : shape.error? = none) :
    ∃ layout, (Regime.select shape tiling).layout shape = .ok layout ∧
      ∀ initial : RegSet, (∀ r, initial.contains r = true → (pool layout).contains r = true) →
        ∃ plan ctx, Plan.ofPool shape layout initial = .ok plan ∧
          Context.ofPlan shape plan = .ok ctx ∧
          ∀ t : Tile, 1 ≤ t.mt → t.mt ≤ layout.maxTileM → 1 ≤ t.nt → t.nt ≤ layout.maxTileN →
          ∀ (b : Buffer) (before : Script) (a : Assembler),
            (Assembler.start b.reset).run before = .ok a → a.buffer.cursor ≤ 2 ^ 28 →
          ∃ a', a.run (ctx.microkernel t) = .ok a' ∧
            (a.SlotsWide → a.buffer.cursor + 298 ≤ Jump.reach →
              a'.buffer.remarks = a.buffer.remarks) ∧
            ∀ (after : Script) (final : Assembler), a'.run after = .ok final →
              final.buffer.hasFatalFault = false →
            ∀ (mulAdd : MulAdd) (m : Machine), ctx.Supplied t m →
            ∃ n m', Steps mulAdd (Program.ofCode final.buffer.code) n
                (codeAddress a.buffer.cursor) m (codeAddress a'.buffer.cursor) m' ∧
              ctx.Finishes layout mulAdd t m m' := by
  have hvalid := Shape.valid_of_error? hshape
  obtain ⟨layout, harranges, hlayout⟩ :=
    Regime.exists_layout hvalid (Tiling.valid_of_error? htiling)
  refine ⟨layout, harranges.layout_eq, fun initial hinitial => ?_⟩
  obtain ⟨plan, hplan, hfits⟩ := Plan.exists_ofPool hvalid hlayout initial
  obtain ⟨ctx, hctx, rfl, rfl, hplanned⟩ :=
    Context.exists_ofPlan hvalid hlayout (hfits.mono hinitial)
  refine ⟨_, ctx, hplan, hctx, fun t hmt hmt' hnt hnt' b before a hbefore hcursor => ?_⟩
  have hctx : ctx.Fits layout := hplanned
  have ht : t.Fits ctx.shape layout :=
    ⟨hmt, hnt, hmt', hnt', Nat.le_trans hmt' harranges.maxTileM_le⟩
  obtain ⟨ws, ha, -⟩ := (Assembler.sound_start b).run hbefore
  obtain ⟨a', hrun, hcursor', hquiet⟩ := hctx.exists_run_microkernel ht ha hcursor
  refine ⟨a', hrun, hquiet, fun after final hafter hfatal mulAdd m hm => ?_⟩
  obtain ⟨m', hdoes, hfinishes⟩ := hctx.exists_finishes ht hm mulAdd
  have hlength := length_microkernel ctx (ht.vectors_le hlayout) (ht.nt_le_three hlayout)
  have hplaced := ha.placed_before hdoes.assembles hdoes.isBackward (by omega) hrun hafter hfatal
  obtain ⟨n, hsteps⟩ := hdoes.steps hplaced (by omega)
  exact ⟨n, m', hsteps, hfinishes⟩

/-- A machine between tiles that maps the elements of the operands and nothing between
    them, with the stride of `B` in a register. -/
def scatteredMachine : Machine :=
  let memory : Memory := ⟨columnRegions 0x20000000 7 5 3 false ++
    columnRegions 0x21000000 2000 3 4 false ++ columnRegions 0x22000000 1500 5 4 true⟩
  [(Reg.r0, 0x20000000), (.r1, 0x21000000), (.r2, 0x22000000), (.r11, 8000)].foldl
    (fun m (r, value) => m.setReg r value) { Machine.fresh with memory }

/-- A tile of five rows and three columns behind other code, where one register is left
    for the stride of `B` and none for the columns of `C`. -/
theorem microkernel_runs_scattered :
    ∃ (ctx : Context) (a a' : Assembler) (n : Nat) (m' : Machine),
      ctx.plan.preloads = [(.r11, 8000)] ∧
      ctx.plan.unavailable = ["the C column 1 base", "the C column 2 base"] ∧
      (Assembler.start (Buffer.reset ⟨#[], 1024, 0, [], false⟩)).run
        [.emit (.push (RegSet.ofList [.r4, .lr]))] = .ok a ∧
      a.run (ctx.microkernel ⟨5, 3⟩) = .ok a' ∧ a'.buffer.hasFatalFault = false ∧
      Steps Binary32.mulAdd (Program.ofCode a'.buffer.code) n (codeAddress 1) scatteredMachine
        (codeAddress a'.buffer.cursor) m' ∧
      ctx.Finishes ⟨false, true, 5, 3, 0, 3⟩ Binary32.mulAdd ⟨5, 3⟩ scatteredMachine m' := by
  have hlayout : (Regime.select ⟨5, 3, 4, 7, 2000, 1500⟩ {}).layout ⟨5, 3, 4, 7, 2000, 1500⟩ =
      .ok ⟨false, true, 5, 3, 0, 3⟩ := rfl
  have hplan : Plan.ofPool ⟨5, 3, 4, 7, 2000, 1500⟩ ⟨false, true, 5, 3, 0, 3⟩ (.ofList [.r11]) =
      .ok ⟨.postIndex 28, .register .r11, .scratch 6000, .scratch 12000, .absent, .immediate 3,
        [(.r11, 8000)], ["the C column 1 base", "the C column 2 base"], .empty⟩ := by
    decide +kernel
  obtain ⟨layout, hlayout', hpools⟩ := microkernel_runs (show Tiling.error? {} = .ok none from rfl)
    (show Shape.error? ⟨5, 3, 4, 7, 2000, 1500⟩ = none from rfl)
  obtain rfl := Except.ok.inj (hlayout.symm.trans hlayout')
  obtain ⟨plan, ctx, hplan', hctx, htiles⟩ :=
    hpools (.ofList [.r11]) (by rintro (_ | _) <;> decide)
  obtain rfl := Except.ok.inj (hplan.symm.trans hplan')
  obtain rfl := Except.ok.inj hctx
  obtain ⟨a', hrun, -, hsteps⟩ := htiles ⟨5, 3⟩ (by decide) (by decide) (by decide) (by decide)
    ⟨#[], 1024, 0, [], false⟩ [.emit (.push (RegSet.ofList [.r4, .lr]))] _ rfl (by decide)
  have hmap := congrArg (fun x : Except Trap Assembler =>
    x.toOption.map fun a : Assembler => a.buffer.hasFatalFault) hrun
  have hfatal : a'.buffer.hasFatalFault = false := by
    refine Option.some.inj (hmap.symm.trans ?_)
    decide +kernel
  have hsupplied : Supplied ⟨⟨5, 3, 4, 7, 2000, 1500⟩, ⟨.postIndex 28, .register .r11,
      .scratch 6000, .scratch 12000, .absent, .immediate 3, [(.r11, 8000)],
      ["the C column 1 base", "the C column 2 base"], .empty⟩, 0, 0⟩ ⟨5, 3⟩ scatteredMachine :=
    { plain := ⟨rfl, rfl⟩
      preloaded := fun x hx => by rw [List.mem_singleton.mp hx]; rfl
      a_readable := by decide +kernel
      b_readable := by decide +kernel
      c_writable := by decide +kernel }
  obtain ⟨n, m', hsteps, hfinishes⟩ := hsteps [] a' rfl hfatal Binary32.mulAdd _ hsupplied
  exact ⟨_, _, a', n, m', rfl, rfl, rfl, hrun, hfatal, hsteps, hfinishes⟩

end Context

end HeliumKernels.Gemm
