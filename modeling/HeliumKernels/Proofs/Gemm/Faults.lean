/-
  HeliumKernels.Proofs.Gemm.Faults

  What generating a matrix kernel can record.  Every request goes through,
  for any shape, tiling and buffer.  A refused one records why and exposes a
  bare return.  An accepted one records the values that got no register and
  at most once that the buffer is full; a buffer of the default capacity is
  never full, and then the code is that of the whole script.
-/
import HeliumKernels.CommandLine.Command
import HeliumKernels.Proofs.Kernel.Request

namespace HeliumKernels.Gemm

open CommandLine

theorem fulfil_of_refusal? {tiling : Tiling} {shape : Shape} {reason : String}
    (h : refusal? tiling shape = .ok (some reason)) (pool? : Option RegSet) (b : Buffer) :
    ∃ b', b.fulfil (.gemm tiling pool? shape) = .ok b' ∧ b'.faults = [.invalidShape reason] ∧
      b'.code = #[0x4770] := by
  have hfatal : (b.reset.record (.invalidShape reason)).hasFatalFault = true :=
    Buffer.hasFatalFault_record rfl
  refine ⟨(b.reset.record (.invalidShape reason)).finish, ?_, ?_, ?_⟩
  · rw [Buffer.fulfil, Request.script, script_of_refusal? h]
    rfl
  · rw [Buffer.faults_finish]
    rfl
  · exact Buffer.code_finish_of_fatal hfatal

/-- The script of an accepted request fits the default capacity. -/
theorem Context.Fits.length_script_le {ctx : Context} {layout : Layout} {regime : Regime}
    (hctx : ctx.Fits layout) (harranges : regime.Arranges ctx.shape layout) :
    2 * (ctx.script regime).length ≤ Jump.reach ∧
      2 * (ctx.script regime).length ≤ Command.defaultCapacity := by
  have hlength := hctx.length_body harranges
  have hreach : Jump.reach = 2045 := rfl
  have hdefault : Command.defaultCapacity = 4096 := rfl
  rw [script_eq, List.length_append, List.length_singleton]
  omega

theorem fulfil_of_accepted {tiling : Tiling} {shape : Shape} (htiling : tiling.error? = .ok none)
    (hshape : shape.error? = none) (b : Buffer) :
    ∃ b' layout plan s, b.fulfil (.gemm tiling none shape) = .ok b' ∧
      (Regime.select shape tiling).layout shape = .ok layout ∧
      Plan.ofLayout shape layout = .ok plan ∧ script tiling none shape = .ok s ∧
      b'.remarks = plan.unavailable.map .registerUnavailable ∧
      b'.faults.countP Fault.isCapacityExceeded ≤ 1 ∧
      (Command.defaultCapacity ≤ b.capacity →
        b'.faults = plan.unavailable.map .registerUnavailable ∧
        ∃ env, Placed b'.code [] 0 s env b'.code.size) := by
  obtain ⟨layout, ctx, harranges, rfl, hctx, hplan, hscript⟩ := exists_planned htiling hshape none
  have hfits : ctx.Fits layout := hctx
  obtain ⟨hreach, hdefault⟩ := hfits.length_script_le harranges
  obtain ⟨b', hgenerate, hremarks, hcount, hroom⟩ :=
    (Context.closed_script (Regime.select ctx.shape tiling)).exists_generate
      (hfits.assembles_script harranges) (fun fault => Context.isFatal_of_mem_notes) hreach b
  refine ⟨b', layout, ctx.plan, _, ?_, harranges.layout_eq, hplan, hscript, hremarks, hcount,
    fun hcapacity => hroom (Nat.le_trans hdefault hcapacity)⟩
  rw [Buffer.fulfil, Request.script, hscript]
  exact hgenerate

/-- Every request for a matrix kernel goes through.  If the tiling is refused, or else
    the shape, that is the one fault, and the code is a bare return.  Otherwise the
    faults are the values that the plan found no register for, in its order, and at most
    once a full buffer, which a buffer of the default capacity never is: its code then
    holds the whole script. -/
theorem fulfil_faults (tiling : Tiling) (shape : Shape) (b : Buffer) :
    ∃ error? b', tiling.error? = .ok error? ∧ b.fulfil (.gemm tiling none shape) = .ok b' ∧
      (∀ e, error? = some e →
        b'.faults = [.invalidShape s!"tiling: {e.message}"] ∧ b'.code = #[0x4770]) ∧
      (∀ e, error? = none → shape.error? = some e →
        b'.faults = [.invalidShape e.message] ∧ b'.code = #[0x4770]) ∧
      (error? = none → shape.error? = none → ∃ layout plan s,
        (Regime.select shape tiling).layout shape = .ok layout ∧
        Plan.ofLayout shape layout = .ok plan ∧ script tiling none shape = .ok s ∧
        b'.faults.filter (!·.isCapacityExceeded) = plan.unavailable.map .registerUnavailable ∧
        b'.faults.countP Fault.isCapacityExceeded ≤ 1 ∧
        (Command.defaultCapacity ≤ b.capacity →
          b'.faults = plan.unavailable.map .registerUnavailable ∧
          ∃ env, Placed b'.code [] 0 s env b'.code.size)) := by
  obtain ⟨error?, herror⟩ := tiling.exists_error?
  cases error? with
  | some e =>
    have hrefusal : refusal? tiling shape = .ok (some s!"tiling: {e.message}") := by
      rw [refusal?, herror]
      rfl
    obtain ⟨b', hfulfil, hrefused⟩ := fulfil_of_refusal? hrefusal none b
    refine ⟨some e, b', herror, hfulfil, fun e' he => ?_, fun _ he => ?_, fun he => ?_⟩
    · rw [← Option.some.inj he]
      exact hrefused
    · cases he
    · cases he
  | none =>
    cases hshape : shape.error? with
    | some e =>
      have hrefusal : refusal? tiling shape = .ok (some e.message) := by
        rw [refusal?, herror]
        simp only [bind, Except.bind, hshape]
        rfl
      obtain ⟨b', hfulfil, hrefused⟩ := fulfil_of_refusal? hrefusal none b
      refine ⟨none, b', herror, hfulfil, fun _ he => ?_, fun e' _ he => ?_, fun _ he => ?_⟩
      · cases he
      · rw [← Option.some.inj he]
        exact hrefused
      · cases he
    | none =>
      obtain ⟨b', layout, plan, s, hfulfil, haccepted⟩ := fulfil_of_accepted herror hshape b
      refine ⟨none, b', herror, hfulfil, fun _ he => ?_, fun _ _ he => ?_, fun _ _ => ?_⟩
      · cases he
      · cases he
      · exact ⟨layout, plan, s, haccepted⟩

/-- A large product that takes both loops and finds no register for three values: the
    faults name them and the kernel is there; one row too many in the tile and the same
    request is refused. -/
theorem fulfil_faults_large :
    (∃ b', Buffer.fulfil ⟨#[], 4096, 0, [], false⟩
        (.gemm {} none ⟨2060, 1200, 1000, 2060, 1200, 2060⟩) = .ok b' ∧
      b'.faults = [.registerUnavailable "the C column 2 base",
        .registerUnavailable "the m loop bound", .registerUnavailable "the n loop bound"] ∧
      ∃ s env, script {} none ⟨2060, 1200, 1000, 2060, 1200, 2060⟩ = .ok s ∧
        Placed b'.code [] 0 s env b'.code.size) ∧
    ∃ b', Buffer.fulfil ⟨#[], 4096, 0, [], false⟩
        (.gemm { tileM := 9 } none ⟨2060, 1200, 1000, 2060, 1200, 2060⟩) = .ok b' ∧
      b'.faults = [.invalidShape "tiling: tile height 9 must be a multiple of 4 in 4..=16"] ∧
      b'.code = #[0x4770] := by
  constructor
  · obtain ⟨error?, b', herror, hfulfil, -, -, haccepted⟩ :=
      fulfil_faults {} ⟨2060, 1200, 1000, 2060, 1200, 2060⟩ ⟨#[], 4096, 0, [], false⟩
    obtain rfl : none = error? := Except.ok.inj herror
    obtain ⟨layout, plan, s, hlayout, hplan, hscript, -, -, hroom⟩ := haccepted rfl rfl
    obtain rfl := Except.ok.inj hlayout
    obtain rfl := Except.ok.inj hplan
    obtain ⟨hfaults, env, hplaced⟩ := hroom (Nat.le_refl _)
    exact ⟨b', hfulfil, hfaults, s, env, hscript, hplaced⟩
  · obtain ⟨error?, b', herror, hfulfil, hrefused, -⟩ :=
      fulfil_faults { tileM := 9 } ⟨2060, 1200, 1000, 2060, 1200, 2060⟩ ⟨#[], 4096, 0, [], false⟩
    obtain rfl : some (.tileHeight 9 16) = error? := Except.ok.inj herror
    obtain ⟨hfaults, hcode⟩ := hrefused _ rfl
    exact ⟨b', hfulfil, hfaults.trans (by decide), hcode⟩

end HeliumKernels.Gemm
