/-
  HeliumKernels.Proofs.Assembly.Span

  How much code instructions in a row take.  Where a straight script is laid
  out, its end lies as many half-words behind its beginning as its
  instructions are long; a buffer with that much room left takes all of it
  and records nothing.  A kernel that is asked for by the length of its loop
  body fits a buffer if that length and what stands around the body do.
-/
import HeliumKernels.Proofs.Assembly.Guarded

namespace HeliumKernels

/-- Half-words of the instruction that a directive appends. -/
def Directive.span : Directive → Nat
  | emit i => i.width.halfWords
  | _ => 0

namespace Script

variable {s t : Script}

/-- Half-words of instructions in a row. -/
def span (s : Script) : Nat :=
  (s.map Directive.span).sum

@[simp] theorem span_nil : span [] = 0 := rfl

@[simp] theorem span_cons (d : Directive) (s : Script) : span (d :: s) = d.span + span s := rfl

/-- A row of instructions of one width. -/
theorem span_map {α : Type} {xs : List α} {f : α → Directive} {width : Nat}
    (h : ∀ x ∈ xs, (f x).span = width) : span (xs.map f) = xs.length * width := by
  induction xs with
  | nil => simp
  | cons x xs ih =>
    rw [List.map_cons, span_cons, h x List.mem_cons_self,
      ih fun x hx => h x (List.mem_cons_of_mem _ hx), List.length_cons, Nat.succ_mul, Nat.add_comm]

end Script

/-! ## Code that holds instructions in a row -/

section Code

variable {code : Array UInt16} {env env' : List (Label × Nat)} {p q p' : Nat} {s : Script}

/-- Instructions in a row end where their lengths add up to. -/
theorem Placed.eq_add_span (h : Placed code env p s env' p') (hs : s.Straight) :
    p' = p + s.span := by
  induction h with
  | nil => rfl
  | emit _ _ ih =>
    rw [Script.span_cons, ih (Script.straight_emit.mp hs), Nat.add_assoc]
    rfl
  | mark | note => exact absurd (hs _ List.mem_cons_self) (by simp [Directive.isEmit])
  | @back _ _ _ _ _ _ d _ _ hd =>
    cases d with
    | emit i => cases hd
    | _ => exact absurd (hs _ List.mem_cons_self) (by simp [Directive.isEmit])

/-- The pieces of a guarded loop follow each other with a wide instruction on either side
    of the body. -/
theorem Script.GuardedAt.positions {rn : Reg} {tail : Bool} {before round after : Script}
    (h : GuardedAt code rn tail before round after p q p') (hbefore : before.Straight)
    (hround : round.Straight) (hafter : after.Straight) :
    p = before.span ∧ q = before.span + 2 + round.span ∧
      p' = before.span + round.span + after.span + 4 := by
  obtain ⟨_, hp⟩ := h.before
  obtain ⟨_, _, hq⟩ := h.round
  obtain ⟨_, _, hp'⟩ := h.after
  have := hp.eq_add_span hbefore
  have := hq.eq_add_span hround
  have := hp'.eq_add_span hafter
  omega

/-- A short guarded loop is generated without a fault in every buffer that holds it: its
    instructions, and one wide instruction on either side of the body. -/
theorem Script.exists_generate_of_span (entry body : Label) {rn : Reg} (tail : Bool)
    {before round after : Script} (hrn : rn ≠ .sp ∧ rn ≠ .pc) (hbefore : before.Straight)
    (hround : round.Straight) (hafter : after.Straight)
    (hassembles : (before ++ (round ++ after)).Assembles)
    (hlength : 2 * (before.length + round.length + after.length + 4) ≤ Jump.reach) {b : Buffer}
    (hcapacity : before.span + round.span + after.span + 4 ≤ b.capacity) :
    ∃ b', b.generate (guarded entry body rn tail before round after) = .ok b' ∧ b'.faults = [] ∧
      b'.code.size = before.span + round.span + after.span + 4 ∧
      ∃ p q, GuardedAt b'.code rn tail before round after p q b'.code.size := by
  -- the kernel and its size do not depend on the buffer, so the size tells whether it fits
  obtain ⟨kernel, hexposes, hfaults, p, q, hcode⟩ :=
    exists_exposes_guarded entry body tail hrn hbefore hround hafter hassembles hlength
  have hsize := (hcode.positions hbefore hround hafter).2.2
  obtain ⟨b', hgenerate, hwhole, -⟩ :=
    hexposes b (show 2 ≤ b.capacity by omega)
  obtain rfl : b'.kernel = kernel := hwhole (by omega)
  exact ⟨b', hgenerate, hfaults, hsize, p, q, hcode⟩

end Code

/-! ## Loops asked for by length -/

namespace Script

/-- A script that only says why a request is refused. -/
def Refused (s : Script) : Prop :=
  ∃ reason, s = [.note (.invalidShape reason)]

/-- Scripts that are asked for by the number of instructions in an iteration.  Up to a limit
    each is a loop over so many wide instructions, with `rest` half-words around them. -/
structure Unrolled (script : Nat → Script) (rn : Reg) (before : Script) (item : Nat → Directive)
    (after : Script) (most rest : Nat) : Prop where
  accepted : ∀ n, 1 ≤ n ∧ n ≤ most → ∃ entry body,
    script n = guarded entry body rn false before ((List.range n).map item) after
  refused : ∀ n, ¬(1 ≤ n ∧ n ≤ most) → (script n).Refused
  counter : rn ≠ .sp ∧ rn ≠ .pc
  straight_before : before.Straight
  straight_after : after.Straight
  isEmit_item : ∀ i, (item i).isEmit
  span_item : ∀ i, (item i).span = 2
  assembles : ∀ n, (before ++ ((List.range n).map item ++ after)).Assembles
  span_around : before.span + after.span + 4 = rest
  length_around : 2 * (before.length + most + after.length + 4) ≤ Jump.reach

namespace Unrolled

variable {script : Nat → Script} {rn : Reg} {before after : Script} {item : Nat → Directive}
  {most rest n : Nat} (h : Unrolled script rn before item after most rest)

include h

theorem straight_round (n : Nat) : Straight ((List.range n).map item) :=
  straight_map fun i _ => h.isEmit_item i

/-- The jumps of the longest loop are in reach, and so are those of the others. -/
theorem length_le (hn : n ≤ most) :
    2 * (before.length + ((List.range n).map item).length + after.length + 4) ≤ Jump.reach := by
  have hlength := h.length_around
  rw [List.length_map, List.length_range]
  omega

theorem tame_or_refused (n : Nat) : (script n).Tame ∨ (script n).Refused := by
  by_cases hn : 1 ≤ n ∧ n ≤ most
  · obtain ⟨entry, body, hscript⟩ := h.accepted n hn
    rw [hscript]
    exact .inl (tame_guardedLoop entry body h.straight_before (h.straight_round n)
      h.straight_after h.counter (h.length_le hn.2))
  · exact .inr (h.refused n hn)

/-- The kernel is laid out in every buffer that holds it. -/
theorem exists_generate (hlow : 1 ≤ n) (hhigh : n ≤ most) {b : Buffer}
    (hcapacity : 2 * n + rest ≤ b.capacity) :
    ∃ b', b.generate (script n) = .ok b' ∧ b'.faults = [] ∧ b'.code.size = 2 * n + rest ∧
      ∃ p q, GuardedAt b'.code rn false before ((List.range n).map item) after p q
        b'.code.size := by
  obtain ⟨entry, body, hscript⟩ := h.accepted n ⟨hlow, hhigh⟩
  have hspan : before.span + span ((List.range n).map item) + after.span + 4 = 2 * n + rest := by
    have hrest := h.span_around
    rw [span_map fun i _ => h.span_item i, List.length_range]
    omega
  rw [hscript, ← hspan]
  exact exists_generate_of_span entry body false h.counter h.straight_before (h.straight_round n)
    h.straight_after (h.assembles n) (h.length_le hhigh) (hspan.trans_le hcapacity)

end Unrolled

end Script

/-! ## Buffers with room for instructions in a row -/

namespace Assembler

variable {a a' final : Assembler} {ws : List Word} {s : Script}

/-- Emitting an instruction where there is room for it. -/
theorem emit_of_room {b : Buffer} {i : Instruction} (hword : ∃ word, i.assemble = .ok word)
    (hroom : b.exhausted = false) (hfits : b.cursor + i.width.halfWords ≤ b.capacity) :
    (b.emit i).exhausted = false ∧ (b.emit i).faults = b.faults ∧
      (b.emit i).capacity = b.capacity ∧ (b.emit i).cursor = b.cursor + i.width.halfWords := by
  obtain ⟨word, hword⟩ := hword
  have hwidth : word.width = i.width := (Instruction.roundTrips_of_assemble hword).width_eq
  have hemit : b.emit i = b.append word := by simp only [Buffer.emit, hword]
  rw [← hwidth] at hfits ⊢
  rw [hemit, Buffer.append_of_room hroom hfits]
  exact ⟨hroom, rfl, rfl, rfl⟩

/-- Instructions in a row are appended in full wherever there is room for them. -/
theorem run_straight (hs : s.Straight) (hassembles : s.Assembles)
    (hroom : a.buffer.exhausted = false)
    (hfits : a.buffer.cursor + s.span ≤ a.buffer.capacity) :
    ∃ a', a.run s = .ok a' ∧ a'.buffer.exhausted = false ∧ a'.buffer.faults = a.buffer.faults ∧
      a'.buffer.cursor = a.buffer.cursor + s.span := by
  induction s generalizing a with
  | nil => exact ⟨a, rfl, hroom, rfl, rfl⟩
  | cons d s ih =>
    cases d with
    | emit i =>
      obtain ⟨hword, hassembles⟩ := Script.assembles_emit.mp hassembles
      rw [Script.span_cons, Directive.span] at hfits
      -- the span of the rest is what remains of the room
      obtain ⟨hroom₁, hfaults₁, hcapacity₁, hcursor₁⟩ := emit_of_room hword hroom (by omega)
      obtain ⟨a', hrun, hroom', hfaults', hcursor'⟩ :=
        ih (a := { a with buffer := a.buffer.emit i }) (Script.straight_emit.mp hs) hassembles
          hroom₁ (by rw [hcapacity₁, hcursor₁]; omega)
      refine ⟨a', run_cons.mpr ⟨_, rfl, hrun⟩, hroom', hfaults'.trans hfaults₁, ?_⟩
      rw [hcursor', hcursor₁, Script.span_cons, Nat.add_assoc, Directive.span]
    | _ => exact absurd (hs _ List.mem_cons_self) (by simp [Directive.isEmit])

/-- Instructions in a row that were all appended are placed in the code of every run that
    goes on behind them. -/
theorem Sound.placed_straight (h : a.Sound ws) (hs : s.Straight) (hassembles : s.Assembles)
    (hrun : a.run s = .ok a') (hroom : a'.buffer.exhausted = false) {after : Script}
    (hafter : a'.run after = .ok final) :
    Placed final.buffer.code a.targets a.buffer.cursor s a'.targets a'.buffer.cursor := by
  induction s generalizing a ws with
  | nil =>
    obtain rfl := pure_eq_ok.mp hrun
    exact .nil
  | cons d s ih =>
    cases d with
    | emit i =>
      obtain ⟨a₁, hstep, hrun⟩ := run_cons.mp hrun
      obtain ⟨ws₁, h₁, -⟩ := h.step hstep
      obtain ⟨_, -, hadv⟩ := h₁.run hrun
      obtain ⟨hword, hassembles⟩ := Script.assembles_emit.mp hassembles
      have hplaced := ih h₁ (Script.straight_emit.mp hs) hassembles hrun
      obtain rfl := Except.ok.inj hstep
      obtain ⟨hdecode, hmoved, -⟩ :=
        h.decodeAt_emit hword (hadv.room hroom) (run_append.mpr ⟨a', hrun, hafter⟩)
      refine .emit hdecode ?_
      rw [← hmoved]
      exact hplaced
    | _ => exact absurd (hs _ List.mem_cons_self) (by simp [Directive.isEmit])

end Assembler

end HeliumKernels
