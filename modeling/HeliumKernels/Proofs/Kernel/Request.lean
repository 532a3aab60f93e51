/-
  HeliumKernels.Proofs.Kernel.Request

  What holds of every request.  A request is refused with a note that says
  why, or its script is tame; either way generating it goes through in any
  buffer.  What is exposed then is all or nothing, and depends on the request
  and the capacity alone: neither the half-words of the buffer nor the
  kernels that were generated there before can be told from it.
-/
import HeliumKernels.Kernel.Request
import HeliumKernels.Proofs.Assembly.Exposure
import HeliumKernels.Proofs.Gemm.WellFormed
import HeliumKernels.Proofs.Kernel.Peak
import HeliumKernels.Proofs.Kernel.Stream
import HeliumKernels.Proofs.Kernel.Triad

namespace HeliumKernels

open Script

/-! ## Scripts of requests -/

/-- A constant and a few instructions that use it. -/
theorem Sequence.tame_loadConstant_append (rd : Reg) (value : UInt32) {s : Script}
    (hs : s.Straight) (hlength : s.length ≤ 2) : Tame (loadConstant rd value ++ s) := by
  have hload := length_loadConstant rd value
  have hreach : Jump.reach = 2045 := rfl
  refine (straight_append.mpr ⟨straight_loadConstant rd value, hs⟩).tame ?_
  rw [List.length_append]
  omega

theorem Constant.tame_script (value : UInt32) : (script value).Tame :=
  Sequence.tame_loadConstant_append .r0 value (by simp) (by decide)

theorem Constant.tame_floatScript (bits : UInt32) : (floatScript bits).Tame :=
  Sequence.tame_loadConstant_append .r0 bits (by simp) (by decide)

theorem Triad.tame_script (bits : UInt32) : (script bits).Tame := by
  have hprologue := length_prologue bits
  have hround : round.length = 4 := rfl
  have hepilogue : epilogue.length = 1 := rfl
  have hreach : Jump.reach = 2045 := rfl
  rw [script_eq]
  exact tame_guardedLoop entry body (straight_prologue bits) straight_round straight_epilogue
    (by decide) (by omega)

namespace Gemm

theorem exists_refusal? (tiling : Tiling) (shape : Shape) :
    ∃ reason?, refusal? tiling shape = .ok reason? ∧
      (reason? = none ↔ tiling.error? = .ok none ∧ shape.error? = none) := by
  obtain ⟨error, herror⟩ := tiling.exists_error?
  rw [refusal?, herror]
  cases error with
  | some e => exact ⟨_, rfl, by simp⟩
  | none => exact ⟨_, rfl, by simp⟩

theorem script_of_refusal? {tiling : Tiling} {shape : Shape} {reason : String}
    (h : refusal? tiling shape = .ok (some reason)) (pool? : Option RegSet) :
    script tiling pool? shape = .ok [.note (.invalidShape reason)] := by
  rw [script, h]
  rfl

theorem tame_or_refused (tiling : Tiling) (pool? : Option RegSet) (shape : Shape) :
    ∃ s, script tiling pool? shape = .ok s ∧ (s.Tame ∨ s.Refused) := by
  obtain ⟨reason?, hrefusal, haccepted⟩ := exists_refusal? tiling shape
  cases reason? with
  | some reason => exact ⟨_, script_of_refusal? hrefusal pool?, .inr ⟨reason, rfl⟩⟩
  | none =>
    obtain ⟨htiling, hshape⟩ := haccepted.mp rfl
    obtain ⟨layout, ctx, harranges, rfl, hplanned, -, hscript⟩ :=
      exists_planned htiling hshape pool?
    exact ⟨_, hscript, .inl (hplanned.tame_script harranges)⟩

end Gemm

/-- Every request has a script, which is tame or says why it is refused. -/
theorem Request.tame_or_refused (request : Request) :
    ∃ s, request.script = .ok s ∧ (s.Tame ∨ s.Refused) := by
  cases request with
  | constant value => exact ⟨_, rfl, .inl (Constant.tame_script value)⟩
  | constantFloat bits => exact ⟨_, rfl, .inl (Constant.tame_floatScript bits)⟩
  | triad bits => exact ⟨_, rfl, .inl (Triad.tame_script bits)⟩
  | stream unroll => exact ⟨_, rfl, Stream.unrolled.tame_or_refused unroll⟩
  | peak count => exact ⟨_, rfl, Peak.unrolled.tame_or_refused count⟩
  | gemm tiling pool? shape => exact Gemm.tame_or_refused tiling pool? shape

/-! ## All or nothing -/

/-- The script of a request exposes one kernel or nothing. -/
theorem Request.exists_exposes (request : Request) :
    ∃ s kernel, request.script = .ok s ∧ s.Exposes kernel ∧
      ∀ fault ∈ kernel.faults, fault.isCapacityExceeded = false := by
  obtain ⟨s, hscript, htame | ⟨reason, rfl⟩⟩ := request.tame_or_refused
  · -- a full buffer is a fatal fault, and the kernel of a tame script has none
    obtain ⟨kernel, hexposes, hfatal⟩ := htame.exists_exposes
    refine ⟨s, kernel, hscript, hexposes, fun fault hfault => ?_⟩
    have hsoft : fault.isFatal = false := by
      simpa using List.any_eq_false.mp hfatal fault hfault
    cases fault with
    | capacityExceeded capacity => cases hsoft
    | _ => rfl
  · refine ⟨_, _, hscript, exposes_note rfl, fun fault hfault => ?_⟩
    rw [List.mem_singleton.mp hfault]
    rfl

/-- For every request there is one kernel: it is exposed, with its faults, by every
    buffer that it fits, and a buffer that it does not fit exposes a bare return and
    records once that it is full. -/
theorem Request.fulfil_all_or_nothing (request : Request) :
    ∃ kernel : Kernel, (∀ fault ∈ kernel.faults, fault.isCapacityExceeded = false) ∧
      ∀ b : Buffer, Buffer.minCapacity ≤ b.capacity → ∃ b', b.fulfil request = .ok b' ∧
        (kernel.code.size ≤ b.capacity → b'.code = kernel.code ∧ b'.faults = kernel.faults) ∧
        (b.capacity < kernel.code.size → b'.code = #[0x4770] ∧
          b'.faults.countP Fault.isCapacityExceeded = 1) := by
  obtain ⟨s, kernel, hscript, hexposes, hfaults⟩ := request.exists_exposes
  refine ⟨kernel, hfaults, fun b hb => ?_⟩
  obtain ⟨b', hgenerate, hfits, hoverfull⟩ := hexposes b hb
  refine ⟨b', ?_, fun hle => ?_, hoverfull⟩
  · rw [Buffer.fulfil, hscript]
    exact hgenerate
  · rw [← hfits hle]
    exact ⟨rfl, rfl⟩

/-- A triad takes eighteen half-words; in seventeen its loop start is still filled in,
    but nothing of it is exposed. -/
theorem Request.fulfil_all_or_nothing_triad :
    ∃ kernel : Kernel, kernel.code.size = 18 ∧
      (∃ b', Buffer.fulfil ⟨#[], 18, 0, [], false⟩ (.triad 0x40490FDB) = .ok b' ∧
        b'.code = kernel.code) ∧
      ∃ b', Buffer.fulfil ⟨#[], 17, 0, [], false⟩ (.triad 0x40490FDB) = .ok b' ∧
        b'.code = #[0x4770] := by
  have hlarge : ∃ b', Buffer.fulfil ⟨#[], 64, 0, [], false⟩ (.triad 0x40490FDB) = .ok b' ∧
      b'.code.size = 18 := ⟨_, by cbv, by cbv⟩
  obtain ⟨kernel, -, hkernel⟩ := fulfil_all_or_nothing (.triad 0x40490FDB)
  have hsize : kernel.code.size = 18 := by
    obtain ⟨b₁, hb₁, hcode⟩ := hlarge
    obtain ⟨b₂, hb₂, hfits, hoverfull⟩ := hkernel ⟨#[], 64, 0, [], false⟩ (by decide)
    obtain rfl := Except.ok.inj (hb₁.symm.trans hb₂)
    by_cases hle : kernel.code.size ≤ 64
    · rw [← (hfits hle).1, hcode]
    · rw [(hoverfull (Nat.not_le.mp hle)).1] at hcode
      cases hcode
  obtain ⟨b₁, hb₁, hfits, -⟩ := hkernel ⟨#[], 18, 0, [], false⟩ (by decide)
  obtain ⟨b₂, hb₂, -, hoverfull⟩ := hkernel ⟨#[], 17, 0, [], false⟩ (by decide)
  exact ⟨kernel, hsize, ⟨b₁, hb₁, (hfits (Nat.le_of_eq hsize)).1⟩,
    ⟨b₂, hb₂, (hoverfull (Nat.lt_of_lt_of_eq (by decide) hsize.symm)).1⟩⟩

/-! ## History -/

theorem Request.exists_fulfil (request : Request) (b : Buffer) :
    ∃ b', b.fulfil request = .ok b' ∧ b'.capacity = b.capacity := by
  obtain ⟨s, hscript, hs⟩ := request.tame_or_refused
  obtain ⟨b', hgenerate⟩ : ∃ b', b.generate s = .ok b' := by
    rcases hs with htame | ⟨reason, rfl⟩
    · obtain ⟨a, -, hrun, -⟩ := htame.exists_run b
      exact ⟨_, Buffer.generate_eq hrun⟩
    · exact ⟨_, rfl⟩
  refine ⟨b', ?_, Buffer.capacity_generate hgenerate⟩
  rw [Buffer.fulfil, hscript]
  exact hgenerate

namespace Buffer

/-- Any number of requests in a row go through. -/
theorem exists_foldlM_fulfil (history : List Request) (b : Buffer) :
    ∃ used, history.foldlM fulfil b = .ok used ∧ used.capacity = b.capacity := by
  -- the capacity is all that one request leaves to the next
  induction history generalizing b with
  | nil => exact ⟨b, rfl, rfl⟩
  | cons request history ih =>
    obtain ⟨b₁, hfulfil, hcapacity₁⟩ := request.exists_fulfil b
    obtain ⟨used, hused, hcapacity⟩ := ih b₁
    refine ⟨used, ?_, hcapacity.trans hcapacity₁⟩
    rw [List.foldlM_cons, hfulfil]
    exact hused

theorem kernel_fulfil_eq {b c b' : Buffer} {request : Request} (hcapacity : b.capacity = c.capacity)
    (h : b.fulfil request = .ok b') : ∃ c', c.fulfil request = .ok c' ∧ b'.kernel = c'.kernel := by
  obtain ⟨s, hscript, hgenerate⟩ := bind_eq_ok.mp h
  obtain ⟨c', hc', hkernel⟩ := kernel_generate_eq hcapacity hgenerate
  exact ⟨c', bind_eq_ok.mpr ⟨s, hscript, hc'⟩, hkernel⟩

/-- Whatever a buffer held at first and whatever was generated in it before, a request
    exposes the code and the faults that it exposes in a fresh buffer of zeros. -/
theorem fulfil_forgets_history (words : Array UInt16) {b : Buffer} (hb : ofWords words = .ok b)
    (history : List Request) (request : Request) :
    ∃ used fresh b' c', history.foldlM fulfil b = .ok used ∧
      ofWords (Array.replicate words.size 0) = .ok fresh ∧
      used.fulfil request = .ok b' ∧ fresh.fulfil request = .ok c' ∧
      b'.code = c'.code ∧ b'.faults = c'.faults := by
  have hsize : ¬words.size < minCapacity := by
    intro hsmall
    rw [ofWords, if_pos hsmall] at hb
    cases hb
  obtain rfl := Except.ok.inj (hb.symm.trans (if_neg hsize))
  obtain ⟨used, hused, hcapacity⟩ := exists_foldlM_fulfil history ⟨words, words.size, 0, [], false⟩
  obtain ⟨b', hb', -⟩ := request.exists_fulfil used
  obtain ⟨c', hc', hkernel⟩ := kernel_fulfil_eq
    (c := ⟨Array.replicate words.size 0, words.size, 0, [], false⟩) hcapacity hb'
  refine ⟨used, _, b', c', hused, ?_, hb', hc', congrArg Kernel.code hkernel,
    congrArg Kernel.faults hkernel⟩
  rw [ofWords, if_neg (by simpa using hsize), Array.size_replicate]

/-- After a refused request and one that does not fit, over half-words that are not zero. -/
theorem fulfil_forgets_history_overfull :
    ∃ used fresh b' c', [Request.stream 0, .peak 9].foldlM fulfil
        ⟨#[0xDEAD, 0xBEEF, 0x1234, 0x5678, 0x9ABC], 5, 0, [], false⟩ = .ok used ∧
      ofWords #[0, 0, 0, 0, 0] = .ok fresh ∧
      used.fulfil (.constant 0x12345678) = .ok b' ∧ fresh.fulfil (.constant 0x12345678) = .ok c' ∧
      b'.code = c'.code ∧ b'.faults = c'.faults :=
  fulfil_forgets_history #[0xDEAD, 0xBEEF, 0x1234, 0x5678, 0x9ABC] rfl [.stream 0, .peak 9]
    (.constant 0x12345678)

end Buffer

end HeliumKernels
