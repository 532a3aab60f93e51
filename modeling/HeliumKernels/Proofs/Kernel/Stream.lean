/-
  HeliumKernels.Proofs.Kernel.Stream

  The stream kernel reads what it is asked to and nothing else.  Its loads
  walk through consecutive words, so a call returns the address behind them
  if all can be read, and otherwise stops at the first that cannot.
-/
import HeliumKernels.Binary32.Fused
import HeliumKernels.Kernel.Request
import HeliumKernels.Proofs.Kernel.Looped

namespace HeliumKernels

namespace Stream

open Machine

/-! ## The pieces of the script -/

/-- Save the frame. -/
def prologue : Script :=
  [.emit (.push (RegSet.ofList [.r7, .lr]))]

/-- One iteration. -/
def round (unroll : Nat) : Script :=
  (List.range unroll).map load

/-- Restore the frame and return. -/
def epilogue : Script :=
  [.emit (.pop (RegSet.ofList [.r7, .pc]))]

variable {unroll : Nat}

theorem length_round (unroll : Nat) : (round unroll).length = unroll := by
  simp [round]

theorem straight_prologue : prologue.Straight := by
  simp [prologue]

theorem assembles_load (i : Nat) :
    ∃ word, (Instruction.vecMem .load (QReg.ofField (i % 4)) source 16 .postIndex).assemble =
      .ok word :=
  Instruction.assembles_vecMem (by decide) (by decide) (by decide)

theorem assembles_pieces (unroll : Nat) :
    (prologue ++ (round unroll ++ epilogue)).Assembles := by
  simp only [prologue, epilogue, Script.assembles_append, Script.assembles_emit,
    Script.assembles_nil, and_true]
  refine ⟨⟨_, rfl⟩, Script.assembles_map fun i _ => ?_, ⟨_, rfl⟩⟩
  simp [load, assembles_load i]

/-- An iteration is as many loads as are asked for. -/
theorem unrolled : Script.Unrolled script iterations prologue load epilogue maxUnroll 6 := by
  constructor
  case accepted =>
    intro unroll h
    refine ⟨entry, body, ?_⟩
    simp [script, h, Script.guarded, prologue, epilogue, loopLanes]
  case refused => exact fun unroll h => ⟨_, if_neg h⟩
  case counter => decide
  case straight_before => exact straight_prologue
  case straight_after => simp [epilogue]
  case isEmit_item => exact fun _ => rfl
  case span_item => exact fun _ => rfl
  case assembles => exact assembles_pieces
  case span_around => rfl
  case length_around => decide

/-- An iteration up to one of its loads. -/
theorem round_split {i : Nat} (hi : i < unroll) :
    ∃ rest, round unroll = round i ++ load i :: rest := by
  obtain ⟨k, rfl⟩ : ∃ k, unroll = i + (k + 1) := ⟨unroll - i - 1, by omega⟩
  refine ⟨((List.range k).map Nat.succ).map fun j => load (i + j), ?_⟩
  simp [round, List.range_add, List.range_succ_eq_map]

/-- Each word of the input is one lane of one load in one iteration. -/
theorem exists_load_of_word {t n : Nat} (ht : t < 4 * (unroll * n)) :
    ∃ c i, ∃ k : Lane, c < n ∧ i < unroll ∧ t = 4 * (unroll * c + i) + k.val := by
  have hunroll : 0 < unroll := by
    apply Nat.pos_of_ne_zero
    rintro rfl
    omega
  -- four words to a load, and `unroll` loads to an iteration
  refine ⟨t / 4 / unroll, t / 4 % unroll, ⟨t % 4, Nat.mod_lt t (by decide)⟩, ?_,
    Nat.mod_lt _ hunroll, ?_⟩
  · rw [Nat.div_lt_iff_lt_mul hunroll, Nat.mul_comm]
    omega
  · rw [Nat.div_add_mod]
    exact (Nat.div_add_mod t 4).symm

/-! ## Loads -/

variable {mulAdd : MulAdd} {m m₀ m₁ : Machine} {j n c : Nat}

/-- After `j` loads: the source has moved on by as many vectors, and only the vector registers
    that may be spoiled are different besides. -/
structure Progress (m₀ : Machine) (j : Nat) (m : Machine) : Prop where
  source : m.reg source = wordAddress (m₀.reg Stream.source) (4 * j)
  reg : ∀ r, r ≠ Stream.source → r ≠ .lr → m.reg r = m₀.reg r
  lane : ∀ (q : QReg) l, 4 ≤ q.val → m.lane q l = m₀.lane q l
  memory : m.memory = m₀.memory

theorem Progress.refl (m : Machine) : Progress m 0 m :=
  ⟨(wordAddress_zero _).symm, fun _ _ _ => rfl, fun _ _ _ => rfl, rfl⟩

theorem Progress.counted (h : Progress m₀ j m) (count : UInt32) (tail : Bool) :
    Progress m₀ j (m.counted count tail) :=
  ⟨(reg_counted (by decide)).trans h.source,
    fun r hr hlr => (reg_counted hlr).trans (h.reg r hr hlr), h.lane, h.memory⟩

theorem Progress.laneAddress_eq (h : Progress m₀ j m) (l : Lane) :
    laneAddress (m.reg Stream.source) l = wordAddress (m₀.reg Stream.source) (4 * j + l.val) := by
  rw [h.source]
  exact wordAddress_wordAddress _ _ _

/-- One load goes through if its four words can be read. -/
theorem Progress.exists_load (h : Progress m₀ j m) (hlooping : Looping false n c m)
    (mulAdd : MulAdd) (i : Nat)
    (hread : ∀ l : Lane, m₀.memory.Readable (wordAddress (m₀.reg Stream.source) (4 * j + l.val))) :
    ∃ m', Does mulAdd [load i] m m' ∧ Looping false n c m' ∧ Progress m₀ (j + 1) m' := by
  have hlanes : ∀ l : Lane, LaneMask.all.get l = true →
      m.memory.read (laneAddress (m.reg Stream.source) l) =
        .ok (m₀.memory.wordAt (wordAddress (m₀.reg Stream.source) (4 * j + l.val))) := by
    intro l _
    rw [h.laneAddress_eq, h.memory]
    exact (hread l).read_eq
  obtain ⟨m', hdoes, hframe, -, hblock, hsource⟩ : Achieves mulAdd [load i] _ m _ :=
    achieves_vecLoad_post (leaves_of_plain hlooping.plain) (QReg.ofField (i % 4)) (by decide)
      (by decide) (by decide) hlanes
  have hlr : Reg.lr ≠ Stream.source := by decide
  refine ⟨m', hdoes, hlooping.of_frame hframe hlr hblock, ?_⟩
  constructor
  case source =>
    rw [hsource, h.source]
    exact wordAddress_wordAddress _ _ 4
  case reg =>
    intro r hr hlr
    rw [hframe.reg r hr, h.reg r hr hlr]
  case lane =>
    -- loads go to the first four vector registers in turn
    intro q l hq
    rw [hframe.lane q l, h.lane q l hq]
    rintro rfl
    have hlow : (QReg.ofField (i % 4)).val = i % 4 % 8 := rfl
    omega
  case memory => exact hframe.memory.eq_of_none.trans h.memory

/-- A load fails at the first of its words that is not mapped. -/
theorem Progress.fails_load (h : Progress m₀ j m) (hplain : m.Plain) (mulAdd : MulAdd) (i : Nat)
    (haligned : m₀.reg Stream.source % 4 = 0) {k : Lane}
    (hread : ∀ l < k, m₀.memory.Readable (wordAddress (m₀.reg Stream.source) (4 * j + l.val)))
    (hunmapped : ¬m₀.memory.Readable (wordAddress (m₀.reg Stream.source) (4 * j + k.val))) :
    Fails mulAdd (Instruction.vecMem .load (QReg.ofField (i % 4)) Stream.source 16 .postIndex).meaning
      m (.error (.memory
        (.unmapped (wordAddress (m₀.reg Stream.source) (4 * j + k.val)) 4 "read"))) := by
  apply fails_vecLoad_post (masks_of_plain hplain) _ (by decide) mulAdd (LaneMask.get_all k)
  · intro l hl _
    rw [h.laneAddress_eq, h.memory]
    exact hread l hl
  · rw [h.laneAddress_eq, h.memory]
    exact Memory.read_eq_unmapped (Memory.wordAddress_aligned haligned _) hunmapped

/-- The first loads of an iteration go through if their words can be read. -/
theorem Progress.exists_loads (h : Progress m₀ j m) (hlooping : Looping false n c m)
    (mulAdd : MulAdd) (i : Nat)
    (hread : ∀ t < 4 * (j + i), m₀.memory.Readable (wordAddress (m₀.reg Stream.source) t)) :
    ∃ m', Does mulAdd (round i) m m' ∧ Looping false n c m' ∧ Progress m₀ (j + i) m' := by
  -- on the number of loads; each takes the words behind those of the last
  induction i with
  | zero => exact ⟨m, .nil, hlooping, h⟩
  | succ i ih =>
    obtain ⟨m₁, hdoes₁, hlooping₁, hprogress₁⟩ := ih fun t ht => hread t (by omega)
    obtain ⟨m₂, hdoes₂, hlooping₂, hprogress₂⟩ :=
      hprogress₁.exists_load hlooping₁ mulAdd i fun l => hread _ (by omega)
    refine ⟨m₂, ?_, hlooping₂, hprogress₂⟩
    rw [round, List.range_succ, List.map_append]
    exact .append hdoes₁ hdoes₂

/-- Iterations go through as far as their words can be read. -/
theorem iterates (stop : Nat)
    (hread : ∀ t < 4 * (unroll * stop), m₀.memory.Readable (wordAddress (m₀.reg source) t)) :
    (round unroll).Iterates mulAdd false n stop fun c m => Progress m₀ (unroll * c) m := by
  intro c m hc hlooping hprogress
  have hle : unroll * (c + 1) ≤ unroll * stop := Nat.mul_le_mul_left unroll hc
  show ∃ m', _ ∧ _ ∧ Progress m₀ (unroll * (c + 1)) m'
  rw [Nat.mul_succ] at hle ⊢
  exact hprogress.exists_loads hlooping mulAdd unroll fun t ht => hread t (by omega)

/-! ## Calls -/

variable {src count : UInt32}

/-- What the prologue leaves: the frame is on the stack and the arguments are in place. -/
structure Ready (src count : UInt32) (m m₁ : Machine) : Prop where
  plain : m₁.Plain
  source : m₁.reg source = src
  count : m₁.reg iterations = count
  sp : m₁.reg .sp = frameBase 2
  saved : m₁.memory.HoldsWords (frameBase 2) ([m.reg .r7] ++ [returnAddress + 1])
  scalars : ∀ r ∈ calleeRegs, m₁.reg r = m.reg r
  lane : ∀ q l, m₁.lane q l = m.lane q l
  writes : Memory.Writes (OnFrame 2) m.memory m₁.memory

theorem exists_ready (mulAdd : MulAdd) (src count : UInt32) (h : fresh.memory.Grows m.memory) :
    ∃ m₁, Does mulAdd prologue (enter [src, count] m) m₁ ∧ Ready src count m m₁ := by
  have hreg := reg_enter [src, count] m
  have hpush : Achieves mulAdd prologue _ (enter [src, count] m) _ :=
    Sequence.achieves_push (plain_enter _ m).block ⟨_, rfl⟩ (by decide) (by decide)
      ((hreg .sp).trans (wordAddress_frameBase (by decide)).symm) (by decide)
      fun n hn => frame_writable (by decide) h hn
  obtain ⟨m₁, hdoes, hframe, hsp, -, hsaved⟩ := hpush
  have hsame : ∀ r, r ≠ .sp → m₁.reg r = (enter [src, count] m).reg r := hframe.reg
  refine ⟨m₁, hdoes, ?_⟩
  constructor
  case plain => exact hframe.plain id (plain_enter _ m)
  case source => exact (hsame _ (by decide)).trans (hreg .r0)
  case count => exact (hsame _ (by decide)).trans (hreg .r1)
  case sp => exact hsp
  case saved =>
    have hstack : m₁.memory.HoldsWords (frameBase 2)
        ([(enter [src, count] m).reg .r7] ++ [(enter [src, count] m).reg .lr]) := hsaved
    rwa [hreg .r7, hreg .lr] at hstack
  case scalars =>
    intro r hr
    rw [hsame r (ne_of_callee hr).2.1, reg_enter_of_callee _ m hr]
  case lane =>
    intro q l
    exact hframe.lane q l id
  case writes => exact hframe.memory

/-- After the loads everything is as the caller expects it. -/
theorem Ready.unwound (hready : Ready src count m m₁) {m₂ : Machine} (hplain : m₂.Plain)
    (h : Progress m₁ j m₂) : Unwound 2 m m₂ where
  plain := hplain
  sp := (h.reg .sp (by decide) (by decide)).trans hready.sp
  saved := h.memory ▸ hready.saved
  writes := h.memory ▸ hready.writes
  scalars r hr := by
    obtain ⟨hsource, -, hlr⟩ := ne_of_callee hr
    rw [h.reg r hsource hlr, hready.scalars r hr]
  vectors q l hq := (h.lane q l hq).trans (hready.lane q l)

section Code

variable {code : Array UInt16} {p q p' limit : Nat}
  (hcode : Script.GuardedAt code iterations false prologue (round unroll) epilogue p q p')
  (hgrows : fresh.memory.Grows m.memory)

include hcode hgrows

/-- Where all words can be read the call returns the address behind them. -/
theorem exists_call (mulAdd : MulAdd)
    (hread : ∀ t < 4 * (unroll * count.toNat), m.memory.Readable (wordAddress src t))
    (hlimit : count.toNat * (unroll + 1) + 3 ≤ limit) :
    ∃ m', call mulAdd code [src, count] (m.withLimit limit) =
        .ok (wordAddress src (4 * (unroll * count.toNat))) m' ∧ m.Conforms m' ∧
      m'.steps = count.toNat * (unroll + 1) + 3 := by
  obtain ⟨m₁, hdoes, hready⟩ := exists_ready mulAdd src count hgrows
  have hiterates : (round unroll).Iterates mulAdd false count.toNat
      (rounds false true count.toNat) fun c m => Progress m₁ (unroll * c) m := by
    refine iterates _ fun t ht => hready.writes.readable_iff.mpr ?_
    rw [rounds_guarded] at ht
    rw [hready.source]
    exact hread t ht
  have hcount : prologue.length + (1 + ((round unroll).length + 1) * rounds false true count.toNat) +
      (([] : Script).length + 1) = count.toNat * (unroll + 1) + 3 := by
    rw [rounds_guarded, length_round, show prologue.length = 1 from rfl, List.length_nil]
    ring
  obtain ⟨m', hcall, ⟨hresult, hconforms⟩, hsteps⟩ :=
    hcode.exists_call straight_prologue (unrolled.straight_round unroll) (by decide) hdoes hready.plain
      (congrArg UInt32.toNat hready.count) (.refl m₁) (fun _ _ count tail h => h.counted count tail)
      (show epilogue = [] ++ [.emit (.pop (RegSet.ofList [.r7, .pc]))] from rfl) Script.straight_nil
      hiterates
      (Q := fun m' => m'.reg .r0 = wordAddress src (4 * (unroll * count.toNat)) ∧ m.Conforms m')
      (fun m₂ hplain hprogress => by
        obtain ⟨m', hreturns, hconforms, hother, -⟩ :=
          (hready.unwound hplain hprogress).exists_returns (by decide) mulAdd
            (RegSet.ofList [.r7, .pc]) rfl
        rw [rounds_guarded] at hprogress
        refine ⟨m₂, m', .nil, hreturns, ?_, hconforms⟩
        rw [hother .r0 (by decide) (by decide), ← hready.source]
        exact hprogress.source)
      hcount hlimit
  exact ⟨_, hresult ▸ hcall, hconforms.tick.withLimit limit, hsteps⟩

/-- Where a word cannot be read the call stops at the first such word. -/
theorem exists_call_error (mulAdd : MulAdd) (haligned : src % 4 = 0) {t : Nat}
    (ht : t < 4 * (unroll * count.toNat))
    (hbefore : ∀ s < t, m.memory.Readable (wordAddress src s))
    (hunmapped : ¬m.memory.Readable (wordAddress src t))
    (hlimit : count.toNat * (unroll + 1) + 3 ≤ limit) :
    ∃ stopped, call mulAdd code [src, count] (m.withLimit limit) =
      .error (.error (.memory (.unmapped (wordAddress src t) 4 "read"))) stopped := by
  obtain ⟨m₁, hdoes, hready⟩ := exists_ready mulAdd src count hgrows
  have hreadable : ∀ s, m₁.memory.Readable (wordAddress (m₁.reg source) s) ↔
      m.memory.Readable (wordAddress src s) := by
    intro s
    rw [hready.source]
    exact hready.writes.readable_iff
  obtain ⟨c, i, k, hc, hi, rfl⟩ := exists_load_of_word ht
  -- the iterations before the word go through
  have hiterates : (round unroll).Iterates mulAdd false count.toNat c
      fun c m => Progress m₁ (unroll * c) m := by
    apply iterates
    intro s hs
    exact (hreadable s).mpr (hbefore s (by omega))
  obtain ⟨rest, hsplit⟩ := round_split hi
  have hlimit' : prologue.length + (1 + ((round unroll).length + 1) * c) + (round i).length <
      limit := by
    have hle : (unroll + 1) * (c + 1) ≤ (unroll + 1) * count.toNat := Nat.mul_le_mul_left _ hc
    rw [Nat.mul_succ, Nat.mul_comm _ count.toNat] at hle
    rw [length_round, length_round, show prologue.length = 1 from rfl]
    omega
  apply hcode.exists_call_error straight_prologue (unrolled.straight_round unroll) (by decide) hdoes
    hready.plain (congrArg UInt32.toNat hready.count) (.refl m₁)
    (fun _ _ count tail h => h.counted count tail) hsplit (by rwa [rounds_guarded]) hiterates
    _ hlimit'
  -- so do the loads before it in its own iteration, and the next one fails
  intro m₂ hlooping hprogress
  obtain ⟨m₃, hloads, hlooping', hprogress'⟩ := hprogress.exists_loads hlooping mulAdd i
    fun s hs => (hreadable s).mpr (hbefore s (by omega))
  refine ⟨m₃, hloads, ?_⟩
  rw [← hready.source] at haligned ⊢
  apply hprogress'.fails_load hlooping'.plain mulAdd i haligned
  · intro l hl
    exact (hreadable _).mpr (hbefore _ (Nat.add_lt_add_left (Fin.lt_def.mp hl) _))
  · exact fun hread => hunmapped ((hreadable _).mp hread)

end Code

/-- The kernel reads its input from the first word to the last: it returns the address behind
    them if all are mapped, and otherwise stops at the first that is not. -/
theorem call_reads_exactly (unroll : Nat) (hlow : 1 ≤ unroll) (hhigh : unroll ≤ maxUnroll)
    (buffer : Buffer) (hcapacity : 2 * unroll + 6 ≤ buffer.capacity) :
    ∃ kernel, buffer.fulfil (.stream unroll) = .ok kernel ∧ kernel.faults = [] ∧
      kernel.code.size = 2 * unroll + 6 ∧
      ∀ (mulAdd : MulAdd) (m : Machine) (src count : UInt32) (limit : Nat),
        fresh.memory.Grows m.memory → src % 4 = 0 → count.toNat * (unroll + 1) + 3 ≤ limit →
        ((∀ t < 4 * (unroll * count.toNat), m.memory.Readable (wordAddress src t)) →
          ∃ m', call mulAdd kernel.code [src, count] (m.withLimit limit) =
              .ok (src + UInt32.ofNat (16 * unroll * count.toNat)) m' ∧ m.Conforms m' ∧
            m'.steps = count.toNat * (unroll + 1) + 3) ∧
        ∀ t < 4 * (unroll * count.toNat),
          (∀ s < t, m.memory.Readable (wordAddress src s)) →
          ¬m.memory.Readable (wordAddress src t) →
          ∃ stopped, call mulAdd kernel.code [src, count] (m.withLimit limit) =
            .error (.error (.memory (.unmapped (wordAddress src t) 4 "read"))) stopped := by
  obtain ⟨kernel, hfulfil, hfaults, hsize, p, q, hcode⟩ :=
    unrolled.exists_generate hlow hhigh hcapacity
  refine ⟨kernel, hfulfil, hfaults, hsize, fun mulAdd m src count limit hgrows haligned hlimit =>
    ⟨fun hread => ?_, fun t ht hbefore hunmapped => ?_⟩⟩
  · have hend : wordAddress src (4 * (unroll * count.toNat)) =
        src + UInt32.ofNat (16 * unroll * count.toNat) := by
      rw [wordAddress]
      ring_nf
    rw [← hend]
    exact exists_call hcode hgrows mulAdd hread hlimit
  · exact exists_call_error hcode hgrows mulAdd haligned ht hbefore hunmapped hlimit

/-- Words of an array that ends inside a vector. -/
def shortArray : Array UInt32 :=
  Array.replicate 13 0

/-- A machine on which that array is mapped behind the stack. -/
def arrayMachine : Machine :=
  { fresh with
    memory := ⟨fresh.memory.regions ++ [⟨0x20000000, Bytes.ofWords shortArray, false⟩]⟩ }

theorem mapped_arrayMachine : fresh.memory.Grows arrayMachine.memory ∧
    arrayMachine.memory.HoldsWords 0x20000000 shortArray.toList := by
  obtain ⟨bytes, hsize, hfresh⟩ := exists_stack
  have hapart : fresh.memory.Apart := by
    rw [hfresh]
    exact List.pairwise_singleton _ _
  have hroom : (0x20000000 : UInt32).toNat + 4 * shortArray.size ≤ 2 ^ 32 := by decide
  obtain ⟨hmap, hapart'⟩ := hapart.mapWords_eq false hroom fun r hr => by
    rw [hfresh] at hr
    obtain rfl := List.mem_singleton.mp hr
    exact .inr (show _ ≤ (stackTop - stackSize).toNat by decide)
  rw [Memory.mapWords_eq_map] at hmap
  exact ⟨.map .refl hmap, hapart'.holdsWords (List.mem_append_right _ (List.mem_singleton_self _))
    (by decide) hroom⟩

/-- Behind the array nothing is mapped. -/
theorem not_readable_arrayMachine :
    ¬arrayMachine.memory.Readable (wordAddress 0x20000000 13) := by
  obtain ⟨bytes, hsize, hfresh⟩ := exists_stack
  intro h
  obtain ⟨-, hmapped⟩ := Memory.readable_iff.mp h
  refine hmapped ?_
  show Memory.permission _ (fresh.memory.regions ++ _) = _
  rw [hfresh, Memory.permission_eq, List.find?_eq_none.mpr]
  intro r hr
  rw [Region.covers_iff, Region.limit]
  rcases List.mem_append.mp hr with hr | hr
  · obtain rfl := List.mem_singleton.mp hr
    have hbase : (wordAddress 0x20000000 13).toNat < (stackTop - stackSize).toNat := by decide
    exact fun h => absurd h.1 (Nat.not_le.mpr hbase)
  · obtain rfl := List.mem_singleton.mp hr
    have hend : (0x20000000 : UInt32).toNat + 4 * shortArray.size =
        (wordAddress 0x20000000 13).toNat := by decide
    dsimp only
    rw [Bytes.size_ofWords, hend]
    omega

/-- Two loads at a time: one iteration stays inside the array, and the second lane of the
    fourth load is behind it. -/
theorem call_reads_exactly_arrayMachine :
    ∃ kernel, Buffer.fulfil ⟨#[], 10, 0, [], false⟩ (.stream 2) = .ok kernel ∧
      (∃ m', call Binary32.mulAdd kernel.code [0x20000000, 1] (arrayMachine.withLimit 6) =
          .ok 0x20000020 m' ∧ m'.steps = 6) ∧
      ∃ stopped, call Binary32.mulAdd kernel.code [0x20000000, 2] (arrayMachine.withLimit 9) =
        .error (.error (.memory (.unmapped 0x20000034 4 "read"))) stopped := by
  obtain ⟨kernel, hfulfil, -, -, hcall⟩ :=
    call_reads_exactly 2 (by decide) (by decide) ⟨#[], 10, 0, [], false⟩ (by decide)
  obtain ⟨hgrows, hwords⟩ := mapped_arrayMachine
  have hreadable : ∀ t < 13, arrayMachine.memory.Readable (wordAddress 0x20000000 t) :=
    fun t ht => ⟨_, hwords t (by simpa [shortArray] using ht)⟩
  have hcall := fun count limit =>
    hcall Binary32.mulAdd arrayMachine 0x20000000 count limit hgrows (by decide)
  obtain ⟨m', hok, -, hsteps⟩ := (hcall 1 6 (by decide)).1 fun t ht => hreadable t (by simp at ht; omega)
  exact ⟨kernel, hfulfil, ⟨m', hok, hsteps⟩,
    (hcall 2 9 (by decide)).2 13 (by decide) hreadable not_readable_arrayMachine⟩

end Stream

end HeliumKernels
