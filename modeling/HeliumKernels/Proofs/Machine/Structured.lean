/-
  HeliumKernels.Proofs.Machine.Structured

  Execution of scripts before they are laid out.  `Does` says that running a
  script takes one state to another; it follows the script, with a loop for
  each label that a branch goes back to, and mentions no position.  A script
  that does something can be laid out, and wherever its code is placed the
  machine goes from its first position to its last with the same states.
-/
import HeliumKernels.Proofs.Assembly.Layout
import HeliumKernels.Proofs.Machine.Execution

namespace HeliumKernels

namespace Machine

open Run

/-! ## Closing a loop -/

/-- What the directive that closes a loop does, and whether it goes back. -/
inductive Closing : Directive → Machine → Machine → Bool → Prop where
  | branch {m : Machine} (label : Label) (cond : Condition) (h : m.Plain) :
      Closing (.branchTo label cond) m m (m.flags.holds cond)
  | again {m : Machine} (label : Label) (h : m.Plain) (hcount : 1 < m.reg .lr) :
      Closing (.loopEnd label false) m (m.setReg .lr (m.reg .lr - 1)) true
  | done {m : Machine} (label : Label) (h : m.Plain) (hcount : ¬1 < m.reg .lr) :
      Closing (.loopEnd label false) m m false

theorem branchTarget_codeAddress {p target : Nat} (hp : p ≤ 2 ^ 29) (htarget : target ≤ 2 ^ 29)
    {m : Machine} :
    branchTarget (codeAddress p) (gap p target) m = .ok (codeAddress target) m := by
  have hnat := toNat_codeAddress (p := p) (by omega)
  rw [branchTarget_eq (by omega), displaced_eq_add]
  congr 1
  apply UInt32.toNat.inj
  rw [toNat_codeAddress (by omega)]
  simp only [UInt32.toNat_add, hnat, UInt32.ofInt, UInt32.toNat_ofNat', UInt32.reduceToNat, gap]
  omega

/-- Outside predication the instruction at a position executes on all lanes. -/
theorem Plain.steps {mulAdd : MulAdd} {code : Array UInt16} {m m' : Machine} {p : Nat}
    {op : Operation} {width : Width} {pc' : UInt32} (h : m.Plain)
    (hp : 4096 + 2 * p < 0xFFFFFFF0) (hdecode : decodeAt code p = .ok ⟨op, width⟩)
    (hexecute : execute mulAdd (codeAddress p) (codeAddress (p + width.halfWords)) LaneMask.all op
      m = .ok pc' m') :
    Steps mulAdd (Program.ofCode code) 1 (codeAddress p) m pc' m'.tick := by
  refine .one (codeAddress_ne_return hp) ((step_codeAddress hp hdecode).trans ?_)
  rw [bind_of_ok (laneMask_of_plain h _)]
  exact hexecute

/-- Where the closing jump leads. -/
theorem Closing.steps {mulAdd : MulAdd} {code : Array UInt16} {d : Directive} {m m' : Machine}
    {again : Bool} {label : Label} {jump : Nat → Nat → Jump} {p target : Nat}
    (h : Closing d m m' again) (hd : d.backward? = some (label, jump)) (hp : p ≤ 2 ^ 29)
    (htarget : target ≤ 2 ^ 29)
    (hdecode : decodeAt code p =
      .ok ⟨(jump p target).instruction.meaning, (jump p target).instruction.width⟩) :
    Steps mulAdd (Program.ofCode code) 1 (codeAddress p) m
      (if again then codeAddress target
        else codeAddress (p + (jump p target).instruction.width.halfWords)) m'.tick := by
  have hland : ∀ m, branchTarget (codeAddress p) (gap p target) m = _ :=
    fun _ => branchTarget_codeAddress hp htarget
  cases h with
  | branch label cond h =>
    obtain ⟨rfl, rfl⟩ := Prod.mk.inj (Option.some.inj hd)
    refine h.steps (by omega) hdecode ?_
    simp only [Jump.branch, Instruction.meaning, execute, bind, EStateM.bind, get, getThe,
      MonadStateOf.get, EStateM.get]
    split
    · exact hland _
    · rfl
  | again label h hcount =>
    obtain ⟨rfl, rfl⟩ := Prod.mk.inj (Option.some.inj hd)
    refine h.steps (by omega) hdecode ?_
    -- the instruction holds the distance back, so the branch negates it again
    simp only [Jump.loopEnd, Instruction.meaning, execute, bind, EStateM.bind, get, getThe,
      MonadStateOf.get, EStateM.get, Bool.false_eq_true, ↓reduceIte, hcount, Int.neg_neg]
    exact hland _
  | done label h hcount =>
    obtain ⟨rfl, rfl⟩ := Prod.mk.inj (Option.some.inj hd)
    refine h.steps (by omega) hdecode ?_
    simp only [Jump.loopEnd, Instruction.meaning, execute, bind, EStateM.bind, get, getThe,
      MonadStateOf.get, EStateM.get, Bool.false_eq_true, ↓reduceIte, hcount]
    rfl

/-! ## Scripts -/

/-- Running a script takes one state to another. -/
inductive Does (mulAdd : MulAdd) : Script → Machine → Machine → Prop where
  | nil {m : Machine} : Does mulAdd [] m m
  | append {s t : Script} {m m₁ m' : Machine} (hs : Does mulAdd s m m₁)
      (ht : Does mulAdd t m₁ m') : Does mulAdd (s ++ t) m m'
  | emit {i : Instruction} {word : Word} {m m' : Machine} (hword : i.assemble = .ok word)
      (heffect : Effect mulAdd i.meaning m m') :
      Does mulAdd [.emit i] m m'.tick
  | note {m : Machine} (fault : Fault) : Does mulAdd [.note fault] m m
  | again {label : Label} {jump : Nat → Nat → Jump} {body : Script} {d : Directive}
      {m m₁ m₂ m' : Machine} (hd : d.backward? = some (label, jump))
      (hfresh : label ∉ body.labels) (hbody : Does mulAdd body m m₁)
      (hclosing : Closing d m₁ m₂ true)
      (hrest : Does mulAdd (.mark label :: (body ++ [d])) m₂.tick m') :
      Does mulAdd (.mark label :: (body ++ [d])) m m'
  | leave {label : Label} {jump : Nat → Nat → Jump} {body : Script} {d : Directive}
      {m m₁ m₂ : Machine} (hd : d.backward? = some (label, jump))
      (hfresh : label ∉ body.labels) (hbody : Does mulAdd body m m₁)
      (hclosing : Closing d m₁ m₂ false) :
      Does mulAdd (.mark label :: (body ++ [d])) m m₂.tick

namespace Does

variable {mulAdd : MulAdd} {script : Script} {m m' : Machine}

theorem isBackward_of_backward? {d : Directive} {label : Label} {jump : Nat → Nat → Jump}
    (h : d.backward? = some (label, jump)) : d.isBackward = true := by
  cases d <;> first | rfl | cases h

theorem isEmit_of_backward? {d : Directive} {label : Label} {jump : Nat → Nat → Jump}
    (h : d.backward? = some (label, jump)) : d.isEmit = false := by
  cases d <;> first | rfl | cases h

/-- Scripts that do something have no forward references. -/
theorem isBackward (h : Does mulAdd script m m') : ∀ d ∈ script, d.isBackward = true := by
  induction h with
  | nil => exact List.forall_mem_nil _
  | append _ _ ihs iht => exact List.forall_mem_append.mpr ⟨ihs, iht⟩
  | emit | note => exact List.forall_mem_singleton.mpr rfl
  | again _ _ _ _ _ _ ih => exact ih
  | leave hback _ _ _ ih =>
    have hd := isBackward_of_backward? hback
    exact List.forall_mem_cons.mpr
      ⟨rfl, List.forall_mem_append.mpr ⟨ih, List.forall_mem_singleton.mpr hd⟩⟩

/-- All their instructions assemble. -/
theorem assembles (h : Does mulAdd script m m') : script.Assembles := by
  induction h with
  | nil => exact Script.assembles_nil
  | append _ _ ihs iht => exact Script.assembles_append.mpr ⟨ihs, iht⟩
  | emit hword => exact Script.assembles_emit.mpr ⟨⟨_, hword⟩, Script.assembles_nil⟩
  | note => exact (Script.assembles_cons rfl).mpr Script.assembles_nil
  | again _ _ _ _ _ _ ih => exact ih
  | leave hback _ _ _ ih =>
    have hd := (Script.assembles_cons (isEmit_of_backward? hback)).mpr Script.assembles_nil
    exact (Script.assembles_cons rfl).mpr (Script.assembles_append.mpr ⟨ih, hd⟩)

/-- Wherever a script is placed the machine goes from its first position to its
    last. -/
theorem steps (h : Does mulAdd script m m') {code : Array UInt16} {env env' : List (Label × Nat)}
    {p p' : Nat} (hplaced : Placed code env p script env' p') (hp' : p' ≤ 2 ^ 29) :
    ∃ n, Steps mulAdd (Program.ofCode code) n (codeAddress p) m (codeAddress p') m' := by
  induction h generalizing env env' p p' with
  | nil =>
    cases hplaced
    exact ⟨0, .refl⟩
  | append _ _ ihs iht =>
    obtain ⟨env₁, p₁, hs, ht⟩ := Placed.append_iff.mp hplaced
    obtain ⟨n, hn⟩ := ihs hs (Nat.le_trans ht.le hp')
    obtain ⟨k, hk⟩ := iht ht hp'
    exact ⟨n + k, hn.trans hk⟩
  | emit _ heffect =>
    obtain ⟨hdecode, hrest⟩ := Placed.emit_iff.mp hplaced
    cases hrest
    exact ⟨1, heffect.steps (by omega) hdecode⟩
  | note =>
    cases hplaced with
    | back hd => cases hd
    | note hrest =>
      cases hrest
      exact ⟨0, .refl⟩
  | again hd hfresh _ hclosing _ ihbody ihrest =>
    obtain ⟨env₁, p₁, hbody, hdecode, rfl⟩ := hplaced.loop hd (Script.label?_ne_of_not_mem hfresh)
    have hle := hbody.le
    obtain ⟨n, hn⟩ := ihbody hbody (by omega)
    obtain ⟨k, hk⟩ := ihrest hplaced hp'
    exact ⟨_, (hn.trans (hclosing.steps hd (by omega) (by omega) hdecode)).trans hk⟩
  | leave hd hfresh _ hclosing ihbody =>
    obtain ⟨env₁, p₁, hbody, hdecode, rfl⟩ := hplaced.loop hd (Script.label?_ne_of_not_mem hfresh)
    have hle := hbody.le
    obtain ⟨n, hn⟩ := ihbody hbody (by omega)
    exact ⟨_, hn.trans (hclosing.steps hd (by omega) (by omega) hdecode)⟩

/-! ## Laying out -/

/-- A script that does something can be laid out, and keeps the labels it does not
    mention. -/
theorem run_eq_ok (h : Does mulAdd script m m') {a : Assembler} {ws : List Word}
    (ha : a.Sound ws) (hlength : a.buffer.cursor + 2 * script.length ≤ 2 ^ 29) :
    ∃ a', a.run script = .ok a' ∧
      ∀ label, label ∉ script.labels → a'.targets.lookup label = a.targets.lookup label := by
  induction h generalizing a ws with
  | nil => exact ⟨a, rfl, fun _ _ => rfl⟩
  | @append s t _ _ _ hs _ ihs iht =>
    rw [List.length_append] at hlength
    obtain ⟨a₁, hrun₁, hkeep₁⟩ := ihs ha (by omega)
    obtain ⟨ws₁, ha₁, -⟩ := ha.run hrun₁
    have hcursor := Assembler.cursor_run_le hrun₁
    obtain ⟨a₂, hrun₂, hkeep₂⟩ := iht ha₁ (by omega)
    refine ⟨a₂, Assembler.run_append.mpr ⟨a₁, hrun₁, hrun₂⟩, fun label hlabel => ?_⟩
    rw [Script.labels_append, List.mem_append, not_or] at hlabel
    rw [hkeep₂ label hlabel.2, hkeep₁ label hlabel.1]
  | emit | note => exact ⟨_, rfl, fun _ _ => rfl⟩
  | again _ _ _ _ _ _ ih => exact ih ha hlength
  | @leave label jump body d _ _ _ hd hfresh hbody _ ih =>
    rw [List.length_cons, List.length_append, List.length_singleton] at hlength
    -- the label stands for the position of the body until the jump resolves it
    have hmark : a.step (.mark label) = .ok { a with
        targets := (label, a.buffer.cursor) :: a.targets } := rfl
    obtain ⟨ws₁, ha₁, -⟩ := ha.step hmark
    obtain ⟨a₂, hrun₂, hkeep₂⟩ := ih ha₁ (by show a.buffer.cursor + _ ≤ _; omega)
    obtain ⟨ws₂, ha₂, -⟩ := ha₁.run hrun₂
    have hcursor := Assembler.cursor_run_le hrun₂
    change a₂.buffer.cursor ≤ a.buffer.cursor + _ at hcursor
    have hlookup : a₂.targets.lookup label = some a.buffer.cursor := by
      rw [hkeep₂ label hfresh, List.lookup_cons, beq_self_eq_true]
    rcases ha₂.step_backward (by omega) hd with ⟨hnone, -⟩ | ⟨target, fault, -, -, -, -, hstep⟩
    · rw [hlookup] at hnone
      cases hnone
    · refine ⟨_, Assembler.run_cons.mpr ⟨_, hmark, Assembler.run_append.mpr
        ⟨a₂, hrun₂, Assembler.run_cons.mpr ⟨_, hstep, rfl⟩⟩⟩, fun other hother => ?_⟩
      have hlabels : Script.labels (.mark label :: (body ++ [d])) =
          label :: (body.labels ++ Script.labels [d]) := by
        rw [← Script.labels_append]
        rfl
      rw [hlabels, List.mem_cons, List.mem_append, not_or, not_or] at hother
      show (a₂.targets.filter _).lookup other = _
      rw [Placed.lookup_filter_ne hother.1, hkeep₂ other hother.2.1, List.lookup_cons,
        beq_eq_false_iff_ne.mpr hother.1]

end Does

/-! ## Kernels -/

/-- An operation that exits to an address takes one state to another. -/
def Exits (mulAdd : MulAdd) (op : Operation) (target : UInt32) (m m' : Machine) : Prop :=
  ∀ pc next, (laneMask op pc >>= fun mask => execute mulAdd pc next mask op) m = .ok target m'

section Kernel

variable {mulAdd : MulAdd} {body : Script} {last : Instruction} {word : Word}
  {m m₁ m' : Machine}

/-- A script whose body does something is generated, and placed unless a fatal
    fault is recorded. -/
theorem Does.generate (h : Does mulAdd body m m₁) (hlast : last.assemble = .ok word)
    (hlength : 2 * (body.length + 1) ≤ 2 ^ 29) (b : Buffer) :
    ∃ b', b.generate (body ++ [.emit last]) = .ok b' ∧
      (b'.hasFatalFault = false → ∃ env p, p ≤ 2 ^ 29 ∧
        Placed b'.code [] 0 (body ++ [.emit last]) env p) := by
  have hstart := Assembler.sound_start b
  obtain ⟨a₁, hrun₁, -⟩ :=
    h.run_eq_ok hstart (show 0 + 2 * body.length ≤ 2 ^ 29 by omega)
  have hrun : (Assembler.start b.reset).run (body ++ [.emit last]) =
      .ok { a₁ with buffer := a₁.buffer.emit last } :=
    Assembler.run_append.mpr ⟨a₁, hrun₁, rfl⟩
  have hback : ∀ d ∈ body ++ [.emit last], d.isBackward = true :=
    List.forall_mem_append.mpr ⟨h.isBackward, List.forall_mem_singleton.mpr rfl⟩
  have hassembles : Script.Assembles (body ++ [.emit last]) :=
    Script.assembles_append.mpr
      ⟨h.assembles, Script.assembles_emit.mpr ⟨⟨word, hlast⟩, Script.assembles_nil⟩⟩
  have hsize : (Assembler.start b.reset).buffer.cursor +
      2 * (body ++ [Directive.emit last]).length ≤ 2 ^ 29 := by
    rw [List.length_append, List.length_singleton]
    show 0 + _ ≤ _
    omega
  have hcursor := Assembler.cursor_run_le hrun
  refine ⟨(a₁.buffer.emit last).finish, Buffer.generate_eq hrun, fun hfatal => ?_⟩
  -- closing keeps the faults, so nothing was emptied
  have hnone : (a₁.buffer.emit last).hasFatalFault = false := by
    rwa [Buffer.hasFatalFault, Buffer.faults_finish] at hfatal
  rw [Buffer.finish_of_not_fatal hnone]
  exact ⟨_, _, Nat.le_trans hcursor hsize, hstart.placed hassembles hback hsize hrun hnone⟩

theorem foldl_setReg_withLimit (pairs : List (Reg × UInt32)) (m : Machine) (limit : Nat) :
    pairs.foldl (fun m (r, value) => m.setReg r value) (m.withLimit limit) =
      (pairs.foldl (fun m (r, value) => m.setReg r value) m).withLimit limit := by
  induction pairs generalizing m with
  | nil => rfl
  | cons pair pairs ih => exact ih (m.setReg pair.1 pair.2)

theorem enter_withLimit (args : List UInt32) (m : Machine) (limit : Nat) :
    enter args (m.withLimit limit) = (enter args m).withLimit limit := by
  simp only [enter, foldl_setReg_withLimit]
  rfl

theorem reg_foldl_setReg {pairs : List (Reg × UInt32)} (hnodup : (pairs.map Prod.fst).Nodup)
    (m : Machine) (r : Reg) :
    (pairs.foldl (fun m (r, value) => m.setReg r value) m).reg r =
      (pairs.lookup r).getD (m.reg r) := by
  induction pairs generalizing m with
  | nil => rfl
  | cons pair pairs ih =>
    obtain ⟨s, value⟩ := pair
    obtain ⟨hs, hnodup⟩ := List.nodup_cons.mp hnodup
    rw [List.foldl_cons, ih hnodup, List.lookup_cons]
    by_cases hr : r = s
    · subst hr
      have hnone : pairs.lookup r = none :=
        List.lookup_eq_none_iff.mpr fun pair hpair =>
          bne_iff_ne.mpr fun heq => hs (List.mem_map.mpr ⟨pair, hpair, heq.symm⟩)
      rw [hnone, beq_self_eq_true, Option.getD_none, reg_setReg_self]
      rfl
    · rw [beq_eq_false_iff_ne.mpr hr, reg_setReg_of_ne m value (Ne.symm hr)]

/-- A call sets up its arguments, the stack and the return address. -/
theorem reg_enter (args : List UInt32) (m : Machine) (r : Reg) :
    (enter args m).reg r =
      if r = .lr then returnAddress + 1 else if r = .sp then stackTop
      else ((Reg.all.zip (args.take 4)).lookup r).getD (m.reg r) := by
  have hnodup : ((Reg.all.zip (args.take 4)).map Prod.fst).Nodup := by
    rw [List.zip_eq_zip_take_min, List.map_fst_zip (by simp)]
    exact (List.take_sublist _ _).nodup (by decide)
  show (((_ : Machine).setReg .sp stackTop).setReg .lr (returnAddress + 1)).reg r = _
  split
  · next hr => rw [hr, reg_setReg_self]
  · next hr =>
    rw [reg_setReg_of_ne _ _ (Ne.symm hr)]
    split
    · next hr => rw [hr, reg_setReg_self]
    · next hr => rw [reg_setReg_of_ne _ _ (Ne.symm hr), reg_foldl_setReg hnodup]

theorem plain_enter (args : List UInt32) (m : Machine) : (enter args m).Plain := ⟨rfl, rfl⟩

/-- A call with a limit is a run with that limit from the state it sets up. -/
theorem call_withLimit (code : Array UInt16) (args : List UInt32) (m : Machine) (limit : Nat) :
    call mulAdd code args (m.withLimit limit) =
      match runFrom mulAdd (Program.ofCode code) limit codeBase
        ((enter args m).withLimit limit) with
      | .ok _ m' => .ok (m'.reg .r0) m'
      | .error halt stopped => .error halt stopped := by
  have hlimit : ((enter args m).withLimit limit).stepLimit = limit := rfl
  simp only [call, bind, EStateM.bind, modify, modifyGet, MonadStateOf.modifyGet,
    EStateM.modifyGet, get, getThe, MonadStateOf.get, EStateM.get, enter_withLimit, hlimit]
  cases runFrom mulAdd (Program.ofCode code) limit codeBase ((enter args m).withLimit limit) with
  | ok _ m' => rfl
  | error halt stopped => rfl

/-- A call that reaches the return address after `n` instructions ends there with any
    limit of at least `n`, and stops at any other. -/
theorem Steps.call_eq {code : Array UInt16} {args : List UInt32} {n : Nat}
    (h : Steps mulAdd (Program.ofCode code) n codeBase (enter args m) returnAddress m')
    (limit : Nat) :
    (n ≤ limit → call mulAdd code args (m.withLimit limit) =
      .ok (m'.reg .r0) (m'.withLimit limit)) ∧
    (limit < n → ∃ stopped, call mulAdd code args (m.withLimit limit) =
      .error (.error (.stepLimit limit)) stopped) := by
  have hall := h.withLimit limit
  rw [call_withLimit]
  constructor
  · intro hlimit
    rw [hall.runFrom_eq_ok hlimit]
    rfl
  · intro hlimit
    obtain ⟨stopped, hrun⟩ := hall.runFrom_eq_error hlimit
    exact ⟨stopped, by rw [hrun]; rfl⟩

/-- A call that meets an instruction that stops it, stops there with any limit that lets it
    get so far. -/
theorem Steps.call_eq_error {code : Array UInt16} {args : List UInt32} {n : Nat} {pc : UInt32}
    (h : Steps mulAdd (Program.ofCode code) n codeBase (enter args m) pc m₁)
    (hpc : pc ≠ returnAddress) {halt : Halt} {stopped : Machine}
    (hstop : Machine.step mulAdd (Program.ofCode code) pc m₁ = .error halt stopped) {limit : Nat}
    (hlimit : n < limit) :
    ∃ stopped, call mulAdd code args (m.withLimit limit) = .error halt stopped := by
  -- the instruction is met under a limit, so it has to stop there under that limit too
  obtain ⟨stopped, hstop⟩ :=
    (Unmetered.step mulAdd (Program.ofCode code) pc).error_withLimit hstop limit
  refine ⟨stopped, ?_⟩
  rw [call_withLimit, (h.withLimit limit).runFrom_eq_error_of_step hpc hstop hlimit]

theorem Exits.steps {op : Operation} {width : Width} {target : UInt32}
    (h : Exits mulAdd op target m m') {code : Array UInt16} {p : Nat}
    (hp : 4096 + 2 * p < 0xFFFFFFF0) (hdecode : decodeAt code p = .ok ⟨op, width⟩) :
    Steps mulAdd (Program.ofCode code) 1 (codeAddress p) m target m'.tick :=
  .one (codeAddress_ne_return hp) ((step_codeAddress hp hdecode).trans (h _ _))

/-- A call of code that holds a kernel ends after a number of instructions that
    does not depend on the limit; with a lower limit it stops there. -/
theorem Does.call_eq {args : List UInt32} (h : Does mulAdd body (enter args m) m₁)
    (hlast : Exits mulAdd last.meaning returnAddress m₁ m') {code : Array UInt16}
    {env : List (Label × Nat)} {p : Nat} (hp : p ≤ 2 ^ 29)
    (hplaced : Placed code [] 0 (body ++ [.emit last]) env p) (limit : Nat) :
    (m'.tick.steps ≤ limit → call mulAdd code args (m.withLimit limit) =
      .ok (m'.reg .r0) (m'.tick.withLimit limit)) ∧
    (limit < m'.tick.steps → ∃ stopped, call mulAdd code args (m.withLimit limit) =
      .error (.error (.stepLimit limit)) stopped) := by
  obtain ⟨env₁, p₁, hbody, hend⟩ := Placed.append_iff.mp hplaced
  obtain ⟨hdecode, hrest⟩ := Placed.emit_iff.mp hend
  have hle := hrest.le
  obtain ⟨n, hn⟩ := h.steps hbody (by omega)
  have hall := hn.trans (hlast.steps (by omega) hdecode)
  -- a call starts to count anew
  have hsteps : m'.tick.steps = 0 + (n + 1) := hall.steps_eq
  rw [codeAddress_zero] at hall
  rw [hsteps, Nat.zero_add]
  exact hall.call_eq limit

end Kernel

end Machine

end HeliumKernels
