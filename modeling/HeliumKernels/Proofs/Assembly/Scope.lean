/-
  HeliumKernels.Proofs.Assembly.Scope

  Labels without positions.  `Scope.run?` follows the labels of a script
  without laying it out; where it finds every label open, a run of the script
  goes through in any buffer.  A balanced script closes every label it opens:
  straight pieces are balanced, and so are loops around balanced pieces.
-/
import HeliumKernels.Proofs.Assembly.Layout

namespace HeliumKernels

/-! ## Labels in scope -/

/-- Labels that are open, those of targets and those of slots. -/
structure Scope where
  targets : List Label
  slots : List Label
deriving DecidableEq, Repr

namespace Scope

/-- The open labels after a directive, unless it refers to one that is not open. -/
def after? (o : Scope) : Directive → Option Scope
  | .emit _ | .raw _ | .note _ => some o
  | .mark label | .target label _ => some { o with targets := label :: o.targets }
  | .reserve label _ => some { o with slots := label :: o.slots }
  | .branchTo label _ | .loopEnd label _ =>
    if label ∈ o.targets then some { o with targets := o.targets.filter (· != label) } else none
  | .bind label _ | .patch label _ =>
    if label ∈ o.slots then some { o with slots := o.slots.filter (· != label) } else none

/-- The open labels after a script. -/
def run? (o : Scope) (script : Script) : Option Scope :=
  script.foldlM after? o

@[simp] theorem run?_nil (o : Scope) : o.run? [] = some o := rfl

theorem run?_cons (o : Scope) (d : Directive) (s : Script) :
    o.run? (d :: s) = (o.after? d).bind fun o' => o'.run? s := rfl

theorem run?_append (o : Scope) (s t : Script) :
    o.run? (s ++ t) = (o.run? s).bind fun o' => o'.run? t := by
  unfold run?
  rw [List.foldlM_append]
  rfl

end Scope

namespace Assembler

variable {a a' : Assembler} {ws : List Word} {d : Directive} {script : Script} {o : Scope}

/-- The labels that are open in an assembler. -/
def scope (a : Assembler) : Scope :=
  ⟨a.targets.map Prod.fst, a.slots.map Prod.fst⟩

section

variable {α : Type} {label : Label} {entries : List (Label × α)}

theorem exists_lookup (h : label ∈ entries.map Prod.fst) :
    ∃ found, entries.lookup label = some found := by
  cases hlookup : entries.lookup label with
  | some found => exact ⟨found, rfl⟩
  | none =>
    -- a failed lookup has looked at every entry
    obtain ⟨entry, hentry, heq⟩ := List.mem_map.mp h
    have hne := List.lookup_eq_none_iff.mp hlookup entry hentry
    simp [heq] at hne

theorem map_fst_filter (label : Label) (entries : List (Label × α)) :
    (entries.filter fun entry => entry.1 != label).map Prod.fst =
      (entries.map Prod.fst).filter (· != label) := by
  rw [List.filter_map]
  rfl

end

/-- A directive whose label is open goes through. -/
theorem Sound.exists_step (h : a.Sound ws) (hcursor : a.buffer.cursor ≤ 2 ^ 29)
    (hscope : a.scope.after? d = some o) : ∃ a', a.step d = .ok a' ∧ a'.scope = o := by
  -- a displacement within 2 ^ 29 half-words never traps, so the label alone decides
  have hback : ∀ label jump, d.backward? = some (label, jump) → label ∈ a.scope.targets →
      ∃ a', a.step d = .ok a' ∧
        a'.scope = { a.scope with targets := a.scope.targets.filter (· != label) } := by
    intro label jump hd hmem
    obtain ⟨found, hfound⟩ := exists_lookup hmem
    rcases h.step_backward hcursor hd with ⟨hnone, -⟩ | ⟨target, fault, -, -, -, -, hok⟩
    · rw [hnone] at hfound
      cases hfound
    · exact ⟨_, hok, by simp only [scope, map_fst_filter]⟩
  cases d with
  | branchTo label cond =>
    obtain ⟨hmem, heq⟩ := Option.ite_none_right_eq_some.mp hscope
    exact Option.some.inj heq ▸ hback label _ rfl hmem
  | loopEnd label tailPredicated =>
    obtain ⟨hmem, heq⟩ := Option.ite_none_right_eq_some.mp hscope
    exact Option.some.inj heq ▸ hback label _ rfl hmem
  | bind label fixup =>
    obtain ⟨hmem, heq⟩ := Option.ite_none_right_eq_some.mp hscope
    obtain ⟨slot, hlookup⟩ := exists_lookup hmem
    have hslot := h.slot_le hlookup
    refine ⟨_, bind_eq_ok.mpr ⟨_, resolve_of_lookup hlookup,
      bind_eq_ok.mpr ⟨_, displacement_eq (by omega) hcursor, rfl⟩⟩, ?_⟩
    rw [← Option.some.inj heq]
    simp only [scope, map_fst_filter]
  | patch label i =>
    obtain ⟨hmem, heq⟩ := Option.ite_none_right_eq_some.mp hscope
    obtain ⟨slot, hlookup⟩ := exists_lookup hmem
    refine ⟨_, bind_eq_ok.mpr ⟨_, resolve_of_lookup hlookup, rfl⟩, ?_⟩
    rw [← Option.some.inj heq]
    simp only [scope, map_fst_filter]
  | emit i => exact ⟨_, rfl, Option.some.inj hscope⟩
  | raw word => exact ⟨_, rfl, Option.some.inj hscope⟩
  | mark label => exact ⟨_, rfl, Option.some.inj hscope⟩
  | target label i => exact ⟨_, rfl, Option.some.inj hscope⟩
  | reserve label width => exact ⟨_, rfl, Option.some.inj hscope⟩
  | note fault => exact ⟨_, rfl, Option.some.inj hscope⟩

/-- A script whose labels are in scope goes through. -/
theorem Sound.exists_run (h : a.Sound ws)
    (hlength : a.buffer.cursor + 2 * script.length ≤ 2 ^ 29)
    (hscope : a.scope.run? script = some o) : ∃ a', a.run script = .ok a' ∧ a'.scope = o := by
  -- the bound on the length pays for the cursor of every step ahead
  induction script generalizing a ws with
  | nil => exact ⟨a, rfl, Option.some.inj hscope⟩
  | cons d script ih =>
    obtain ⟨o₁, hscope₁, hscope⟩ := Option.bind_eq_some_iff.mp hscope
    rw [List.length_cons] at hlength
    obtain ⟨a₁, hstep, rfl⟩ := h.exists_step (by omega) hscope₁
    obtain ⟨ws₁, h₁, -⟩ := h.step hstep
    have hcursor := cursor_step_le hstep
    obtain ⟨a', hrun, ho⟩ := ih h₁ (by omega) hscope
    exact ⟨a', run_cons.mpr ⟨a₁, hstep, hrun⟩, ho⟩

end Assembler

/-! ## Balanced scripts -/

namespace Directive

theorem after?_of_label? {d : Directive} (h : d.label? = none) (o : Scope) :
    o.after? d = some o := by
  cases d <;> first | rfl | cases h

end Directive

namespace Script

variable {s t : Script}

/-- A script that closes every label it opens, and opens no slot. -/
def Balanced (s : Script) : Prop :=
  ∀ o : Scope, o.run? s = some { o with targets := o.targets.filter (· ∉ s.labels) }

theorem balanced_of_label? (h : ∀ d ∈ s, d.label? = none) : s.Balanced := by
  intro o
  have hlabels := labels_eq_nil h
  have hrun : o.run? s = some o := by
    clear hlabels
    induction s with
    | nil => rfl
    | cons d s ih =>
      rw [Scope.run?_cons, Directive.after?_of_label? (h d List.mem_cons_self)]
      exact ih fun d hd => h d (List.mem_cons_of_mem _ hd)
  rw [hrun, hlabels]
  simp

theorem Straight.balanced (h : s.Straight) : s.Balanced :=
  balanced_of_label? fun d hd => Directive.label?_of_isEmit (h d hd)

theorem Balanced.append (hs : s.Balanced) (ht : t.Balanced) : (s ++ t).Balanced := by
  intro o
  rw [Scope.run?_append, hs o, Option.bind_some, ht]
  simp only [List.filter_filter, labels_append, List.mem_append, not_or, Bool.decide_and,
    Bool.and_comm]

/-- A loop around a balanced body. -/
theorem Balanced.loop (h : s.Balanced) {label : Label} {d : Directive} {jump : Nat → Nat → Jump}
    (hd : d.backward? = some (label, jump)) (hfresh : label ∉ s.labels) :
    Balanced (.mark label :: (s ++ [d])) := by
  intro o
  have hlabels : labels [d] = [label] := by
    simp [labels, Directive.label?_of_backward? hd]
  -- a fresh label is still open behind the body
  have hclose : ∀ o : Scope, label ∈ o.targets →
      o.run? [d] = some { o with targets := o.targets.filter (· != label) } := by
    intro o hmem
    cases d with
    | branchTo l cond =>
      obtain ⟨rfl, -⟩ := Prod.mk.inj (Option.some.inj hd)
      simp [Scope.run?_cons, Scope.after?, hmem]
    | loopEnd l tailPredicated =>
      obtain ⟨rfl, -⟩ := Prod.mk.inj (Option.some.inj hd)
      simp [Scope.run?_cons, Scope.after?, hmem]
    | _ => cases hd
  have hmem : label ∈ (label :: o.targets).filter (· ∉ s.labels) :=
    List.mem_filter.mpr ⟨List.mem_cons_self, by simpa using hfresh⟩
  -- the loop closes its own label and what the body closes
  have hfilter : ((label :: o.targets).filter (· ∉ s.labels)).filter (· != label) =
      o.targets.filter (· ∉ labels (.mark label :: (s ++ [d]))) := by
    rw [List.filter_filter, List.filter_cons_of_neg (by simp)]
    refine List.filter_congr fun l _ => ?_
    rw [labels_mark, labels_append, hlabels]
    by_cases hl : l = label <;> simp [hl]
  rw [Scope.run?_cons, Scope.after?, Option.bind_some, Scope.run?_append, h, Option.bind_some,
    hclose _ hmem, hfilter]

end Script

end HeliumKernels
