import Codegen6502.Proofs.Allocating.DataLines
import Codegen6502.Proofs.Processor.Stepping

/-!
# Runs of allocated code

A run of allocated code goes from block to block as a run of the selected code goes from line to
line (`Mirrors`).

* `data_mirrored`: a line that control passes through, and its block;
* `control_mirrored`: every other line stands in the allocated code as it is; either both codes end
  at it, or both go on, to a line and its block.
-/

namespace Codegen6502.Proofs.Allocating.Simulation

open Allocation Processor.Memory Processor.LineRun Processor.Straight Processor.Agreement
open Processor.Passages Processor.Stepping Liveness.Flow Assignment Blocks Housing Blockwise DataLines

/-! ### What is asked of a run -/

/-- A call leaves the frame alone, and the cells that it is not known to overwrite. -/
structure Spares (callClobbers : Std.TreeMap ℕ Clobbers) (h : House) (k : ℕ) (ans : Answer) :
    Prop where
  frame : ∀ address, h.IsFrame address → ans.memory address = none
  cells : ∀ (v : VReg) (cell : UInt8), h.locations[v.index]? = some (.zeroPage cell) →
    ans.memory cell.toUInt16 = none ∨
      ∃ set, callClobbers[k]? = some set ∧ set.containsCell cell = true

/-- The next line does not go to private places by their addresses, and if it is a call, it is one
that spares them. -/
structure Discreet (e : Environment) (selected : SelectedCode)
    (callClobbers : Std.TreeMap ℕ Clobbers) (h : House) (c : Config) : Prop where
  touches : ∀ (op : Opcode) (operand : Operand), selected.code[c.line]? = some (.op op operand) →
    isData op = true → ∀ address ∈ e.linkage.touched c.store.machine operand, ¬ h.Private c.sp address
  answers : ∀ (line : Line) (event : Event), selected.code[c.line]? = some line →
    c.question? selected.calls line = some event →
      Spares callClobbers h c.line (e.answer (c.trace ++ [event]))

/-! ### The relation -/

/-- A capture: it was made by a call, with so much on the stack as belongs in front of the line. -/
structure Captured (selected : SelectedCode) (base : UInt8) (capture : ℕ × UInt8) : Prop where
  call : ∃ (k : ℕ) (operand : Operand), capture.1 = k + 1 ∧
    selected.code[k]? = some (.op .jsr operand) ∧ selected.calls[k]? = some (.routine .setJmp)
  comes : Comes selected.code capture.1 (base.toNat - capture.2.toNat)
  sp : capture.2 ≤ base

/-- **The allocated code is in front of the block of the line** that the selected code is in front
of, has seen the same events, and its state houses the store. -/
structure Mirrors (selected : SelectedCode) (live : Liveness) (a : AllocatedCode)
    (block : ℕ → List Line) (view : ℕ → StackView) (base : UInt8) (reached : ℕ → Prop)
    (c d : Config) : Prop where
  line : d.line = offset block c.line
  inside : c.line ≤ selected.code.length
  housed : Housed (houseOf selected a base) (Before live c.line) c.store d.store.machine
  comes : Comes selected.code c.line (base.toNat - c.sp.toNat)
  /-- The view of the stack may count on X, but not at a label, to which control comes from
  elsewhere. -/
  indexed : (∀ name, selected.code[c.line]? ≠ some (.label name)) →
    ∀ depth, (view c.line).indexed = some depth → (d.store.regs.x.toNat : ℤ) + depth = base.toNat
  trace : d.trace = c.trace
  captures : d.captures = c.captures.map fun capture => (offset block capture.1, capture.2)
  captured : ∀ capture ∈ c.captures, Captured selected base capture
  reached : c.captures ≠ [] → reached c.line

variable {selected : SelectedCode} {callClobbers : Std.TreeMap ℕ Clobbers} {exit : RegSet}
  {live : Liveness} {a : AllocatedCode} {block : ℕ → List Line} {view : ℕ → StackView} {base : UInt8}
  {reached : ℕ → Prop} {e : Environment} {c d : Config} {line : Line} {op : Opcode}
  {operand : Operand}

/-! ### Lines that control passes through -/

/-- The stack pointer behind a line. -/
theorem sp_exec {l : Linkage} {s : Store} (hdata : isData op = true) (htxs : op ≠ .txs)
    (hencode : (op.encode operand.mode).isSome)
    (hpush : pushes (.op op operand) = 1 → 0 < s.regs.sp.toNat)
    (hpull : pushes (.op op operand) = -1 → s.regs.sp.toNat < 0xFF) :
    ((s.exec l op operand).regs.sp.toNat : ℤ) = s.regs.sp.toNat - pushes (.op op operand) := by
  by_cases hcalm : IsCalm op
  · have hzero : pushes (.op op operand) = 0 := by
      cases op <;> first | rfl | exact absurd hcalm (by decide)
    rw [hzero, sub_zero]
    have hsame : (s.exec l op operand).regs.sp = s.regs.sp := by
      cases operand with
      | virtual v => exact execute_sp hcalm (alone s.regs (s.cells v)) _
      | frame o => exact execute_sp hcalm (alone s.regs (s.frame o)) _
      | _ => exact execute_sp hcalm s.machine _
    rw [hsame]
  · have hstack := onStack hdata hcalm htxs
    obtain rfl := hstack.implied hencode
    have hpushed (hpos : 0 < s.regs.sp.toNat) :
        ((s.regs.sp - 1).toNat : ℤ) = s.regs.sp.toNat - 1 := by
      have hone : (1 : UInt8) ≤ s.regs.sp := UInt8.le_iff_toNat_le.mpr hpos
      rw [UInt8.toNat_sub_of_le _ _ hone, UInt8.toNat_one]
      omega
    have hpulled (hlt : s.regs.sp.toNat < 0xFF) : ((s.regs.sp + 1).toNat : ℤ) = s.regs.sp.toNat + 1 := by
      rw [UInt8.toNat_add, UInt8.toNat_one]
      omega
    cases hstack with
    | pha => exact hpushed (hpush rfl)
    | php => exact hpushed (hpush rfl)
    | pla => exact (hpulled (hpull rfl)).trans (sub_neg_eq_add _ _).symm
    | plp => exact (hpulled (hpull rfl)).trans (sub_neg_eq_add _ _).symm

theorem Mirrors.stands (hm : Mirrors selected live a block view base reached c d)
    (hline : selected.code[c.line]? = some (.op op operand)) :
    Stands selected live a block view base c.line c.store d :=
  ⟨hm.line, hm.housed, hm.comes, hm.indexed fun name => by rw [hline]; simp⟩

/-- **A line that control passes through** is followed by its block. -/
theorem data_mirrored (hp : Placing selected callClobbers exit live a block view base)
    (hreached : Resumable selected.code selected.calls live reached)
    (hhidden : ∀ address, (houseOf selected a base).IsCell address ∨
      (houseOf selected a base).IsFrame address → e.watched address = false)
    (hm : Mirrors selected live a block view base reached c d)
    (hdiscreet : Discreet e selected callClobbers (houseOf selected a base) c)
    (hline : selected.code[c.line]? = some (.op op operand)) (hdata : isData op = true) :
    ∃ d', Reaches e a.code a.calls d d' ∧
      Mirrors selected live a block view base reached (c.pass e op operand) d' := by
  obtain ⟨d', hbehind⟩ := data_block hp hhidden (hm.stands hline)
    (hdiscreet.touches op operand hline hdata) hline hdata
  have hk : c.line < selected.code.length := (List.getElem?_eq_some_iff.mp hline).1
  have hnext : (Line.op op operand).next (labelIndices selected.code) c.line = .ok [c.line + 1] :=
    next_data hdata _
  obtain ⟨hsp, hpos, hle⟩ := hp.stack hk.le hm.comes
  have hcomes := comes_data hline hdata hm.comes
  refine ⟨d', hbehind.reaches, hbehind.line, hk, hbehind.housed.mono fun item hitem =>
    hp.solves.follows hline hnext (List.mem_singleton_self _) hitem, ?_,
    fun _ => hbehind.indexed, ?_, hbehind.captures.trans hm.captures, hm.captured,
    fun hne => hreached.next c.line _ _ (hm.reached hne) hline hnext _ (List.mem_singleton_self _)⟩
  · have hexec := sp_exec (l := e.linkage) hdata (fun heq => hp.sound.noTxs c.line operand (heq ▸ hline))
      (hp.sound.encoded c.line op operand hline) (fun _ => hpos) fun hpull => by
        have hnonneg := (hp.sound.depth _ _ hcomes).2.1
        have := base.toNat_lt
        change (c.store.regs.sp.toNat) < _
        unfold Config.sp at hnonneg
        omega
    have hdepth : (base.toNat : ℤ) - ((c.pass e op operand).sp.toNat : ℤ) =
        base.toNat - c.sp.toNat + pushes (.op op operand) := by
      change (base.toNat : ℤ) - ((c.store.exec e.linkage op operand).regs.sp.toNat : ℤ) = _
      rw [hexec]
      unfold Config.sp
      omega
    rw [hdepth]
    exact hcomes
  · rw [hbehind.trace, hm.trace]
    rfl

/-! ### Going to another line -/

/-- The line after one that stands in a block of its own. -/
theorem line_succ (hm : Mirrors selected live a block view base reached c d)
    (hblock : block c.line = [line]) : d.line + 1 = offset block (c.line + 1) := by
  rw [offset_succ, hblock, hm.line]
  rfl

section Moves

variable (hp : Placing selected callClobbers exit live a block view base)
  (hreached : Resumable selected.code selected.calls live reached)
  (hm : Mirrors selected live a block view base reached c d)

include hp hm

theorem getElem?_kept (hline : selected.code[c.line]? = some line) (hblock : block c.line = [line]) :
    a.code[d.line]? = some line := by
  rw [hm.line]
  exact hp.getElem? hline (j := 0) (by rw [hblock]; rfl)

include hreached

/-- **Control goes on** from a line that changes nothing. -/
theorem move (hline : selected.code[c.line]? = some line) {ns : List ℕ} {j : ℕ}
    (hns : line.next (labelIndices selected.code) c.line = .ok ns) (hj : j ∈ ns)
    (hinside : j ≤ selected.code.length) (hdefs : ∀ item, line.defs.contains item = false)
    (hpushes : pushes line = 0)
    (hindexed : (∀ name, selected.code[j]? ≠ some (.label name)) →
      ∀ depth, (view j).indexed = some depth → (d.store.regs.x.toNat : ℤ) + depth = base.toNat)
    (trace : List Event) :
    Mirrors selected live a block view base reached { c with line := j, trace }
      { d with line := offset block j, trace } := by
  refine ⟨rfl, hinside, hm.housed.mono fun item hitem => ?_, ?_, hindexed, rfl, hm.captures,
    hm.captured, fun hne => hreached.next c.line _ ns (hm.reached hne) hline hns j hj⟩
  · exact hp.solves.passes hline (hp.solves.follows hline hns hj hitem) (hdefs item)
  · have hcomes := hm.comes.next hline hns hj
    rwa [hpushes, add_zero] at hcomes

/-- Labels and comments are passed. -/
theorem pseudo_mirrored (hline : selected.code[c.line]? = some line) (hpseudo : line.isPseudo = true) :
    Option.Rel (Mirrors selected live a block view base reached)
      (step e selected.code selected.calls c) (step e a.code a.calls d) := by
  have hk : c.line < selected.code.length := (List.getElem?_eq_some_iff.mp hline).1
  obtain ⟨hblock, hview⟩ := block_kept hp hline (fun _ _ heq => by rw [heq] at hpseudo; cases hpseudo)
    fun _ _ heq => by rw [heq] at hpseudo; cases hpseudo
  have hkept := getElem?_kept hp hm hline hblock
  have hmove : ∀ (_ : line.next (labelIndices selected.code) c.line = .ok [c.line + 1])
      (_ : ∀ item, line.defs.contains item = false) (_ : pushes line = 0)
      (_ : ∀ depth, (view (c.line + 1)).indexed = some depth →
        (d.store.regs.x.toNat : ℤ) + depth = base.toNat),
      Mirrors selected live a block view base reached { c with line := c.line + 1 }
        { d with line := d.line + 1 } := by
    intro hnext hdefs hpushes hindexed
    rw [line_succ hm hblock, show d = { d with trace := c.trace } from by rw [← hm.trace]]
    exact move hp hreached hm hline hnext (List.mem_singleton_self _) hk hdefs hpushes
      (fun _ => hindexed) c.trace
  unfold step
  rw [hline, hkept]
  cases line with
  | op op operand => cases hpseudo
  | label name =>
    refine .some (hmove rfl (fun _ => rfl) rfl fun depth hdepth => ?_)
    rw [hview] at hdepth
    cases hdepth
  | comment text =>
    refine .some (hmove rfl (fun _ => rfl) rfl fun depth hdepth => ?_)
    rw [hview] at hdepth
    exact hm.indexed (fun name => by rw [hline]; simp) depth hdepth

/-- **Control goes to the same label** in both codes. -/
theorem goto_mirrored (hline : selected.code[c.line]? = some line) {target : String} {i : ℕ}
    {ns : List ℕ} (hns : line.next (labelIndices selected.code) c.line = .ok ns) (hi : i ∈ ns)
    (htarget : (labelIndices selected.code)[target]? = some i)
    (hdefs : ∀ item, line.defs.contains item = false) (hpushes : pushes line = 0)
    (trace : List Event) :
    Option.Rel (Mirrors selected live a block view base reached)
      (({ c with trace } : Config).goto selected.code target)
      (({ d with trace } : Config).goto a.code target) := by
  obtain ⟨hlabel, -⟩ := (labelIndices_getElem? selected.code).mp htarget
  unfold Config.goto
  rw [htarget, hp.laid.labelIndices htarget]
  refine .some (move hp hreached hm hline hns hi ?_ hdefs hpushes ?_ trace)
  · exact (List.getElem?_eq_some_iff.mp hlabel).1.le
  · exact fun hnone => absurd hlabel (hnone target)

end Moves

/-! ### Branches and jumps -/

/-- What an instruction does that control does not pass through. -/
theorem step_control {code : List Line} {calls : Std.TreeMap ℕ CallTarget}
    (hline : code[c.line]? = some (.op op operand)) (hencode : (op.encode operand.mode).isSome)
    (hdata : isData op = false) :
    step e code calls c =
      if op.isBranch then c.branch code op operand
      else if op = .jsr then
        c.call e operand calls[c.line]? ((Line.op op operand).mayResume calls[c.line]?)
      else if op = .jmp then c.jump e code operand
      else none := by
  unfold step
  rw [hline]
  simp [hdata, Option.isNone_eq_false_iff.mpr hencode]

/-- Branches are taken in both codes or in none. -/
theorem isTaken_eq {held : Item → Prop} {r s : Registers} (h : Agree held r s)
    (hnz : (op.effects operand).readsNZ = true → held .nz) : isTaken op r = isTaken op s := by
  cases op
  case bcs => exact h.carry
  case bcc => exact congrArg not h.carry
  case bvs => exact h.overflow
  case bvc => exact congrArg not h.overflow
  case beq => exact h.zero (hnz rfl)
  case bne => exact congrArg not (h.zero (hnz rfl))
  case bmi => exact h.negative (hnz rfl)
  case bpl => exact congrArg not (h.negative (hnz rfl))
  all_goals rfl

theorem next_branch (hbranch : op.isBranch = true) {labels : Std.TreeMap String ℕ} {k : ℕ}
    {target : String} {ns : List ℕ}
    (h : (Line.op op (.relative target)).next labels k = .ok ns) :
    ∃ i, labels[target]? = some i ∧ ns = [i, k + 1] := by
  unfold Line.next labelIndex at h
  dsimp only at h
  rw [if_pos hbranch] at h
  cases hi : labels[target]? with
  | none =>
    rw [hi] at h
    cases h
  | some i =>
    rw [hi] at h
    cases h
    exact ⟨i, rfl, rfl⟩

theorem next_jump {labels : Std.TreeMap String ℕ} {k : ℕ} {target : String} {ns : List ℕ}
    (h : (Line.op .jmp (.absolute (.label target))).next labels k = .ok ns) :
    ∃ i, labels[target]? = some i ∧ ns = [i] := by
  unfold Line.next labelIndex at h
  dsimp only at h
  cases hi : labels[target]? with
  | none =>
    rw [hi] at h
    cases h
  | some i =>
    rw [hi] at h
    cases h
    exact ⟨i, rfl, rfl⟩

theorem operand_of_branch (hbranch : op.isBranch = true) (hencode : (op.encode operand.mode).isSome) :
    ∃ target, operand = .relative target := by
  cases op <;> first
    | exact Bool.noConfusion (show false = true from hbranch)
    | (cases operand <;> first | exact ⟨_, rfl⟩ | exact Bool.noConfusion hencode)

theorem operand_of_jsr (hencode : (Opcode.jsr.encode operand.mode).isSome) :
    ∃ address, operand = .absolute address := by
  cases operand <;> first | exact ⟨_, rfl⟩ | exact Bool.noConfusion hencode

section Control

variable (hp : Placing selected callClobbers exit live a block view base)
  (hreached : Resumable selected.code selected.calls live reached)
  (hm : Mirrors selected live a block view base reached c d)

include hp hreached hm

/-- **A branch** is decided the same way. -/
theorem branch_mirrored {target : String} (hbranch : op.isBranch = true)
    (hline : selected.code[c.line]? = some (.op op (.relative target))) :
    Option.Rel (Mirrors selected live a block view base reached)
      (c.branch selected.code op (.relative target)) (d.branch a.code op (.relative target)) := by
  have hk : c.line < selected.code.length := (List.getElem?_eq_some_iff.mp hline).1
  have hop : op ≠ .jsr := by
    rintro rfl
    cases hbranch
  obtain ⟨node, ns, -, -, -, hns, -⟩ := hp.solves.node c.line _ hline
  obtain ⟨i, htarget, rfl⟩ := next_branch hbranch hns
  obtain ⟨hblock, hview⟩ := block_kept hp hline (by simp) (by simp)
  have hdefs : ∀ item, (Line.op op (.relative target)).defs.contains item = false := by
    intro item
    cases op <;> first | rfl | exact Bool.noConfusion (show false = true from hbranch)
  have hpushes : pushes (.op op (.relative target)) = 0 := by
    cases op <;> first | rfl | exact Bool.noConfusion (show false = true from hbranch)
  have hafter : (view (c.line + 1)).indexed = (view c.line).indexed := by
    rw [hview]
    cases op <;> first | rfl | exact Bool.noConfusion (show false = true from hbranch)
  have htaken : isTaken op d.store.regs = isTaken op c.store.regs := by
    refine (isTaken_eq hm.housed.regs
      fun (hreads : (op.effects (.relative target)).readsNZ = true) => ?_).symm
    refine hp.solves.uses hline ?_
    rw [uses_op hop, itemsOf_nz]
    exact hreads
  unfold Config.branch
  dsimp only
  rw [htaken, hm.trace]
  split_ifs
  · exact goto_mirrored hp hreached hm hline hns (List.mem_cons_self ..) htarget hdefs hpushes _
  · refine .some ?_
    rw [line_succ hm hblock]
    refine move hp hreached hm hline hns (by simp) hk hdefs hpushes (fun _ depth hdepth => ?_) _
    rw [hafter] at hdepth
    exact hm.indexed (fun name => by rw [hline]; simp) depth hdepth

/-- **A jump to a label.** -/
theorem jump_mirrored {target : String}
    (hline : selected.code[c.line]? = some (.op .jmp (.absolute (.label target)))) :
    Option.Rel (Mirrors selected live a block view base reached) (c.goto selected.code target)
      (d.goto a.code target) := by
  obtain ⟨node, ns, -, -, -, hns, -⟩ := hp.solves.node c.line _ hline
  obtain ⟨i, htarget, rfl⟩ := next_jump hns
  have hgoto := goto_mirrored hp hreached hm hline hns (List.mem_singleton_self _) htarget
    (fun _ => rfl) rfl c.trace
  rwa [show ({ d with trace := c.trace } : Config) = d by rw [← hm.trace]] at hgoto

end Control

/-! ### Calls -/

/-- The state after a question to the environment. -/
theorem housed_answered (hp : Placing selected callClobbers exit live a block view base)
    (hm : Mirrors selected live a block view base reached c d)
    (hdiscreet : Discreet e selected callClobbers (houseOf selected a base) c)
    (hline : selected.code[c.line]? = some (.op op operand)) (hoperand : ∀ v, operand ≠ .virtual v)
    {event : Event} (hquestion : c.question? selected.calls (.op op operand) = some event)
    {wanted : Item → Prop} (hwanted : ∀ item, wanted item → After live c.line item)
    (hregs : ∀ (v : VReg) (r : Register), wanted (.vreg v) → a.locations[v.index]? ≠ some (.reg r)) :
    Housed (houseOf selected a base) wanted (c.answered e event).store
      (d.answered e event).store.machine := by
  obtain ⟨hframe, hcells⟩ := hdiscreet.answers _ event hline hquestion
  have hanswered : Housed _ wanted _ _ := hm.housed.answer hp.fits (e.answer (c.trace ++ [event]))
    (fun v location hv hlocation => ?_) hframe
  · have hstore : (d.answered e event).store.machine =
        (e.answer (c.trace ++ [event])).apply d.store.machine := by
      rw [← hm.trace]
      rfl
    rw [hstore]
    exact hanswered
  · refine ⟨hp.value_live hline (hwanted _ hv) fun _ => hoperand v,
      fun r hr => hregs v r hv (hr ▸ hlocation), fun address haddress => ?_⟩
    cases location with
    | reg r => exact absurd hlocation (hregs v r hv)
    | zeroPage cell =>
      cases haddress
      refine (hcells v cell hlocation).resolve_right ?_
      rintro ⟨set, hset, hcontains⟩
      rw [hp.assigned.spared v cell hlocation c.line set hset (hwanted _ hv)] at hcontains
      cases hcontains
    | stack o =>
      cases haddress
      exact hframe _ ⟨o, UInt8.lt_iff_toNat_lt.mpr (hp.assigned.stack v o hlocation).2, rfl⟩

/-- No value is in a register behind a call. -/
theorem not_in_register (hp : Placing selected callClobbers exit live a block view base) {k : ℕ}
    (hline : selected.code[k]? = some (.op .jsr operand)) (hoperand : ∀ v, operand ≠ .virtual v)
    {v : VReg} (hv : After live k (.vreg v)) (r : Register) :
    a.locations[v.index]? ≠ some (.reg r) := by
  intro hlocation
  have hdefs := hp.not_written hline hv (hoperand v) hlocation
  rw [defs_jsr, itemsOf_reg] at hdefs
  cases r <;> cases hdefs

theorem next_jsr {labels : Std.TreeMap String ℕ} {k : ℕ} {address : Address} :
    (Line.op .jsr (.absolute address)).next labels k = .ok [k + 1] := by
  cases address <;> rfl

theorem mem_resumePoints {calls : Std.TreeMap ℕ CallTarget} {size k : ℕ} (hk : k < size)
    (h : calls[k]? = some (.routine .setJmp)) : k + 1 ∈ resumePoints size calls := by
  unfold resumePoints
  rw [List.mem_filterMap]
  refine ⟨(k, .routine .setJmp), Std.TreeMap.mem_toList_iff_getElem?_eq_some.mpr h, ?_⟩
  dsimp only
  rw [if_pos rfl, Nat.min_eq_left hk]

section Calls

variable (hp : Placing selected callClobbers exit live a block view base)
  (hreached : Resumable selected.code selected.calls live reached)
  (hm : Mirrors selected live a block view base reached c d)
  (hdiscreet : Discreet e selected callClobbers (houseOf selected a base) c)
  (hline : selected.code[c.line]? = some (.op op operand)) {event : Event}
  (hquestion : c.question? selected.calls (.op op operand) = some event)

include hp hreached hm hdiscreet hline hquestion

/-- **Control goes back to the same capture** in both codes. -/
theorem resume_mirrored (hoperand : ∀ v, operand ≠ .virtual v)
    (hresume : (Line.op op operand).mayResume selected.calls[c.line]? = true) (number : Option ℕ) :
    Option.Rel (Mirrors selected live a block view base reached)
      ((c.answered e event).resume number) ((d.answered e event).resume number) := by
  have hsp : (d.answered e event).sp = (c.answered e event).sp := by
    rw [sp_answered, sp_answered]
    exact hm.housed.regs.sp.symm
  have hcapture : (number.bind fun n => (d.answered e event).captures[n]?) =
      (number.bind fun n => c.captures[n]?).map fun capture => (offset block capture.1, capture.2) := by
    rw [captures_answered, hm.captures]
    cases number with
    | none => rfl
    | some n => exact List.getElem?_map ..
  unfold Config.resume
  rw [hcapture, hsp, captures_answered, captures_answered, trace_answered, trace_answered]
  cases hchosen : number.bind fun n => c.captures[n]? with
  | none => exact .none
  | some capture =>
    obtain ⟨n, -, hn⟩ := Option.bind_eq_some_iff.mp hchosen
    have hmem := List.mem_of_getElem? hn
    obtain ⟨⟨k, callOperand, hk, hjsr, hsetJmp⟩, hcomes, hbase⟩ := hm.captured capture hmem
    obtain ⟨j, sp⟩ := capture
    obtain rfl : j = k + 1 := hk
    have hlt : k < selected.code.length := (List.getElem?_eq_some_iff.mp hjsr).1
    obtain ⟨address, rfl⟩ := operand_of_jsr (hp.sound.encoded k _ _ hjsr)
    have hpoint := mem_resumePoints hlt hsetJmp
    dsimp only [Option.map_some]
    split_ifs with hle
    · refine .some ⟨rfl, hlt, ?_, hcomes, fun _ depth hdepth => ?_, ?_, hm.captures, hm.captured,
        fun _ => hreached.start _ hpoint⟩
      · refine Housed.release ?_ hle hbase
        refine housed_answered hp hm hdiscreet hline hoperand hquestion (fun item hitem => ?_)
          fun v r hv => ?_
        · exact hp.solves.resumes hreached (hm.reached (List.ne_nil_of_mem hmem)) hline hresume hpoint
            hitem
        · exact not_in_register hp hjsr (by simp)
            (hp.solves.follows hjsr next_jsr (List.mem_singleton_self _) hv) r
      · -- A call overwrites X.
        rw [(block_kept hp hjsr (by simp) (by simp)).2] at hdepth
        cases hdepth
      · exact congrArg (· ++ [event]) hm.trace
    · exact .none

end Calls

/-- The same call is seen in both codes. -/
theorem callEvent_eq (hp : Placing selected callClobbers exit live a block view base)
    (hm : Mirrors selected live a block view base reached c d)
    (hline : selected.code[c.line]? = some (.op .jsr operand)) :
    d.callEvent operand selected.calls[c.line]? = c.callEvent operand selected.calls[c.line]? := by
  unfold Config.callEvent
  refine congrArg _ (List.map_congr_left fun r hr => ?_)
  have hlive : Before live c.line (.reg r) := by
    refine hp.solves.uses hline ?_
    rw [uses_jsr, itemsOf_reg]
    exact (mem_toList _ r).mp hr
  cases r with
  | a => exact hm.housed.regs.a.symm
  | x => exact (hm.housed.regs.x hlive).symm
  | y => exact (hm.housed.regs.y hlive).symm

/-- **A call** is made in both codes, to the same place and with the same record. -/
theorem call_mirrored (hp : Placing selected callClobbers exit live a block view base)
    (hreached : Resumable selected.code selected.calls live reached)
    (hm : Mirrors selected live a block view base reached c d)
    (hdiscreet : Discreet e selected callClobbers (houseOf selected a base) c) {address : Address}
    (hline : selected.code[c.line]? = some (.op .jsr (.absolute address))) :
    Option.Rel (Mirrors selected live a block view base reached)
      (c.call e (.absolute address) selected.calls[c.line]?
        ((Line.op .jsr (.absolute address)).mayResume selected.calls[c.line]?))
      (d.call e (.absolute address) selected.calls[c.line]?
        ((Line.op .jsr (.absolute address)).mayResume selected.calls[c.line]?)) := by
  have hk : c.line < selected.code.length := (List.getElem?_eq_some_iff.mp hline).1
  obtain ⟨hblock, hview⟩ := block_kept hp hline (by simp) (by simp)
  have hanswered := housed_answered hp hm hdiscreet hline (by simp) rfl
    (fun item (h : After live c.line item) => h) fun v r hv => not_in_register hp hline (by simp) hv r
  have hsp : d.sp = c.sp := hm.housed.regs.sp.symm
  unfold Config.call
  dsimp only
  rw [callEvent_eq hp hm hline, hm.trace]
  by_cases hresume : ((Line.op .jsr (.absolute address)).mayResume selected.calls[c.line]? &&
      (e.answer (c.trace ++ [c.callEvent (.absolute address) selected.calls[c.line]?])).resume.isSome) =
        true
  · rw [if_pos hresume, if_pos hresume]
    rw [Bool.and_eq_true] at hresume
    exact resume_mirrored hp hreached hm hdiscreet hline rfl (by simp) hresume.1 _
  rw [if_neg hresume, if_neg hresume]
  have hcomes := hm.comes.next hline next_jsr (List.mem_singleton_self _)
  rw [show pushes (.op .jsr (.absolute address)) = 0 from rfl, add_zero] at hcomes
  refine .some ⟨line_succ hm hblock, hk, hanswered.mono fun item hitem =>
    hp.solves.follows hline next_jsr (List.mem_singleton_self _) hitem, ?_,
    fun _ depth hdepth => ?_, ?_, ?_, fun capture hcapture => ?_, fun hne => ?_⟩
  · change Comes _ _ (base.toNat - ((c.answered e _).sp.toNat : ℤ))
    rw [sp_answered]
    exact hcomes
  · -- A call overwrites X.
    rw [hview] at hdepth
    cases hdepth
  · dsimp only
    rw [trace_answered, trace_answered, hm.trace]
  · dsimp only
    rw [hsp, hm.captures, line_succ hm hblock]
    split_ifs
    · rw [List.map_append]
      rfl
    · rfl
  · dsimp only at hcapture
    split_ifs at hcapture with hsetJmp
    · rcases List.mem_append.mp hcapture with hcapture | hcapture
      · exact hm.captured capture hcapture
      · rw [List.mem_singleton] at hcapture
        subst hcapture
        exact ⟨⟨c.line, _, rfl, hline, hsetJmp⟩, hcomes, hm.housed.sp⟩
    · exact hm.captured capture hcapture
  · dsimp only at hne
    split_ifs at hne with hsetJmp
    · exact hreached.start _ (mem_resumePoints hk hsetJmp)
    · exact hreached.next c.line _ _ (hm.reached hne) hline next_jsr _ (List.mem_singleton_self _)

/-- **A jump to the routine that restores a captured state.** -/
theorem escape_mirrored (hp : Placing selected callClobbers exit live a block view base)
    (hreached : Resumable selected.code selected.calls live reached)
    (hm : Mirrors selected live a block view base reached c d)
    (hdiscreet : Discreet e selected callClobbers (houseOf selected a base) c) {address : Address}
    (hline : selected.code[c.line]? = some (.op .jmp (.absolute address)))
    (haddress : address.symbolName? = some Naming.longJmp) :
    Option.Rel (Mirrors selected live a block view base reached) (c.escape e) (d.escape e) := by
  unfold Config.escape
  rw [hm.trace]
  refine resume_mirrored hp hreached hm hdiscreet hline ?_ (by simp) ?_ _
  · unfold Config.question?
    exact if_pos haddress
  · exact decide_eq_true haddress

/-! ### Every line -/

/-- A control line has neither a virtual register nor a frame byte. -/
theorem operand_control (hdata : isData op = false) (hencode : (op.encode operand.mode).isSome) :
    (∀ v, operand ≠ .virtual v) ∧ ∀ o, operand ≠ .frame o := by
  constructor
  · rintro v rfl
    rw [(isCalm_of_encode (.inl rfl) hencode).1.1] at hdata
    cases hdata
  · rintro o rfl
    rw [(isCalm_of_encode (.inr rfl) hencode).1.1] at hdata
    cases hdata

/-- **What control does not pass through stands in both codes**, and so does the end. -/
theorem line_mirrored (hp : Placing selected callClobbers exit live a block view base)
    (hm : Mirrors selected live a block view base reached c d)
    (hcontrol : ∀ op operand, selected.code[c.line]? = some (.op op operand) → isData op = false) :
    a.code[d.line]? = selected.code[c.line]? := by
  cases hline : selected.code[c.line]? with
  | none =>
    have hend : c.line = selected.code.length :=
      Nat.le_antisymm hm.inside (List.getElem?_eq_none_iff.mp hline)
    rw [List.getElem?_eq_none_iff, hp.laid.length, hm.line, hend]
  | some line =>
    cases line with
    | label name =>
      exact getElem?_kept hp hm hline (block_kept hp hline (by simp) (by simp)).1
    | comment text =>
      exact getElem?_kept hp hm hline (block_kept hp hline (by simp) (by simp)).1
    | op op operand =>
      obtain ⟨hvirtual, hframe⟩ :=
        operand_control (hcontrol op operand hline) (hp.sound.encoded c.line op operand hline)
      exact getElem?_kept hp hm hline (block_kept hp hline (fun _ v heq => hvirtual v (by cases heq; rfl))
        fun _ o heq => hframe o (by cases heq; rfl)).1

/-- **A line that control does not pass through** stands in both codes: either both end at it, or
both go on. -/
theorem control_mirrored (hp : Placing selected callClobbers exit live a block view base)
    (hreached : Resumable selected.code selected.calls live reached)
    (hm : Mirrors selected live a block view base reached c d)
    (hdiscreet : Discreet e selected callClobbers (houseOf selected a base) c)
    (hcontrol : ∀ op operand, selected.code[c.line]? = some (.op op operand) → isData op = false) :
    Option.Rel (Mirrors selected live a block view base reached)
      (step e selected.code selected.calls c) (step e a.code a.calls d) := by
  have hsame := line_mirrored hp hm hcontrol
  cases hline : selected.code[c.line]? with
  | none =>
    unfold step
    rw [hsame, hline]
    exact .none
  | some line =>
    cases line with
    | label name => exact pseudo_mirrored hp hreached hm hline rfl
    | comment text => exact pseudo_mirrored hp hreached hm hline rfl
    | op op operand =>
      have hdata := hcontrol op operand hline
      have hencode := hp.sound.encoded c.line op operand hline
      obtain ⟨hvirtual, hframe⟩ := operand_control hdata hencode
      have hcalls : a.calls[d.line]? = selected.calls[c.line]? := by
        rw [hm.line]
        refine hp.laid.calls_getElem? hline ⟨_, line_eq fun _ v heq => hvirtual v (by cases heq; rfl),
          fun _ o heq => hframe o (by cases heq; rfl)⟩
      rw [step_control hline hencode hdata,
        step_control (hsame.trans hline) hencode hdata, hcalls]
      split_ifs with hbranch hjsr hjmp
      · obtain ⟨target, rfl⟩ := operand_of_branch hbranch hencode
        exact branch_mirrored hp hreached hm hbranch hline
      · subst hjsr
        obtain ⟨address, rfl⟩ := operand_of_jsr hencode
        exact call_mirrored hp hreached hm hdiscreet hline
      · subst hjmp
        unfold Config.jump
        split
        · exact jump_mirrored hp hreached hm hline
        · split_ifs with haddress
          · exact escape_mirrored hp hreached hm hdiscreet hline haddress
          · exact .none
        · exact .none
      · exact .none

end Codegen6502.Proofs.Allocating.Simulation
