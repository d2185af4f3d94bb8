import Codegen6502.Proofs.Allocating.Blocks
import Codegen6502.Proofs.Processor.LineRun

/-!
# What a step of a run does

`Goes` lists what one line can do to the point of a run: pass on to the next line, go to a label,
ask the environment and go on behind the line, or go on at a capture.  `goes_of_step` says that
there is nothing else, so that what every step keeps is shown one way of going at a time, and
`run_invariant` carries it through a run.
-/

namespace Codegen6502.Proofs.Processor.Stepping

open LineRun

variable {e : Environment} {code : List Line} {calls : Std.TreeMap ℕ CallTarget} {c c' : Config}

/-! ### Questions -/

/-- A question changes the machine and the trace only. -/
theorem captures_answered (c : Config) (event : Event) :
    (c.answered e event).captures = c.captures := by
  have key : ∀ (m : Machine) (trace : List Event),
      ({ c with store := { c.store with machine := m }, trace } : Config).captures = c.captures :=
    fun _ _ => rfl
  exact key _ _

theorem trace_answered (c : Config) (event : Event) :
    (c.answered e event).trace = c.trace ++ [event] := by
  have key : ∀ (m : Machine) (trace : List Event),
      ({ c with store := { c.store with machine := m }, trace } : Config).trace = trace :=
    fun _ _ => rfl
  exact key _ _

theorem sp_answered (c : Config) (event : Event) : (c.answered e event).sp = c.sp := by
  have key : ∀ (m : Machine) (trace : List Event),
      ({ c with store := { c.store with machine := m }, trace } : Config).sp = m.regs.sp :=
    fun _ _ => rfl
  exact key _ _

/-! ### Ways to go on -/

/-- A line goes to a label, perhaps only if a flag says so. -/
inductive GoesTo : Line → String → Prop where
  | branch {op : Opcode} {target : String} : op.isBranch = true → GoesTo (.branch op target) target
  | jump {target : String} : GoesTo (.jmp target) target

/-- Control is at a capture, with the stack pointer of then. -/
def AtCapture (c : Config) (capture : ℕ × UInt8) (c' : Config) : Prop :=
  c' = { c with
    line := capture.1
    store := c.store.setRegs { c.store.regs with sp := capture.2 } }

/-- **What one line does.** -/
inductive Goes (e : Environment) (code : List Line) (calls : Std.TreeMap ℕ CallTarget) (c : Config) :
    Config → Prop where
  | pseudo {line : Line} : code[c.line]? = some line → line.isPseudo = true →
    Goes e code calls c { c with line := c.line + 1 }
  | data {op : Opcode} {operand : Operand} : code[c.line]? = some (.op op operand) →
    (op.encode operand.mode).isSome → isData op = true → Goes e code calls c (c.pass e op operand)
  /-- A branch that is not taken. -/
  | stay {op : Opcode} {target : String} : code[c.line]? = some (.branch op target) →
    op.isBranch = true →
    Goes e code calls c { c with line := c.line + 1, trace := c.trace ++ [Event.branch target false] }
  | goto {line : Line} {target : String} {i : ℕ} {trace : List Event} :
    code[c.line]? = some line → GoesTo line target → code[i]? = some (.label target) →
    Goes e code calls c { c with line := i, trace }
  | behind {operand : Operand} {after : Config} : code[c.line]? = some (.op .jsr operand) →
    after = c.answered e (c.callEvent operand calls[c.line]?) →
    Goes e code calls c { after with
      line := c.line + 1
      captures :=
        if calls[c.line]? = some (.routine .setJmp) then c.captures ++ [(c.line + 1, c.sp)]
        else c.captures }
  | back {event : Event} {after : Config} {capture : ℕ × UInt8} {c' : Config} :
    after = c.answered e event → capture ∈ c.captures → AtCapture after capture c' →
    Goes e code calls c c'

/-- Going on at a capture. -/
theorem exists_capture {number : Option ℕ} (h : c.resume number = some c') :
    ∃ capture ∈ c.captures, AtCapture c capture c' := by
  unfold Config.resume at h
  split at h
  · rename_i line sp hcapture
    split at h
    · cases h
      obtain ⟨n, -, hn⟩ := Option.bind_eq_some_iff.mp hcapture
      exact ⟨(line, sp), List.mem_of_getElem? hn, rfl⟩
    · cases h
  · cases h

theorem goes_back {event : Event} {number : Option ℕ}
    (h : (c.answered e event).resume number = some c') : Goes e code calls c c' := by
  obtain ⟨capture, hcapture, hat⟩ := exists_capture h
  rw [captures_answered] at hcapture
  exact .back rfl hcapture hat

theorem goes_of_goto {line : Line} {target : String} (trace : List Event)
    (hline : code[c.line]? = some line) (hgoes : GoesTo line target)
    (h : ({ c with trace } : Config).goto code target = some c') : Goes e code calls c c' := by
  obtain ⟨i, hi, rfl⟩ := Option.map_eq_some_iff.mp h
  exact .goto hline hgoes ((Allocating.Blocks.labelIndices_getElem? code).mp hi).1

theorem goes_of_branch {op : Opcode} {operand : Operand} (hline : code[c.line]? = some (.op op operand))
    (hop : op.isBranch = true) (h : c.branch code op operand = some c') : Goes e code calls c c' := by
  cases operand with
  | relative target =>
    simp only [Config.branch] at h
    split at h
    · exact goes_of_goto _ hline (.branch hop) h
    · rename_i htaken
      rw [Bool.not_eq_true] at htaken
      rw [htaken] at h
      cases h
      exact .stay hline hop
  | _ => cases h

theorem goes_of_call {operand : Operand} {mayResume : Bool}
    (hline : code[c.line]? = some (.op .jsr operand))
    (h : c.call e operand calls[c.line]? mayResume = some c') : Goes e code calls c c' := by
  unfold Config.call at h
  dsimp only at h
  split at h
  · exact goes_back h
  · generalize hafter : c.answered e (c.callEvent operand calls[c.line]?) = after at h
    cases h
    exact .behind hline hafter.symm

theorem goes_of_jump {operand : Operand} (hline : code[c.line]? = some (.op .jmp operand))
    (h : c.jump e code operand = some c') : Goes e code calls c c' := by
  unfold Config.jump at h
  split at h
  · exact goes_of_goto c.trace hline .jump h
  · split at h
    · exact goes_back h
    · cases h
  · cases h

/-- **Every step is one of these.** -/
theorem goes_of_step (h : step e code calls c = some c') : Goes e code calls c c' := by
  unfold step at h
  split at h
  · rename_i op operand hline
    split at h
    · cases h
    rename_i hencode
    split at h
    · rename_i hdata
      cases h
      exact .data hline (by simpa [Option.isSome_iff_ne_none] using hencode) hdata
    · split at h
      · rename_i hop
        exact goes_of_branch hline hop h
      · split at h
        · rename_i hop
          subst hop
          exact goes_of_call hline h
        · split at h
          · rename_i hop
            subst hop
            exact goes_of_jump hline h
          · cases h
  · rename_i line hop hline
    cases h
    refine .pseudo hline ?_
    cases line with
    | op op operand => exact absurd rfl (hop op operand)
    | _ => rfl
  · cases h

/-! ### Runs -/

/-- The last step of a run. -/
theorem run_succ (n : ℕ) (c : Config) :
    run e code calls (n + 1) c = (run e code calls n c).bind (step e code calls) := by
  induction n generalizing c with
  | zero =>
    change (step e code calls c).bind some = step e code calls c
    cases step e code calls c <;> rfl
  | succ n ih =>
    rw [run]
    cases hstep : step e code calls c with
    | none => simp [run, hstep]
    | some d =>
      rw [Option.bind_some, ih, run, hstep]
      rfl

/-- **What every step of a run keeps**, the run keeps. -/
theorem run_invariant {I : Config → Prop} {n : ℕ} {c d : Config} (hstart : I c)
    (hstep : ∀ m < n, ∀ c₁ c₂, run e code calls m c = some c₁ → step e code calls c₁ = some c₂ →
      I c₁ → I c₂) (hrun : run e code calls n c = some d) : I d := by
  induction n generalizing d with
  | zero =>
    cases hrun
    exact hstart
  | succ n ih =>
    rw [run_succ] at hrun
    obtain ⟨c₁, hc₁, hlast⟩ := Option.bind_eq_some_iff.mp hrun
    exact hstep n (Nat.lt_succ_self n) c₁ d hc₁ hlast
      (ih (fun m hm => hstep m (Nat.lt_succ_of_lt hm)) hc₁)

end Codegen6502.Proofs.Processor.Stepping
