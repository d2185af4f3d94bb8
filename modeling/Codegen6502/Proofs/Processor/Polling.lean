import Codegen6502.Proofs.Processor.Stack

/-!
# The machine's loop

Before each instruction the machine takes an interrupt that is due, unless interrupts are masked
(`beat`).  While they are masked the loop just runs one instruction after the other.

* `poll_taken`: what it is to take an interrupt;
* `beats_lines`: lines in a row that are begun with interrupts masked, all of them, are run without
  an interruption;
* `kept_step`, `ordinary_step`: an instruction moves neither the window nor the bank register, and
  leaves the two bits of the status register alone that no flag stands for.
-/

namespace Codegen6502.Proofs.Processor.Polling

open Memory LineRun Fetching Stack

variable {k : Linkage} {area written : UInt16 → Prop} {m m' : Machine} {n : ℕ} {op : Opcode}
  {operand : Operand} {rest : List Line}

/-! ### The loop -/

/-- One turn of the loop: an interrupt that is due is taken, and then an instruction is run. -/
def beat (m : Machine) : Option Machine := next m.pollInterrupt

/-- The machine after a number of turns, if no instruction is a fault. -/
def beats : ℕ → Machine → Option Machine
  | 0, m => some m
  | n + 1, m => (beat m).bind (beats n)

theorem beats_one (h : beat m = some m') : beats 1 m = some m' := by
  rw [beats, h]
  rfl

theorem beats_add {n' : ℕ} (h : beats n m = some m') : beats (n + n') m = beats n' m' := by
  induction n generalizing m with
  | zero =>
    cases h
    rw [Nat.zero_add]
  | succ n ih =>
    obtain ⟨m₁, hbeat, hrest⟩ := Option.bind_eq_some_iff.mp h
    rw [Nat.succ_add, beats, hbeat, Option.bind_some]
    exact ih hrest

/-- Interrupts that are masked wait. -/
theorem poll_masked (h : m.regs.flag .i = true) : m.pollInterrupt = m := by
  unfold Machine.pollInterrupt
  split
  · rfl
  · rw [h, Bool.or_true, if_pos rfl]

theorem beat_step (hquiet : m.pollInterrupt = m) (h : m.step = (none, m')) : beat m = some m' := by
  unfold beat
  rw [hquiet, next_eq h]

/-- What is on the stack for the return from an interrupt, the status on top. -/
def resumption (r : Registers) : List UInt8 := Registers.pulledStatus r.p :: wordBytes r.pc

/-- **An interrupt is taken**: the program counter and the status go on the stack, interrupts are
masked, and control goes to the handler. -/
theorem poll_taken {request : Interrupt} {waiting : List Interrupt} (hsound : Sound m.bus)
    (hpending : m.pending = request :: waiting) (hdue : request.atStep ≤ m.steps)
    (hclear : m.regs.flag .i = false) (hroom : 3 ≤ m.regs.sp.toNat) :
    m.pollInterrupt.regs =
        { m.regs.setFlag .i true with sp := m.regs.sp - 1 - 1 - 1, pc := request.handler } ∧
      stack m.pollInterrupt = resumption m.regs ++ stack m ∧
      m.pollInterrupt.pending = waiting := by
  have hpoll : m.pollInterrupt = { (m.pushWord m.regs.pc).push (Registers.pulledStatus m.regs.p) with
      pending := waiting
      regs := { m.regs.setFlag .i true with sp := m.regs.sp - 1 - 1 - 1, pc := request.handler }
      interruptsTaken := m.interruptsTaken + 1 } := by
    unfold Machine.pollInterrupt
    rw [hpending]
    simp only [gt_iff_lt, Nat.not_lt.mpr hdue, hclear, decide_false, Bool.or_false, Bool.false_eq_true,
      if_false]
    rfl
  have hword : (m.pushWord m.regs.pc).regs.sp = m.regs.sp - 1 - 1 := rfl
  have hsp : (m.pushWord m.regs.pc).regs.sp.toNat = m.regs.sp.toNat - 2 := by
    have hone : (m.regs.sp - 1).toNat = m.regs.sp.toNat - 1 := toNat_pred (by omega)
    rw [hword, toNat_pred (by omega), hone]
    omega
  rw [hpoll]
  refine ⟨rfl, ?_, rfl⟩
  have hpush := stack_push (m := m.pushWord m.regs.pc) ((hsound.write ..).write ..) (by omega)
    (Registers.pulledStatus m.regs.p)
  rw [stack_pushWord hsound (by omega)] at hpush
  exact hpush

/-- Code outside of the stack does not notice. -/
theorem read_poll (hsound : Sound m.bus) {a : UInt16} (ha : ∀ sp, Machine.stackAddress sp ≠ a) :
    m.pollInterrupt.bus.read a = m.bus.read a := by
  have hpush : ∀ (q : Machine) (value : UInt8), Sound q.bus →
      (q.push value).bus.read a = q.bus.read a := fun q value hq =>
    (read_write (hq.plain_stack _) _ _).trans (if_neg (ha _))
  have hone : Sound (m.push (highByte m.regs.pc)).bus := hsound.write ..
  have htwo : Sound (m.pushWord m.regs.pc).bus := hone.write ..
  unfold Machine.pollInterrupt
  split
  · rfl
  · split
    · rfl
    · exact (hpush _ _ htwo).trans ((hpush _ _ hone).trans (hpush _ _ hsound))

/-! ### Lines in a row -/

/-- Interrupts are masked before each line. -/
def Masked (k : Linkage) : List Line → Machine → Prop
  | [], _ => True
  | line :: rest, m => m.regs.flag .i = true ∧ Masked k rest (act k m line)

theorem masked_append {front back : List Line} : ∀ {m : Machine}, Masked k front m →
    Masked k back (acts k front m) → Masked k (front ++ back) m := by
  induction front with
  | nil => exact fun _ h => h
  | cons line front ih => exact fun h hback => ⟨h.1, ih h.2 hback⟩

theorem masked_moved {lines : List Line} : ∀ {m : Machine}, (∀ line ∈ lines, isPassed line = true) →
    ∀ (pc : UInt16) (n : ℕ), (Masked k lines (moved m pc n) ↔ Masked k lines m) := by
  induction lines with
  | nil => exact fun _ _ _ => Iff.rfl
  | cons line rest ih =>
    intro m hpassed pc n
    rw [Masked, Masked, act_moved (hpassed line (List.mem_cons_self ..)),
      ih fun l hl => hpassed l (List.mem_cons_of_mem _ hl)]
    rfl

theorem ran_cons {line : Line} {lines : List Line} (hpassed : ∀ l ∈ lines, isPassed l = true)
    (m : Machine) : ran k lines (ran k [line] m) = ran k (line :: lines) m := by
  have hsize : m.regs.pc + extent [line] + extent lines = m.regs.pc + extent (line :: lines) := by
    have hone : extent [line] = line.size := UInt16.add_zero _
    have hmore : extent (line :: lines) = line.size + extent lines := rfl
    rw [hone, hmore, UInt16.add_assoc]
  have hsteps : m.steps + [line].length + lines.length = m.steps + (line :: lines).length := by
    simp only [List.length_cons, List.length_nil]
    omega
  unfold ran
  rw [acts_moved hpassed, regs_moved, steps_moved, moved_moved, hsize, hsteps]
  rfl

/-- **One line** that no interrupt is taken before. -/
theorem beat_line {line : Line} (hquiet : m.pollInterrupt = m)
    (hlies : Lies k area m.bus.read m.regs.pc (line :: rest)) (hpassed : isPassed line = true)
    (hspares : Spares k area [line] m) :
    beats 1 m = some (ran k [line] m) ∧
      Lies k area (ran k [line] m).bus.read (ran k [line] m).regs.pc rest := by
  have hzero : ∀ o : Option Machine, o.bind (after 0) = o := by
    intro o
    cases o with
    | none => rfl
    | some q => exact after_zero
  have hline : Lies k area m.bus.read m.regs.pc ([line] ++ rest) := hlies
  obtain ⟨hone, hrest⟩ := after_lines hline (by simpa using hpassed) hspares
  rw [List.length_singleton, after, hzero] at hone
  refine ⟨beats_one ?_, hrest⟩
  unfold beat
  rw [hquiet, hone]

/-- **Lines that are begun with interrupts masked** are run without an interruption. -/
theorem beats_lines {lines : List Line} : ∀ {m : Machine},
    Lies k area m.bus.read m.regs.pc (lines ++ rest) → (∀ line ∈ lines, isPassed line = true) →
    Spares k area lines m → Masked k lines m →
    beats lines.length m = some (ran k lines m) ∧
      Lies k area (ran k lines m).bus.read (ran k lines m).regs.pc rest := by
  induction lines with
  | nil =>
    intro m hlies hpassed hspares _
    have hnone := after_lines hlies hpassed hspares
    rw [List.length_nil, after_zero] at hnone
    exact hnone
  | cons line lines ih =>
    intro m hlies hpassed hspares hmasked
    have hothers : ∀ l ∈ lines, isPassed l = true := fun l hl =>
      hpassed l (List.mem_cons_of_mem _ hl)
    obtain ⟨hone, hlies'⟩ := beat_line (poll_masked hmasked.1) hlies
      (hpassed line (List.mem_cons_self ..)) ⟨hspares.1, trivial⟩
    obtain ⟨hbeats, hrest⟩ := ih hlies' hothers
      ((spares_moved hothers _ _).mpr hspares.2) ((masked_moved hothers _ _).mpr hmasked.2)
    rw [ran_cons hothers] at hbeats hrest
    rw [List.length_cons, Nat.add_comm, beats_add hone]
    exact ⟨hbeats, hrest⟩

theorem pending_execute (hop : isData op = true) (m : Machine) (t : EffectiveOperand) :
    (m.execute op t).pending = m.pending := by
  cases op <;> simp only [Machine.execute, Machine.mapRegs]
  case sta | stx | sty | inc | dec | asl | lsr | rol | ror => cases t <;> rfl
  all_goals first | (cases hop; done) | rfl

/-- Instructions request no interrupts. -/
theorem pending_acts {lines : List Line} : ∀ {m : Machine},
    (∀ line ∈ lines, isPassed line = true) → (acts k lines m).pending = m.pending := by
  induction lines with
  | nil => exact fun _ => rfl
  | cons line rest ih =>
    intro m hpassed
    have hline := hpassed line (List.mem_cons_self ..)
    rw [acts_cons, ih fun l hl => hpassed l (List.mem_cons_of_mem _ hl)]
    cases line with
    | op op operand => exact pending_execute hline m _
    | _ => cases hline

/-! ### The interrupt mask -/

/-- Whether control passes through a line that does not clear the interrupt mask. -/
def isSteady : Line → Bool
  | .op op _ => isData op && op != .cli && op != .plp
  | _ => false

theorem isPassed_of_isSteady {line : Line} (h : isSteady line = true) : isPassed line = true := by
  cases line with
  | op op operand =>
    simp only [isSteady, Bool.and_eq_true] at h
    exact h.1.1
  | _ => cases h

theorem mask_act {line : Line} (hline : isSteady line = true) (h : m.regs.flag .i = true) :
    (act k m line).regs.flag .i = true := by
  cases line with
  | op op operand =>
    simp only [isSteady, Bool.and_eq_true, bne_iff_ne] at hline
    by_cases hsei : op = .sei
    · subst hsei
      exact flag_setFlag ..
    · exact (mask_execute hline.1.1 hline.1.2 hsei hline.2 m _).trans h
  | _ => cases hline

/-- Lines none of which clears the mask. -/
theorem masked_of_steady {lines : List Line} : ∀ {m : Machine},
    (∀ line ∈ lines, isSteady line = true) → m.regs.flag .i = true →
    Masked k lines m ∧ (acts k lines m).regs.flag .i = true := by
  induction lines with
  | nil => exact fun _ h => ⟨trivial, h⟩
  | cons line rest ih =>
    intro m hsteady h
    obtain ⟨hrest, hlast⟩ := ih (fun l hl => hsteady l (List.mem_cons_of_mem _ hl))
      (mask_act (k := k) (hsteady line (List.mem_cons_self ..)) h)
    exact ⟨⟨h, hrest⟩, hlast⟩

/-! ### What is written -/

/-- Whether control passes through a line that writes to certain addresses only, or to the stack. -/
def WritesTo (k : Linkage) (written : UInt16 → Prop) : Line → Prop
  | .op op operand => isData op = true ∧ (op.writesMemory = true → ∀ (m : Machine) (a : UInt16),
      k.effective m operand = .address a → written a)
  | _ => False

theorem kept_act (hstack : ∀ sp, written (Machine.stackAddress sp)) {line : Line}
    (h : WritesTo k written line) :
    (act k m line).bus = m.bus ∨ ∃ a value, written a ∧ (act k m line).bus = m.bus.write a value := by
  cases line with
  | op op operand =>
    change (m.execute op (k.effective m operand)).bus = _ ∨ _
    rcases bus_execute h.1 m (k.effective m operand) with
      hbus | ⟨value, hbus⟩ | ⟨a, value, ha, hw, hbus⟩
    · exact Or.inl hbus
    · exact Or.inr ⟨_, value, hstack _, hbus⟩
    · exact Or.inr ⟨a, value, h.2 hw m a ha, hbus⟩
  | _ => cases h

/-- **Lines keep everything that they do not write**, and code that they do not write over. -/
theorem kept_acts (hstack : ∀ sp, written (Machine.stackAddress sp))
    (hapart : ∀ a, area a → ¬ written a) {lines : List Line} : ∀ {m : Machine},
    (∀ a, written a → Plain m.bus a) → (∀ line ∈ lines, WritesTo k written line) →
    Kept written m.bus (acts k lines m).bus ∧ Spares k area lines m := by
  induction lines with
  | nil => exact fun _ _ => ⟨.refl _, trivial⟩
  | cons line rest ih =>
    intro m hplain hwrites
    have hrest : ∀ l ∈ rest, WritesTo k written l := fun l hl =>
      hwrites l (List.mem_cons_of_mem _ hl)
    rcases kept_act (m := m) hstack (hwrites line (List.mem_cons_self ..)) with
      hbus | ⟨a, value, ha, hbus⟩
    · obtain ⟨hkept, hspares⟩ := ih (m := act k m line) (by rwa [hbus]) hrest
      rw [hbus] at hkept
      exact ⟨hkept, fun e _ => by rw [hbus], hspares⟩
    · have hone : Kept written m.bus (act k m line).bus := by
        rw [hbus]
        exact kept_write _ ha value
      obtain ⟨hkept, hspares⟩ := ih (m := act k m line)
        (fun e he => (hone.plain e).mpr (hplain e he)) hrest
      refine ⟨hone.trans hkept, fun e he => ?_, hspares⟩
      have hne : a ≠ e := fun heq => hapart e he (heq ▸ ha)
      rw [hbus, read_write (hplain a ha), if_neg hne]

/-! ### Any instruction -/

theorem bus_operand (m : Machine) (mode : Mode) : (m.operand mode).2.bus = m.bus := by
  cases mode <;> rfl

theorem kept_execute (m : Machine) (op : Opcode) (t : EffectiveOperand) :
    Kept anywhere m.bus (m.execute op t).bus := by
  have hpush : ∀ (q : Machine) (value : UInt8), Kept anywhere q.bus (q.push value).bus :=
    fun q value => kept_write q.bus trivial value
  by_cases hop : isData op = true
  · rcases bus_execute hop m t with h | ⟨value, h⟩ | ⟨a, value, -, -, h⟩
    · rw [h]
      exact .refl _
    · rw [h]
      exact kept_write _ trivial _
    · rw [h]
      exact kept_write _ trivial _
  · cases op
    case jsr => exact (hpush _ _).trans (hpush _ _)
    case brk => exact ((hpush _ _).trans (hpush _ _)).trans (hpush _ _)
    case bcc | bcs | beq | bne | bmi | bpl | bvc | bvs =>
      change Kept anywhere m.bus (m.branchIf _ t).bus
      unfold Machine.branchIf
      split
      · exact .refl _
      · exact .refl _
    all_goals first
      | exact absurd rfl hop
      | exact .refl _

/-- The machine that an instruction is executed on. -/
def ready (m : Machine) (mode : Mode) : Machine :=
  { (m.fetch.2.operand mode).2 with steps := (m.fetch.2.operand mode).2.steps + 1 }

theorem exists_execute (h : m.step = (none, m')) :
    ∃ op mode, m' = (ready m mode).execute op (m.fetch.2.operand mode).1 := by
  unfold Machine.step at h
  simp only at h
  split at h
  · exact absurd (congrArg Prod.fst h) nofun
  · rename_i op mode hdecode
    exact ⟨op, mode, (congrArg Prod.snd h).symm⟩

theorem step_of_next (h : next m = some m') : m.step = (none, m') := by
  unfold next at h
  split at h
  · rename_i hnone
    exact Prod.ext (Option.isNone_iff_eq_none.mp hnone) (Option.some.inj h)
  · cases h

/-- **No instruction** moves the window or the bank register. -/
theorem kept_step (h : m.step = (none, m')) : Kept anywhere m.bus m'.bus := by
  obtain ⟨op, mode, rfl⟩ := exists_execute h
  have hready : (ready m mode).bus = m.bus := bus_operand m.fetch.2 mode
  rw [← hready]
  exact kept_execute (ready m mode) op _

theorem kept_after (h : after n m = some m') : Kept anywhere m.bus m'.bus := by
  induction n generalizing m with
  | zero =>
    rw [after_zero] at h
    cases h
    exact .refl _
  | succ n ih =>
    rw [after] at h
    obtain ⟨m₁, hnext, hrest⟩ := Option.bind_eq_some_iff.mp h
    exact (kept_step (step_of_next hnext)).trans (ih hrest)

/-- An interrupt that is taken writes to the stack. -/
theorem kept_poll (hstack : ∀ sp, written (Machine.stackAddress sp)) (m : Machine) :
    Kept written m.bus m.pollInterrupt.bus := by
  have hpush : ∀ (q : Machine) (value : UInt8), Kept written q.bus (q.push value).bus :=
    fun q value => kept_write q.bus (hstack q.regs.sp) value
  unfold Machine.pollInterrupt
  split
  · exact .refl _
  · split
    · exact .refl _
    · exact ((hpush _ _).trans (hpush _ _)).trans (hpush _ _)

theorem kept_beats (h : beats n m = some m') : Kept anywhere m.bus m'.bus := by
  induction n generalizing m with
  | zero =>
    cases h
    exact .refl _
  | succ n ih =>
    obtain ⟨m₁, hnext, hrest⟩ := Option.bind_eq_some_iff.mp h
    exact (kept_poll (fun _ => trivial) m).trans ((kept_step (step_of_next hnext)).trans (ih hrest))

/-! ### The bits that are no flags -/

/-- The status register has the unused bit set and the break bit clear. -/
def Ordinary (r : Registers) : Prop := r.flag .unused = true ∧ r.flag .brk = false

/-- Only the status register counts. -/
theorem Ordinary.of_status {r s : Registers} (h : Ordinary r) (hp : s.p = r.p) : Ordinary s := by
  unfold Ordinary Registers.flag
  rw [hp]
  exact h

theorem Ordinary.setFlag {r : Registers} (h : Ordinary r) {f : Flag} (hf : IsReal f) (on : Bool) :
    Ordinary (r.setFlag f on) := by
  unfold Ordinary
  rw [flag_setFlag, flag_setFlag, if_neg hf.2, if_neg hf.1]
  exact h

theorem Ordinary.setNZ {r : Registers} (h : Ordinary r) (value : UInt8) : Ordinary (r.setNZ value) :=
  (h.setFlag (by decide) _).setFlag (by decide) _

theorem ordinary_pulled (r : Registers) (byte : UInt8) :
    Ordinary { r with p := Registers.pulledStatus byte } := by
  unfold Ordinary
  rw [flag_eq, flag_eq]
  unfold Registers.pulledStatus
  simp [mask_toBitVec, bit]

theorem Ordinary.add {r : Registers} (h : Ordinary r) (value : UInt8) : Ordinary (r.add value) :=
  ((h.setFlag (by decide) _).setFlag (by decide) _).setNZ _

theorem Ordinary.compare {r : Registers} (h : Ordinary r) (register value : UInt8) :
    Ordinary (r.compare register value) := (h.setFlag (by decide) _).setNZ _

theorem ordinary_writeOperand {t : EffectiveOperand} {value : UInt8} :
    Ordinary (m.writeOperand t value).regs ↔ Ordinary m.regs := by
  cases t <;> exact Iff.rfl

theorem ordinary_execute (h : Ordinary m.regs) (op : Opcode) (t : EffectiveOperand) :
    Ordinary (m.execute op t).regs := by
  cases op <;> simp only [Machine.execute, Machine.mapRegs, ordinary_writeOperand]
  case adc | sbc => exact h.add _
  case cmp | cpx | cpy => exact h.compare _ _
  case bit => exact ((h.setFlag (by decide) _).setFlag (by decide) _).setFlag (by decide) _
  case asl | lsr | rol | ror => exact (h.setFlag (by decide) _).setNZ _
  case and | ora | eor | lda | ldx | ldy | inx | iny | dex | dey | tax | tay | txa | tya | tsx | pla |
      inc | dec =>
    exact h.setNZ _
  case plp | rti => exact (ordinary_pulled m.regs _).of_status rfl
  case brk => exact (h.setFlag (f := .i) (by decide) true).of_status rfl
  case clc | sec | cli | sei | cld | sed | clv => exact h.setFlag (by decide) _
  case bcc | bcs | beq | bne | bmi | bpl | bvc | bvs =>
    unfold Machine.branchIf
    split
    · exact h
    · exact h
  all_goals exact h

theorem regs_operand (m : Machine) (mode : Mode) :
    (m.operand mode).2.regs.p = m.regs.p := by
  cases mode <;> rfl

/-- **No instruction** touches the bits that are no flags. -/
theorem ordinary_step (h : Ordinary m.regs) (hstep : m.step = (none, m')) : Ordinary m'.regs := by
  obtain ⟨op, mode, rfl⟩ := exists_execute hstep
  have hp : (ready m mode).regs.p = m.regs.p := regs_operand m.fetch.2 mode
  exact ordinary_execute (h.of_status hp) op _

theorem ordinary_after (h : Ordinary m.regs) (hafter : after n m = some m') : Ordinary m'.regs := by
  induction n generalizing m with
  | zero =>
    rw [after_zero] at hafter
    cases hafter
    exact h
  | succ n ih =>
    rw [after] at hafter
    obtain ⟨m₁, hnext, hrest⟩ := Option.bind_eq_some_iff.mp hafter
    exact ih (ordinary_step h (step_of_next hnext)) hrest

theorem ordinary_poll (h : Ordinary m.regs) : Ordinary m.pollInterrupt.regs := by
  unfold Machine.pollInterrupt
  split
  · exact h
  · split
    · exact h
    · exact (h.setFlag (f := .i) (by decide) true).of_status rfl

theorem ordinary_beats (h : Ordinary m.regs) (hbeats : beats n m = some m') : Ordinary m'.regs := by
  induction n generalizing m with
  | zero =>
    cases hbeats
    exact h
  | succ n ih =>
    obtain ⟨m₁, hnext, hrest⟩ := Option.bind_eq_some_iff.mp hbeats
    exact ih (ordinary_step (ordinary_poll h) (step_of_next hnext)) hrest

/-- The status that was pushed when an interrupt was taken is the one that is pulled again. -/
theorem pulledStatus_ordinary {r : Registers} (h : Ordinary r) :
    Registers.pulledStatus (Registers.pulledStatus r.p) = r.p := by
  obtain ⟨hunused, hbrk⟩ := h
  rw [flag_eq] at hunused hbrk
  refine UInt8.toBitVec_inj.mp (BitVec.eq_of_getLsbD_eq fun i hi => ?_)
  unfold Registers.pulledStatus
  simp only [UInt8.toBitVec_or, UInt8.toBitVec_and, UInt8.toBitVec_not, mask_toBitVec,
    BitVec.getLsbD_or, BitVec.getLsbD_and, BitVec.getLsbD_not, BitVec.getLsbD_twoPow, hi,
    decide_true, Bool.true_and]
  simp only [bit] at hunused hbrk ⊢
  by_cases hfive : i = 5
  · subst hfive
    simp [hunused]
  · by_cases hfour : i = 4
    · subst hfour
      simpa using hbrk
    · simp [Ne.symm hfive, Ne.symm hfour]

end Codegen6502.Proofs.Processor.Polling
