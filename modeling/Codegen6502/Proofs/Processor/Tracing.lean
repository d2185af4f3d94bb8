import Codegen6502.Proofs.Processor.Stack

/-!
# Following a routine

A routine is followed instruction by instruction through what it can see of the machine (`View`):
the registers, the interrupt mask and memory, but neither the other flags nor where the code stands.

`At k area m₀ lines v` says that the machine gets from `m₀` to where `lines` are what comes next,
and that it looks like `v` there.  There is one rule for each kind of instruction (`At.lda`,
`At.sta`, …), all of them from `At.pass`; a rule for a store asks that the code itself is not
overwritten.
-/

namespace Codegen6502.Proofs.Processor.Tracing

open Memory LineRun Fetching Stack

/-- What a routine can see of a machine. -/
structure View where
  a : UInt8
  x : UInt8
  y : UInt8
  sp : UInt8
  /-- Whether interrupts are masked. -/
  mask : Bool
  bus : Bus

def view (m : Machine) : View :=
  ⟨m.regs.a, m.regs.x, m.regs.y, m.regs.sp, m.regs.flag .i, m.bus⟩

/-- The machine gets to where lines are next, and looks like a view there. -/
def At (k : Linkage) (area : UInt16 → Prop) (m₀ : Machine) (lines : List Line) (v : View) : Prop :=
  ∃ n m, after n m₀ = some m ∧ Lies k area m.bus.read m.regs.pc lines ∧ view m = v

variable {k : Linkage} {area : UInt16 → Prop} {m₀ : Machine} {rest : List Line} {v v' : View}
  {op : Opcode} {operand : Operand} {a x y sp : UInt8} {i : Bool} {b : Bus}

theorem at_start {lines : List Line} (h : Lies k area m₀.bus.read m₀.regs.pc lines) :
    At k area m₀ lines (view m₀) := ⟨0, m₀, after_zero, h, rfl⟩

/-- **One instruction** that control passes through. -/
theorem At.pass (h : At k area m₀ (.op op operand :: rest) v) (hop : isData op = true)
    (hexecute : ∀ m, view m = v → view (m.execute op (k.effective m operand)) = v')
    (hspares : ∀ a, area a → v'.bus.read a = v.bus.read a) : At k area m₀ rest v' := by
  obtain ⟨n, m, hafter, hlies, rfl⟩ := h
  have hview := hexecute m rfl
  have hline : Lies k area m.bus.read m.regs.pc ([Line.op op operand] ++ rest) := hlies
  obtain ⟨hnext, hrest⟩ := after_lines hline (by simpa [isPassed] using hop)
    ⟨fun a ha => by
      rw [← hview] at hspares
      exact hspares a ha, trivial⟩
  exact ⟨n + 1, _, (after_add hafter).trans hnext, hrest, hview⟩

/-- A label is passed. -/
theorem At.label {name : String} (h : At k area m₀ (.label name :: rest) v) : At k area m₀ rest v := by
  obtain ⟨n, m, hafter, hlies, hview⟩ := h
  exact ⟨n, m, hafter, hlies.2, hview⟩

/-! ### Registers -/

/-- An instruction that changes A, X, Y or the stack pointer only. -/
theorem At.regs (h : At k area m₀ (.op op operand :: rest) v) (hop : isData op = true)
    (hexecute : ∀ m, view m = v → view (m.execute op (k.effective m operand)) = v')
    (hbus : v'.bus = v.bus) : At k area m₀ rest v' :=
  h.pass hop hexecute fun a _ => by rw [hbus]

theorem view_loadA (m : Machine) (value : UInt8) :
    view (m.mapRegs (·.loadA value)) = { view m with a := value } := by
  unfold view
  rw [show (m.mapRegs (·.loadA value)).regs.flag .i = m.regs.flag .i from flag_setNZ ..]
  rfl

theorem view_loadX (m : Machine) (value : UInt8) :
    view (m.mapRegs (·.loadX value)) = { view m with x := value } := by
  unfold view
  rw [show (m.mapRegs (·.loadX value)).regs.flag .i = m.regs.flag .i from flag_setNZ ..]
  rfl

theorem view_loadY (m : Machine) (value : UInt8) :
    view (m.mapRegs (·.loadY value)) = { view m with y := value } := by
  unfold view
  rw [show (m.mapRegs (·.loadY value)).regs.flag .i = m.regs.flag .i from flag_setNZ ..]
  rfl

theorem At.tya (h : At k area m₀ (.bare .tya :: rest) ⟨a, x, y, sp, i, b⟩) :
    At k area m₀ rest ⟨y, x, y, sp, i, b⟩ := h.regs rfl (by rintro m ⟨⟩; exact view_loadA m _) rfl

theorem At.txa (h : At k area m₀ (.bare .txa :: rest) ⟨a, x, y, sp, i, b⟩) :
    At k area m₀ rest ⟨x, x, y, sp, i, b⟩ := h.regs rfl (by rintro m ⟨⟩; exact view_loadA m _) rfl

theorem At.tax (h : At k area m₀ (.bare .tax :: rest) ⟨a, x, y, sp, i, b⟩) :
    At k area m₀ rest ⟨a, a, y, sp, i, b⟩ := h.regs rfl (by rintro m ⟨⟩; exact view_loadX m _) rfl

theorem At.tay (h : At k area m₀ (.bare .tay :: rest) ⟨a, x, y, sp, i, b⟩) :
    At k area m₀ rest ⟨a, x, a, sp, i, b⟩ := h.regs rfl (by rintro m ⟨⟩; exact view_loadY m _) rfl

theorem At.tsx (h : At k area m₀ (.bare .tsx :: rest) ⟨a, x, y, sp, i, b⟩) :
    At k area m₀ rest ⟨a, sp, y, sp, i, b⟩ := h.regs rfl (by rintro m ⟨⟩; exact view_loadX m _) rfl

theorem At.txs (h : At k area m₀ (.bare .txs :: rest) ⟨a, x, y, sp, i, b⟩) :
    At k area m₀ rest ⟨a, x, y, x, i, b⟩ := h.regs rfl (by rintro m ⟨⟩; exact rfl) rfl

theorem At.iny (h : At k area m₀ (.bare .iny :: rest) ⟨a, x, y, sp, i, b⟩) :
    At k area m₀ rest ⟨a, x, y + 1, sp, i, b⟩ := h.regs rfl (by rintro m ⟨⟩; exact view_loadY m _) rfl

theorem At.dey (h : At k area m₀ (.bare .dey :: rest) ⟨a, x, y, sp, i, b⟩) :
    At k area m₀ rest ⟨a, x, y - 1, sp, i, b⟩ := h.regs rfl (by rintro m ⟨⟩; exact view_loadY m _) rfl

/-! ### Operands -/

/-- Whether an operand stands for a byte of memory. -/
def isCell : Operand → Bool
  | .zeroPage _ | .absolute _ | .absoluteX _ | .absoluteY _ | .indirectY _ => true
  | _ => false

/-- The address of an operand in memory. -/
def target (k : Linkage) (x y : UInt8) (b : Bus) : Operand → UInt16
  | .zeroPage cell => cell.toUInt16
  | .absolute a => k.address a
  | .absoluteX a => k.address a + x.toUInt16
  | .absoluteY a => k.address a + y.toUInt16
  | .indirectY cell => word (b.read cell.toUInt16) (b.read (cell + 1).toUInt16) + y.toUInt16
  | _ => 0

theorem effective_target (hcell : isCell operand = true) (m : Machine) :
    k.effective m operand = .address (target k m.regs.x m.regs.y m.bus operand) := by
  cases operand <;> first | (cases hcell; done) | rfl

theorem At.lda {byte : UInt8} (h : At k area m₀ (.op .lda operand :: rest) ⟨a, x, y, sp, i, b⟩)
    (hcell : isCell operand = true) (hbyte : b.read (target k x y b operand) = byte) :
    At k area m₀ rest ⟨byte, x, y, sp, i, b⟩ := by
  refine h.regs rfl ?_ rfl
  rintro m ⟨⟩
  rw [effective_target hcell, ← hbyte]
  exact view_loadA m _

theorem At.ldaByte {value : UInt8}
    (h : At k area m₀ (.op .lda (.byte value) :: rest) ⟨a, x, y, sp, i, b⟩) :
    At k area m₀ rest ⟨value, x, y, sp, i, b⟩ := h.regs rfl (by rintro m ⟨⟩; exact view_loadA m _) rfl

theorem At.ldxByte {value : UInt8}
    (h : At k area m₀ (.op .ldx (.byte value) :: rest) ⟨a, x, y, sp, i, b⟩) :
    At k area m₀ rest ⟨a, value, y, sp, i, b⟩ := h.regs rfl (by rintro m ⟨⟩; exact view_loadX m _) rfl

theorem At.ldyByte {value : UInt8}
    (h : At k area m₀ (.op .ldy (.byte value) :: rest) ⟨a, x, y, sp, i, b⟩) :
    At k area m₀ rest ⟨a, x, value, sp, i, b⟩ := h.regs rfl (by rintro m ⟨⟩; exact view_loadY m _) rfl

/-- A store that does not hit the code. -/
theorem At.sta {at_ : UInt16} (h : At k area m₀ (.op .sta operand :: rest) ⟨a, x, y, sp, i, b⟩)
    (hcell : isCell operand = true) (hat : target k x y b operand = at_)
    (hclear : ∀ e, area e → Plain b e ∧ at_ ≠ e) :
    At k area m₀ rest ⟨a, x, y, sp, i, b.write at_ a⟩ := by
  refine h.pass rfl ?_ fun e he => read_write_of_ne (hclear e he).1 (hclear e he).2 _
  rintro m ⟨⟩
  rw [effective_target hcell, hat]
  rfl

/-! ### The stack -/

theorem At.pha (h : At k area m₀ (.bare .pha :: rest) ⟨a, x, y, sp, i, b⟩)
    (hclear : ∀ e, area e → Plain b e ∧ Machine.stackAddress sp ≠ e) :
    At k area m₀ rest ⟨a, x, y, sp - 1, i, b.write (Machine.stackAddress sp) a⟩ := by
  refine h.pass rfl ?_ fun e he => read_write_of_ne (hclear e he).1 (hclear e he).2 _
  rintro m ⟨⟩
  rfl

theorem At.pla {sp' byte : UInt8} (h : At k area m₀ (.bare .pla :: rest) ⟨a, x, y, sp, i, b⟩)
    (hsp : sp + 1 = sp') (hbyte : b.read (Machine.stackAddress sp') = byte) :
    At k area m₀ rest ⟨byte, x, y, sp', i, b⟩ := by
  subst hsp hbyte
  exact h.regs rfl (by rintro m ⟨⟩; exact view_loadA m.pull.2 _) rfl

/-! ### Branches and returns -/

/-- A branch over one two-byte instruction reaches its label. -/
theorem inReach_skip (pc : UInt16) : InReach pc (pc + 2 + 2) := by
  have hdistance : pc + 2 + 2 - (pc + 2) = 2 := by
    rw [UInt16.add_comm (pc + 2) 2, UInt16.add_sub_cancel]
  unfold InReach
  rw [hdistance]
  decide

/-- **A default for zero**: A is loaded, and loaded again with another value if it is zero. -/
theorem At.ldaOr {value byte : UInt8} {name : String}
    (h : At k area m₀ (.op .lda operand :: .branch .bne name :: .op .lda (.byte value) ::
      .label name :: rest) ⟨a, x, y, sp, i, b⟩) (hcell : isCell operand = true)
    (hbyte : b.read (target k x y b operand) = byte) :
    At k area m₀ rest ⟨if byte = 0 then value else byte, x, y, sp, i, b⟩ := by
  obtain ⟨n, m, hafter, hlies, ⟨⟩⟩ := h
  have hline : Lies k area m.bus.read m.regs.pc ([Line.op .lda operand] ++ .branch .bne name :: _) := hlies
  obtain ⟨hload, hbranch⟩ := after_lines hline (by simp [isPassed]; rfl) ⟨fun _ _ => rfl, trivial⟩
  have hview : view (ran k [.op .lda operand] m) = { view m with a := byte } := by
    change view (m.execute .lda (k.effective m operand)) = _
    rw [effective_target hcell, ← hbyte]
    exact view_loadA m _
  have hzero : (ran k [.op .lda operand] m).regs.flag .z = decide (byte = 0) := by
    change (m.execute .lda (k.effective m operand)).regs.flag .z = _
    rw [effective_target hcell, ← hbyte]
    exact flag_setNZ ..
  generalize ran k [.op .lda operand] m = q at hload hbranch hview hzero
  have htarget : k.symbol name = q.regs.pc + 2 + 2 := hbranch.2.2.2.2.2.2.2.2.1
  have hstep := step_branch hbranch rfl (by rw [htarget]; exact inReach_skip _)
  have hloaded : after (n + 1 + 1) m₀ = _ :=
    (after_add ((after_add hafter).trans hload)).trans (after_one hstep)
  have htaken : isTaken .bne q.regs = !q.regs.flag .z := rfl
  rw [htaken, hzero] at hloaded
  by_cases hnull : byte = 0
  · rw [decide_eq_true hnull] at hloaded
    have hagain : At k area m₀ (.op .lda (.byte value) :: .label name :: rest) (view q) :=
      ⟨_, _, hloaded, hbranch.2.2.2.2, rfl⟩
    rw [hview] at hagain
    rw [if_pos hnull]
    exact hagain.ldaByte.label
  · rw [decide_eq_false hnull] at hloaded
    have hrest : Lies k area q.bus.read (k.symbol name) rest := by
      rw [htarget]
      exact hbranch.2.2.2.2.2.2.2.2.2
    have hdone : At k area m₀ rest (view q) := ⟨_, _, hloaded, hrest, rfl⟩
    rw [hview] at hdone
    rw [if_neg hnull]
    exact hdone

/-- **A return** to behind the address on top of the stack. -/
theorem At.rts {lo hi : UInt8} {bytes : List UInt8}
    (h : At k area m₀ (.bare .rts :: rest) ⟨a, x, y, sp, i, b⟩)
    (hstack : above b sp = lo :: hi :: bytes) :
    ∃ n m, after n m₀ = some m ∧ m.regs.pc = word lo hi + 1 ∧ stack m = bytes ∧
      view m = ⟨a, x, y, sp + 1 + 1, i, b⟩ := by
  obtain ⟨n, m, hafter, hlies, ⟨⟩⟩ := h
  obtain ⟨m', hlast, hregs, hbus, hrest⟩ := after_rts hlies hstack
  refine ⟨n + 1, m', (after_add hafter).trans hlast, ?_, hrest, ?_⟩
  · rw [hregs]
  · unfold view
    rw [hregs, hbus]
    rfl

end Codegen6502.Proofs.Processor.Tracing
