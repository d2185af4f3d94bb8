import Codegen6502.Proofs.Routines.Switching

/-!
# Calls through trampolines

A function in a bank is called through the trampoline of the bank, which selects the bank and enters
the function with the way back on the stack; the way back selects the caller's bank again.

* `enters`: the call gets to the callee with its bank selected, and `Entered` says what is on the
  stack;
* `resumes`: a callee that returns (`Returns`) gets back behind the call, with the caller's bank
  selected and everything on the stack as before;
* `Nested.restores`: calls inside of calls to any depth leave the bank as it was.
-/

namespace Codegen6502.Proofs.Routines.Trampolines

open Processor.Memory Processor.LineRun Processor.Fetching Processor.Stack Switching

variable {k : Linkage} {z : ZeroPage} {m m₁ m₂ m₃ : Machine} {callee : String} {bank : UInt8}

/-! ### The call -/

/-- The call of a function through the trampoline of its bank. -/
def callLines (callee : String) (bank : UInt8) : List Line :=
  [.op .lda (.symbolByte callee (-1) .lo), .op .ldx (.symbolByte callee (-1) .hi),
    .jsr (Routine.trampoline bank).name]

/-- The address on the stack from which a return gets to a symbol. -/
def below (k : Linkage) (name : String) : UInt16 := k.address (.symbol name (-1))

theorem below_succ (k : Linkage) (name : String) : below k name + 1 = k.symbol name := by
  have hminus : (-1 : Int32).toInt16.toUInt16 = 0xFFFF := by decide
  change k.symbol name + (-1 : Int32).toInt16.toUInt16 + 1 = k.symbol name
  rw [hminus, UInt16.add_assoc]
  exact UInt16.add_zero _

/-- The state at the entry of a callee. -/
structure Entered (k : Linkage) (z : ZeroPage) (callee : String) (bank : UInt8) (m m₁ : Machine) :
    Prop where
  pc : m₁.regs.pc = k.symbol callee
  selected : m₁.bus.selected = bank
  shadow : m₁.bus.read z.bankShadow.toUInt16 = bank
  /-- On the stack are the way back, the caller's bank and the address behind the call. -/
  stack : stack m₁ = wordBytes (below k Naming.trampolineReturn) ++
    m.bus.read z.bankShadow.toUInt16 :: wordBytes (m.regs.pc + 6) ++ stack m
  mask : m₁.regs.flag .i = m.regs.flag .i
  kept : Kept (Low m.bus) m.bus m₁.bus

theorem kept_pushWord {w : UInt16} : Kept (Low m.bus) m.bus (m.pushWord w).bus :=
  (kept_write m.bus (low_stackAddress _ _) _).write (low_stackAddress _ _) _

theorem read_cell_pushWord (hsound : Sound m.bus) (cell : UInt8) {w : UInt16} :
    (m.pushWord w).bus.read cell.toUInt16 = m.bus.read cell.toUInt16 :=
  (read_write_of_ne ((hsound.write _ _).plain_cell cell) (cell_ne_stack _ _).symm _).trans
    (read_write_of_ne (hsound.plain_cell cell) (cell_ne_stack _ _).symm _)

/-- The state in which the call instruction has just run. -/
structure Called (k : Linkage) (lo hi : Immediate) (name : String) (m m₁ : Machine) : Prop where
  a : m₁.regs.a = k.byte lo
  x : m₁.regs.x = k.byte hi
  pc : m₁.regs.pc = k.symbol name
  sp : m₁.regs.sp.toNat + 2 = m.regs.sp.toNat
  stack : stack m₁ = wordBytes (m.regs.pc + 6) ++ stack m
  mask : m₁.regs.flag .i = m.regs.flag .i
  kept : Kept (Low m.bus) m.bus m₁.bus
  shadow : ∀ cell : UInt8, m₁.bus.read cell.toUInt16 = m.bus.read cell.toUInt16

/-- Loads A and X. -/
def loads (lo hi : Immediate) : List Line := [.op .lda (.immediate lo), .op .ldx (.immediate hi)]

theorem regs_loads (lo hi : Immediate) : (ran k (loads lo hi) m).regs =
    { (m.regs.loadA (k.byte lo)).loadX (k.byte hi) with pc := m.regs.pc + 4 } := rfl

/-- A call with bytes in A and X. -/
theorem calls {area : UInt16 → Prop} {lo hi : Immediate} {name : String} {rest : List Line}
    (hsound : Sound m.bus) (hroom : 2 ≤ m.regs.sp.toNat)
    (hcode : Lies k area m.bus.read m.regs.pc (loads lo hi ++ .jsr name :: rest)) :
    ∃ m₁, after 3 m = some m₁ ∧ Called k lo hi name m m₁ := by
  have hpassed : ∀ line ∈ loads lo hi, isPassed line = true := by
    simp [loads, isPassed, isData, Opcode.isBranch]
  have hreads : ∀ line ∈ loads lo hi, ∀ m : Machine, (act k m line).bus = m.bus := by
    intro line hline m
    obtain rfl | rfl : line = .op .lda (.immediate lo) ∨ line = .op .ldx (.immediate hi) := by
      simpa [loads] using hline
    · rfl
    · rfl
  obtain ⟨hloaded, hjsr⟩ := after_lines hcode hpassed (spares_of_bus hreads)
  have hsound' : Sound (ran k (loads lo hi) m).bus := hsound
  obtain ⟨m₁, hafter, hregs, hbus, hstack⟩ := after_jsr hsound' hroom hjsr
  have hback : m.regs.pc + 4 + 2 = m.regs.pc + 6 := UInt16.add_assoc ..
  rw [regs_loads] at hregs hbus hstack
  refine ⟨m₁, (after_add hloaded).trans hafter, ?_, ?_, ?_, ?_, ?_, ?_, ?_, fun cell => ?_⟩
  · rw [hregs]
    rfl
  · rw [hregs]
    rfl
  · rw [hregs]
  · rw [hregs]
    change (m.regs.sp - 1 - 1).toNat + 2 = m.regs.sp.toNat
    have hone : (m.regs.sp - 1).toNat = m.regs.sp.toNat - 1 := toNat_pred (by omega)
    have htwo : (m.regs.sp - 1 - 1).toNat = (m.regs.sp - 1).toNat - 1 := toNat_pred (by omega)
    omega
  · rw [hstack, hback]
    rfl
  · rw [hregs]
    exact (mask_loadX _ _).trans (mask_loadA _ _)
  · rw [hbus]
    exact kept_pushWord
  · rw [hbus]
    exact read_cell_pushWord hsound' cell

/-! ### Into the bank -/

/-- What is pushed with A. -/
structure Pushed (value : UInt8) (m m₁ : Machine) : Prop where
  x : m₁.regs.x = m.regs.x
  y : m₁.regs.y = m.regs.y
  sp : m₁.regs.sp.toNat + 1 = m.regs.sp.toNat
  stack : stack m₁ = value :: stack m
  mask : m₁.regs.flag .i = m.regs.flag .i
  sound : Sound m₁.bus
  select : m₁.bus.bankSelect = m.bus.bankSelect
  shadow : ∀ cell : UInt8, m₁.bus.read cell.toUInt16 = m.bus.read cell.toUInt16

/-- A byte is loaded and pushed. -/
theorem pushes {line : Line} {value : UInt8} (hline : act k m line = m.mapRegs (·.loadA value))
    (hsound : Sound m.bus) (hroom : 0 < m.regs.sp.toNat) :
    Pushed value m (acts k [line, .bare .pha] m) := by
  have hacts : acts k [line, .bare .pha] m = (m.mapRegs (·.loadA value)).push value := by
    rw [acts_cons, hline]
    rfl
  have hsound' : Sound (m.mapRegs (·.loadA value)).bus := hsound
  rw [hacts]
  refine ⟨rfl, rfl, ?_, ?_, mask_loadA _ _, hsound.write _ _, bankSelect_write .., fun cell => ?_⟩
  · change (m.regs.sp - 1).toNat + 1 = m.regs.sp.toNat
    rw [toNat_pred hroom]
    omega
  · rw [stack_push hsound' hroom]
    rfl
  · exact read_write_of_ne (hsound.plain_cell cell) (cell_ne_stack _ _).symm value

/-- The trampoline up to where the bank is selected. -/
def pushLines (z : ZeroPage) : List Line :=
  [Line.op .lda (.zeroPage z.bankShadow), .bare .pha] ++
  [Line.op .lda (.symbolByte Naming.trampolineReturn (-1) .hi), .bare .pha] ++
  [Line.op .lda (.symbolByte Naming.trampolineReturn (-1) .lo), .bare .pha] ++
  [Line.bare .txa, .bare .pha] ++ [Line.bare .tya, .bare .pha]

/-- What the trampoline pushes. -/
structure Prepared (k : Linkage) (z : ZeroPage) (m q : Machine) : Prop where
  sound : Sound q.bus
  select : q.bus.bankSelect = m.bus.bankSelect
  mask : q.regs.flag .i = m.regs.flag .i
  cells : ∀ cell : UInt8, q.bus.read cell.toUInt16 = m.bus.read cell.toUInt16
  stack : stack q = m.regs.y :: m.regs.x :: (wordBytes (below k Naming.trampolineReturn) ++
    m.bus.read z.bankShadow.toUInt16 :: stack m)

theorem act_lda_hi (name : String) (addend : Int32) : act k m (.op .lda (.symbolByte name addend .hi)) =
    m.mapRegs (·.loadA (highByte (k.address (.symbol name addend)))) := rfl

theorem act_lda_lo (name : String) (addend : Int32) : act k m (.op .lda (.symbolByte name addend .lo)) =
    m.mapRegs (·.loadA (lowByte (k.address (.symbol name addend)))) := rfl

theorem act_txa : act k m (.bare .txa) = m.mapRegs (·.loadA m.regs.x) := rfl

theorem act_tya : act k m (.bare .tya) = m.mapRegs (·.loadA m.regs.y) := rfl

theorem prepares (hsound : Sound m.bus) (hroom : 5 ≤ m.regs.sp.toNat) :
    Prepared k z m (acts k (pushLines z) m) := by
  unfold pushLines
  simp only [acts_append]
  -- Of each machine on the way only what is pushed is known.
  have h₁ : Pushed (m.bus.read z.bankShadow.toUInt16) m
      (acts k [.op .lda (.zeroPage z.bankShadow), .bare .pha] m) :=
    pushes rfl hsound (by omega)
  generalize acts k [.op .lda (.zeroPage z.bankShadow), .bare .pha] m = m₁ at h₁ ⊢
  have hroom₁ := h₁.sp
  have h₂ : Pushed (highByte (below k Naming.trampolineReturn)) m₁
      (acts k [.op .lda (.symbolByte Naming.trampolineReturn (-1) .hi), .bare .pha] m₁) :=
    pushes (act_lda_hi _ _) h₁.sound (by omega)
  generalize acts k [.op .lda (.symbolByte Naming.trampolineReturn (-1) .hi), .bare .pha] m₁ = m₂
    at h₂ ⊢
  have hroom₂ := h₂.sp
  have h₃ : Pushed (lowByte (below k Naming.trampolineReturn)) m₂
      (acts k [.op .lda (.symbolByte Naming.trampolineReturn (-1) .lo), .bare .pha] m₂) :=
    pushes (act_lda_lo _ _) h₂.sound (by omega)
  generalize acts k [.op .lda (.symbolByte Naming.trampolineReturn (-1) .lo), .bare .pha] m₂ = m₃
    at h₃ ⊢
  have hroom₃ := h₃.sp
  have h₄ : Pushed m₃.regs.x m₃ (acts k [.bare .txa, .bare .pha] m₃) :=
    pushes act_txa h₃.sound (by omega)
  generalize acts k [.bare .txa, .bare .pha] m₃ = m₄ at h₄ ⊢
  have hroom₄ := h₄.sp
  have h₅ : Pushed m₄.regs.y m₄ (acts k [.bare .tya, .bare .pha] m₄) :=
    pushes act_tya h₄.sound (by omega)
  have hx : m₃.regs.x = m.regs.x := h₃.x.trans (h₂.x.trans h₁.x)
  have hy : m₄.regs.y = m.regs.y := h₄.y.trans (h₃.y.trans (h₂.y.trans h₁.y))
  refine ⟨h₅.sound, ?_, ?_, fun cell => ?_, ?_⟩
  · rw [h₅.select, h₄.select, h₃.select, h₂.select, h₁.select]
  · rw [h₅.mask, h₄.mask, h₃.mask, h₂.mask, h₁.mask]
  · rw [h₅.shadow, h₄.shadow, h₃.shadow, h₂.shadow, h₁.shadow]
  · rw [h₅.stack, h₄.stack, h₃.stack, h₂.stack, h₁.stack, hx, hy]
    rfl

/-- The trampoline up to its return. -/
def entryLines (z : ZeroPage) (select : UInt16) (bank : UInt8) : List Line :=
  .bare .tay :: pushLines z ++ Routine.selectBank z select [.op .lda (.byte bank)]

theorem isLocal_entryLines (z : ZeroPage) (select : UInt16) (bank : UInt8) :
    ∀ line ∈ entryLines z select bank, isLocal select line = true := by
  simp [entryLines, pushLines, Routine.selectBank, isLocal, Line.bare, isData, Opcode.isBranch,
    Opcode.writesMemory, Opcode.isReadModifyWrite, isNear, Operand.fixed]

/-- **The trampoline** selects its bank and goes to the address in A and X. -/
theorem trampoline_enters (hsound : Sound m.bus) (hpresent : Present k z (.trampoline bank) m.bus)
    (hpc : m.regs.pc = k.symbol (Routine.trampoline bank).name) (hroom : 5 ≤ m.regs.sp.toNat) :
    ∃ m₁, after 18 m = some m₁ ∧ m₁.regs.pc = word m.regs.a m.regs.x + 1 ∧
      m₁.bus.selected = bank ∧ m₁.bus.read z.bankShadow.toUInt16 = bank ∧
      stack m₁ = wordBytes (below k Naming.trampolineReturn) ++
        m.bus.read z.bankShadow.toUInt16 :: stack m ∧
      m₁.regs.flag .i = m.regs.flag .i ∧ Kept (Low m.bus) m.bus m₁.bus ∧
      ∀ cell ≠ z.bankShadow, m₁.bus.read cell.toUInt16 = m.bus.read cell.toUInt16 := by
  have hlies : Lies k (Common m.bus) m.bus.read m.regs.pc
      (entryLines z m.bus.bankSelect bank ++ [Line.bare .rts]) := hpc ▸ hpresent.2
  obtain ⟨hafter, hrts, hkept⟩ := after_local hlies (isLocal_entryLines _ _ _)
  -- The state in which the bank is selected: A has gone to Y, and everything has been pushed.
  have hsound' : Sound (act k m (.bare .tay)).bus := hsound
  have hq : Prepared k z (act k m (.bare .tay)) _ := prepares hsound' hroom
  have hentry : acts k (entryLines z m.bus.bankSelect bank) m =
      acts k (Routine.selectBank z m.bus.bankSelect [.op .lda (.byte bank)])
        (acts k (pushLines z) (act k m (.bare .tay))) := by
    rw [entryLines, acts_append, acts_cons]
  generalize acts k (pushLines z) (act k m (.bare .tay)) = q at hq hentry
  have hselect : m.bus.bankSelect = q.bus.bankSelect := hq.select.symm
  obtain ⟨hregs, hbus⟩ := acts_selectBank_byte (k := k) (z := z) hq.sound bank
  rw [hselect] at hentry hafter hrts hkept
  rw [← hentry] at hregs hbus
  have hstack : stack (ran k (entryLines z q.bus.bankSelect bank) m) = stack q := by
    unfold stack
    rw [bus_ran, regs_ran, hregs, hbus]
    exact above_switched hq.sound bank
  obtain ⟨m₁, hlast, hregs₁, hbus₁, hstack₁⟩ := after_rts hrts (hstack.trans hq.stack)
  rw [bus_ran, hbus] at hbus₁
  refine ⟨m₁, (after_add hafter).trans hlast, ?_, ?_, ?_, hstack₁, ?_, ?_, fun cell hcell => ?_⟩
  · rw [hregs₁]
    rfl
  · rw [hbus₁, selected_switched hq.sound]
  · rw [hbus₁, read_switched_shadow hq.sound]
  · rw [hregs₁, regs_ran, hregs]
    exact (flag_switchedRegs q.regs bank (by decide)).trans (hq.mask.trans (mask_loadY _ _))
  · rw [hbus₁, ← hbus]
    exact hkept
  · rw [hbus₁, read_switched_cell hq.sound bank hcell, hq.cells]
    rfl

/-- A call through a trampoline gets to the callee, and of the zero page it writes to the copy of
the bank only. -/
theorem enters_sparing {area : UInt16 → Prop} {rest : List Line} (hsound : Sound m.bus)
    (hpresent : Present k z (.trampoline bank) m.bus)
    (hcode : Lies k area m.bus.read m.regs.pc (callLines callee bank ++ rest))
    (hroom : 7 ≤ m.regs.sp.toNat) :
    ∃ m₁, after 21 m = some m₁ ∧ Entered k z callee bank m m₁ ∧
      ∀ cell ≠ z.bankShadow, m₁.bus.read cell.toUInt16 = m.bus.read cell.toUInt16 := by
  have hlines : callLines callee bank ++ rest = loads (.symbol callee (-1) .lo)
      (.symbol callee (-1) .hi) ++ .jsr (Routine.trampoline bank).name :: rest := rfl
  rw [hlines] at hcode
  obtain ⟨q, hcall, hq⟩ := calls hsound (by omega) hcode
  have hsp := hq.sp
  obtain ⟨m₁, hafter, hpc, hselected, hshadow, hstack, hmask, hkept, hcells⟩ :=
    trampoline_enters (hq.kept.sound hsound) (hpresent.kept hq.kept) hq.pc (by omega)
  refine ⟨m₁, (after_add hcall).trans hafter, ⟨?_, hselected, hshadow, ?_, hmask.trans hq.mask, ?_⟩,
    fun cell hcell => (hcells cell hcell).trans (hq.shadow cell)⟩
  · have htarget : word q.regs.a q.regs.x = below k callee := by
      rw [hq.a, hq.x]
      exact word_bytes _
    rw [hpc, htarget, below_succ]
  · rw [hstack, hq.shadow, hq.stack]
    rfl
  · exact hq.kept.trans (hkept.mono fun a => (low_iff hq.kept a).mp)

/-- **A call through a trampoline** gets to the callee with its bank selected. -/
theorem enters {area : UInt16 → Prop} {rest : List Line} (hsound : Sound m.bus)
    (hpresent : Present k z (.trampoline bank) m.bus)
    (hcode : Lies k area m.bus.read m.regs.pc (callLines callee bank ++ rest))
    (hroom : 7 ≤ m.regs.sp.toNat) :
    ∃ m₁, after 21 m = some m₁ ∧ Entered k z callee bank m m₁ := by
  obtain ⟨m₁, hafter, hentered, -⟩ := enters_sparing hsound hpresent hcode hroom
  exact ⟨m₁, hafter, hentered⟩

/-! ### Back to the caller -/

/-- A callee that was entered in a state returns: it stands before a return, with the stack as it
was on entry and its own bank selected. -/
structure Returns (k : Linkage) (z : ZeroPage) (bank : UInt8) (m₁ m₂ : Machine) : Prop where
  rts : Lies k anywhere m₂.bus.read m₂.regs.pc [.bare .rts]
  stack : stack m₂ = stack m₁
  selected : m₂.bus.selected = bank
  shadow : m₂.bus.read z.bankShadow.toUInt16 = bank
  sound : Sound m₂.bus
  present : Present k z .trampolineReturn m₂.bus

/-- The state behind a call: the bank and the stack are the caller's, and the result registers and
the interrupt mask are the callee's. -/
structure Resumed (z : ZeroPage) (m m₂ m₃ : Machine) : Prop where
  pc : m₃.regs.pc = m.regs.pc + 7
  sp : m₃.regs.sp = m.regs.sp
  stack : stack m₃ = stack m
  a : m₃.regs.a = m₂.regs.a
  x : m₃.regs.x = m₂.regs.x
  mask : m₃.regs.flag .i = m₂.regs.flag .i
  selected : m₃.bus.selected = m.bus.selected
  shadow : m₃.bus.read z.bankShadow.toUInt16 = m.bus.read z.bankShadow.toUInt16
  kept : Kept (Low m₂.bus) m₂.bus m₃.bus

/-- The way back up to its return. -/
def returnLines (z : ZeroPage) (select : UInt16) : List Line :=
  [Line.bare .tay, .bare .pla] ++ Routine.selectBank z select [] ++ [Line.bare .tya]

theorem isLocal_returnLines (z : ZeroPage) (select : UInt16) :
    ∀ line ∈ returnLines z select, isLocal select line = true := by
  simp [returnLines, Routine.selectBank, isLocal, Line.bare, isData, Opcode.isBranch,
    Opcode.writesMemory, Opcode.isReadModifyWrite, isNear, Operand.fixed]

/-- **The way back** selects the bank on top of the stack and returns, the result registers kept. -/
theorem trampoline_returns {caller lo hi : UInt8} {rest : List UInt8} (hsound : Sound m.bus)
    (hpresent : Present k z .trampolineReturn m.bus)
    (hpc : m.regs.pc = k.symbol Naming.trampolineReturn)
    (hstack : stack m = caller :: lo :: hi :: rest) :
    ∃ m₁, after 9 m = some m₁ ∧ m₁.regs.pc = word lo hi + 1 ∧ stack m₁ = rest ∧
      m₁.regs.a = m.regs.a ∧ m₁.regs.x = m.regs.x ∧ m₁.regs.flag .i = m.regs.flag .i ∧
      m₁.bus.selected = caller ∧ m₁.bus.read z.bankShadow.toUInt16 = caller ∧
      Kept (Low m.bus) m.bus m₁.bus := by
  have hlies : Lies k (Common m.bus) m.bus.read m.regs.pc
      (returnLines z m.bus.bankSelect ++ [Line.bare .rts]) := hpc ▸ hpresent.2
  obtain ⟨hafter, hrts, hkept⟩ := after_local hlies (isLocal_returnLines _ _)
  obtain ⟨hpull, hstack'⟩ := pull_of_stack hstack
  -- The state in which the bank is selected: the result is in Y and the bank in A.
  have hreturn : acts k (returnLines z m.bus.bankSelect) m = act k
      (acts k (Routine.selectBank z m.bus.bankSelect [])
        (acts k [.bare .tay, .bare .pla] m)) (.bare .tya) := by
    rw [returnLines, acts_append, acts_append, acts_cons, acts_nil]
  have hq : (acts k [.bare .tay, .bare .pla] m).regs =
      { (m.regs.loadY m.regs.a) with sp := m.regs.sp + 1 }.loadA caller := by
    rw [← hpull]
    rfl
  have hqbus : (acts k [.bare .tay, .bare .pla] m).bus = m.bus := rfl
  have hqstack : stack (acts k [.bare .tay, .bare .pla] m) = lo :: hi :: rest := hstack'
  generalize acts k [.bare .tay, .bare .pla] m = q at hreturn hq hqbus hqstack
  rw [← hqbus] at hreturn hafter hrts hkept hsound
  obtain ⟨hregs, hbus⟩ := acts_selectBank_a (k := k) (z := z) hsound
  have hcaller : q.regs.a = caller := by
    rw [hq]
    rfl
  rw [hcaller] at hregs hbus
  generalize acts k (Routine.selectBank z q.bus.bankSelect []) q = s at hreturn hregs hbus
  have hstack₁ : stack (ran k (returnLines z q.bus.bankSelect) m) = lo :: hi :: rest := by
    rw [← hqstack]
    unfold stack
    rw [bus_ran, regs_ran, hreturn]
    change above s.bus s.regs.sp = _
    rw [hregs, hbus]
    exact above_switched hsound caller
  obtain ⟨m₁, hlast, hregs₁, hbus₁, hrest⟩ := after_rts hrts hstack₁
  have hbus₁ : m₁.bus = switched z q caller := by
    rw [hbus₁, bus_ran, hreturn, ← hbus]
    rfl
  rw [regs_ran, hreturn] at hregs₁
  have ha : m₁.regs.a = s.regs.y := by rw [hregs₁]; rfl
  have hx : m₁.regs.x = s.regs.x := by rw [hregs₁]; rfl
  have hi : m₁.regs.flag .i = s.regs.flag .i := by
    rw [hregs₁]
    exact mask_loadA _ _
  refine ⟨m₁, (after_add hafter).trans hlast, ?_, hrest, ?_, ?_, ?_, ?_, ?_, ?_⟩
  · rw [hregs₁]
  · rw [ha, hregs]
    change q.regs.y = m.regs.a
    rw [hq]
    rfl
  · rw [hx, hregs]
    change q.regs.x = m.regs.x
    rw [hq]
    rfl
  · rw [hi, hregs, flag_switchedRegs _ _ (by decide), hq]
    exact (mask_loadA _ _).trans (mask_loadY _ _)
  · rw [hbus₁, selected_switched hsound]
  · rw [hbus₁, read_switched_shadow hsound]
  · rw [hreturn] at hkept
    rw [hbus₁, ← hbus, ← hqbus]
    exact hkept

/-- **A callee that returns** gets back behind the call. -/
theorem resumes (hentered : Entered k z callee bank m m₁) (hreturns : Returns k z bank m₁ m₂)
    (hshadow : m.bus.read z.bankShadow.toUInt16 = m.bus.selected) :
    ∃ m₃, after 10 m₂ = some m₃ ∧ Resumed z m m₂ m₃ := by
  obtain ⟨q, hrts, hregs, hbus, hstack⟩ := after_rts hreturns.rts
    (hreturns.stack.trans hentered.stack)
  have hpc : q.regs.pc = k.symbol Naming.trampolineReturn := by
    rw [hregs]
    change word _ _ + 1 = _
    rw [word_bytes, below_succ]
  have hsound : Sound q.bus := by rw [hbus]; exact hreturns.sound
  have hpresent : Present k z .trampolineReturn q.bus := by rw [hbus]; exact hreturns.present
  obtain ⟨m₃, hafter, hpc₃, hstack₃, ha, hx, hmask, hselected, hread, hkept⟩ :=
    trampoline_returns hsound hpresent hpc hstack
  refine ⟨m₃, (after_add hrts).trans hafter, ?_, sp_of_stack hstack₃, hstack₃, ?_, ?_, ?_, ?_, hread, ?_⟩
  · rw [hpc₃, word_bytes]
    exact UInt16.add_assoc ..
  · rw [ha, hregs]
  · rw [hx, hregs]
  · rw [hmask, hregs]
    rfl
  · rw [hselected, hshadow]
  · rw [← hbus]
    exact hkept

/-! ### Calls inside of calls -/

/-- The support routines for calls into some banks stand in memory. -/
structure Ready (k : Linkage) (z : ZeroPage) (banks : UInt8 → Prop) (b : Bus) : Prop where
  sound : Sound b
  back : Present k z .trampolineReturn b
  into : ∀ bank, banks bank → Present k z (.trampoline bank) b

theorem Ready.kept {banks : UInt8 → Prop} {b c : Bus} (h : Ready k z banks b)
    (hkept : Kept (Low b) b c) : Ready k z banks c :=
  ⟨hkept.sound h.sound, h.back.kept hkept, fun bank hbank => (h.into bank hbank).kept hkept⟩

/-- Runs that consist of stretches that leave the bank alone and of complete calls through
trampolines, the body of each again such a run. -/
inductive Nested (k : Linkage) (z : ZeroPage) (banks : UInt8 → Prop) : Machine → Machine → Prop
  /-- Any number of instructions that end with the same bank selected. -/
  | quiet {m m' : Machine} (n : ℕ) (hrun : after n m = some m')
      (hselected : m'.bus.selected = m.bus.selected)
      (hshadow : m'.bus.read z.bankShadow.toUInt16 = m.bus.read z.bankShadow.toUInt16)
      (hready : Ready k z banks m.bus → Ready k z banks m'.bus) : Nested k z banks m m'
  | seq {m m' m'' : Machine} (first : Nested k z banks m m') (second : Nested k z banks m' m'') :
      Nested k z banks m m''
  /-- A call: 21 instructions lead to the callee, which comes to a return with the stack as it was,
  and another 10 lead back. -/
  | call {m m₁ m₂ m₃ : Machine} {callee : String} {bank : UInt8} (hbank : banks bank)
      (hcode : Lies k anywhere m.bus.read m.regs.pc (callLines callee bank))
      (hroom : 7 ≤ m.regs.sp.toNat) (hin : after 21 m = some m₁) (body : Nested k z banks m₁ m₂)
      (hrts : Lies k anywhere m₂.bus.read m₂.regs.pc [.bare .rts]) (hstack : stack m₂ = stack m₁)
      (hout : after 10 m₂ = some m₃) : Nested k z banks m m₃

/-- **Calls to any depth restore the bank.** -/
theorem Nested.restores {banks : UInt8 → Prop} {m m' : Machine} (h : Nested k z banks m m') :
    Ready k z banks m.bus → m.bus.read z.bankShadow.toUInt16 = m.bus.selected →
    Ready k z banks m'.bus ∧ m'.bus.selected = m.bus.selected ∧
      m'.bus.read z.bankShadow.toUInt16 = m.bus.read z.bankShadow.toUInt16 := by
  induction h with
  | quiet n hrun hselected hshadow hready =>
    exact fun h _ => ⟨hready h, hselected, hshadow⟩
  | seq first second ih ih' =>
    intro hready hagree
    obtain ⟨hready', hselected, hshadow⟩ := ih hready hagree
    obtain ⟨hready'', hselected', hshadow'⟩ :=
      ih' hready' (hshadow.trans (hagree.trans hselected.symm))
    exact ⟨hready'', hselected'.trans hselected, hshadow'.trans hshadow⟩
  | @call m m₁ m₂ m₃ callee bank hbank hcode hroom hin body hrts hstack hout ih =>
    intro hready hagree
    rw [← List.append_nil (callLines callee bank)] at hcode
    obtain ⟨m₁', hin', hentered⟩ := enters hready.sound (hready.into bank hbank) hcode hroom
    obtain rfl : m₁ = m₁' := Option.some.inj (hin.symm.trans hin')
    -- The body ends with its own bank selected, by induction.
    obtain ⟨hready₂, hselected, hshadow⟩ := ih (hready.kept hentered.kept)
      (hentered.shadow.trans hentered.selected.symm)
    obtain ⟨m₃', hout', hresumed⟩ := resumes hentered
      ⟨hrts, hstack, hselected.trans hentered.selected, hshadow.trans hentered.shadow,
        hready₂.sound, hready₂.back⟩ hagree
    obtain rfl : m₃ = m₃' := Option.some.inj (hout.symm.trans hout')
    exact ⟨hready₂.kept hresumed.kept, hresumed.selected, hresumed.shadow⟩

/-- **A call through a trampoline is a call and a bank switch that undoes itself**: it enters the
callee with its bank selected, and a callee that returns, whatever calls it has made, gets back
behind the call with the caller's bank selected. -/
theorem call_restores_bank {area : UInt16 → Prop} {rest : List Line} {banks : UInt8 → Prop}
    (hready : Ready k z banks m.bus) (hbank : banks bank)
    (hagree : m.bus.read z.bankShadow.toUInt16 = m.bus.selected) (hroom : 7 ≤ m.regs.sp.toNat)
    (hcode : Lies k area m.bus.read m.regs.pc (callLines callee bank ++ rest)) :
    ∃ m₁, after 21 m = some m₁ ∧ Entered k z callee bank m m₁ ∧
      (∀ m₂, Returns k z bank m₁ m₂ → ∃ m₃, after 10 m₂ = some m₃ ∧ Resumed z m m₂ m₃) ∧
      ∀ m₂, Nested k z banks m₁ m₂ → Lies k anywhere m₂.bus.read m₂.regs.pc [.bare .rts] →
        stack m₂ = stack m₁ → ∃ m₃, after 10 m₂ = some m₃ ∧ Resumed z m m₂ m₃ := by
  obtain ⟨m₁, hin, hentered⟩ := enters hready.sound (hready.into bank hbank) hcode hroom
  refine ⟨m₁, hin, hentered, fun m₂ hreturns => resumes hentered hreturns hagree,
    fun m₂ hnested hrts hstack => ?_⟩
  obtain ⟨hready₂, hselected, hshadow⟩ := hnested.restores (hready.kept hentered.kept)
    (hentered.shadow.trans hentered.selected.symm)
  exact resumes hentered ⟨hrts, hstack, hselected.trans hentered.selected,
    hshadow.trans hentered.shadow, hready₂.sound, hready₂.back⟩ hagree

/-! ### A call into a bank -/

/-- Support code in front of a window, with the callee at its start. -/
def sampleLinkage : Linkage where
  symbol name :=
    if name = Naming.trampoline 1 then 0x0300
    else if name = Naming.trampolineReturn then 0x0340 else 0xA000
  window := 0xA000

/-- The trampoline of bank 1, the way back and a call. -/
def sampleMemory (a : UInt16) : UInt8 :=
  if a < 0x0340 then
    [0xA8, 0xA5, 0x92, 0x48, 0xA9, 0x03, 0x48, 0xA9, 0x3F, 0x48, 0x8A, 0x48, 0x98, 0x48, 0x08, 0x78,
      0xA9, 0x01, 0x85, 0x92, 0x8D, 0x00, 0xD5, 0x28, 0x60].getD (a - 0x0300).toNat 0
  else if a < 0x0400 then
    [0xA8, 0x68, 0x08, 0x78, 0x85, 0x92, 0x8D, 0x00, 0xD5, 0x28, 0x98, 0x60].getD
      (a - 0x0340).toNat 0
  else [0xA9, 0xFF, 0xA2, 0x9F, 0x20, 0x00, 0x03].getD (a - 0x0400).toNat 0

/-- A memory in which bank 1 has one instruction, a return. -/
def sampleBus : Bus := filled sampleMemory (.ofList [((1 : UInt8), #[(0x60 : UInt8)])])

/-- A machine before the call. -/
def sampleMachine : Machine :=
  { Machine.create 0xA000 0x2000 0xD500 with bus := sampleBus, regs := { pc := 0x0400 } }

theorem lies_sample {pc : UInt16} {lines : List Line}
    (h : Lies sampleLinkage (Common sampleBus) sampleMemory pc lines) :
    Lies sampleLinkage (Common sampleBus) sampleBus.read pc lines := lies_filled (fun _ ha => ha) h

theorem ready_sampleBus : Ready sampleLinkage {} (· = 1) sampleBus where
  sound := sound_filled
  back := lies_sample (by decide +kernel)
  into bank hbank := by
    subst hbank
    exact lies_sample (by decide +kernel)

/-- The call gets into the bank, and the return there gets back. -/
theorem sample_call_returns : ∃ m₁ m₃, after 21 sampleMachine = some m₁ ∧ m₁.regs.pc = 0xA000 ∧
    m₁.bus.selected = 1 ∧ after 10 m₁ = some m₃ ∧ Resumed {} sampleMachine m₁ m₃ := by
  have hcode : Lies sampleLinkage (Common sampleBus) sampleBus.read 0x0400
      (callLines "f" 1 ++ []) := lies_sample (by decide +kernel)
  have hagree : sampleBus.read (ZeroPage.bankShadow {}).toUInt16 = 0 :=
    (read_filled (by decide)).trans (by decide +kernel)
  have hready : Ready sampleLinkage {} (· = 1) sampleMachine.bus := ready_sampleBus
  obtain ⟨m₁, hin, hentered, hback, -⟩ := call_restores_bank hready rfl hagree (by decide) hcode
  have hpc : m₁.regs.pc = 0xA000 := hentered.pc.trans (by decide +kernel)
  have hrts : Lies sampleLinkage anywhere m₁.bus.read m₁.regs.pc [.bare .rts] := by
    have hread : m₁.bus.read 0xA000 = 0x60 := by
      have hwindow : sampleMachine.bus.inWindow 0xA000 = true := by decide
      unfold Bus.read
      rw [hentered.kept.inWindow, hwindow, if_pos rfl, hentered.kept.window, hentered.kept.banks,
        hentered.selected]
      decide +kernel
    rw [hpc]
    exact ⟨by rw [hread]; rfl, rfl, trivial, trivial, trivial⟩
  obtain ⟨m₃, hout, hresumed⟩ := hback m₁ ⟨hrts, rfl, hentered.selected, hentered.shadow,
    hentered.kept.sound ready_sampleBus.sound, ready_sampleBus.back.kept hentered.kept⟩
  exact ⟨m₁, m₃, hin, hpc, hentered.selected, hout, hresumed⟩

end Codegen6502.Proofs.Routines.Trampolines
