import Codegen6502.Proofs.Routines.Jumps
import Codegen6502.Proofs.Routines.Trampolines
import Mathlib.Logic.Relation

/-!
# Interrupts while banks are switched

Three routines switch banks: the way into a bank, the way back, and the jump to a captured state.
They write the copy of the bank register and then the register itself, and are interrupted wherever
interrupts are not masked.

* `Happens`: one thing that happens: an instruction of a routine, a handler that is run between two
  instructions, or whatever code there is outside of the routines;
* `Steady`, `Reached`: lines of code that keep the two in agreement, by the stages in which they
  leave the machine;
* `interrupts_agree`: whenever interrupts are not masked the copy is the bank that is selected, and
  a routine leaves the mask as it found it.

A jump writes the return address to the two bytes above the captured stack pointer.  Where these are
not in the stack page, one of them may be the bank register (`jump_tears`).
-/

namespace Codegen6502.Proofs.Routines.Interrupts

open Processor.Memory Processor.LineRun Processor.Fetching Processor.Stack Processor.Tracing Switching

variable {k : Linkage} {z : ZeroPage} {area : UInt16 → Prop} {m m' : Machine} {b c : Bus}
  {op : Opcode} {operand : Operand} {rest : List Line} {mask : Bool} {select : UInt16}

/-! ### What happens -/

/-- The copy of the bank register has the bank that is selected. -/
def Agree (z : ZeroPage) (b : Bus) : Prop := b.read z.bankShadow.toUInt16 = b.selected

/-- The window and the bank register are where they were. -/
structure SameMap (b c : Bus) : Prop where
  window : c.window = b.window
  windowSize : c.windowSize = b.windowSize
  bankSelect : c.bankSelect = b.bankSelect

/-- The stack pointer in the buffer that the first argument points to. -/
def bufferedSp (z : ZeroPage) (b : Bus) : UInt8 :=
  b.read (word (b.read (z.arg 0).toUInt16) (b.read (z.arg 0 + 1).toUInt16) +
    JumpBuffer.offsets.sp.toUInt16)

/-- A handler has been run.  It has restored the registers and not touched what the interrupted
routine goes on with: its code, the byte on top of the stack and the buffer. -/
structure Served (z : ZeroPage) (area : UInt16 → Prop) (m m' : Machine) : Prop where
  regs : m'.regs = m.regs
  map : SameMap m.bus m'.bus
  agree : Agree z m.bus → Agree z m'.bus
  top : m'.bus.read (Machine.stackAddress (m.regs.sp + 1)) =
    m.bus.read (Machine.stackAddress (m.regs.sp + 1))
  buffer : bufferedSp z m'.bus = bufferedSp z m.bus
  code : ∀ a, area a → m'.bus.read a = m.bus.read a

/-- A routine that has been entered: the interrupt mask at that time, and the lines that are
left. -/
structure Visit where
  mask : Bool
  rest : List Line

/-- The lines that are left behind an instruction. -/
def follow (r : Registers) (op : Opcode) (operand : Operand) (rest : List Line) : List Line :=
  if op = .rts then []
  else match operand with
    | .relative target => if isTaken op r then rest.dropWhile (· ≠ .label target) else rest
    | _ => rest

/-- Whether a routine switches banks. -/
def switches : Routine → Bool
  | .setJmp => false
  | _ => true

/-- One thing that happens to a machine, inside a routine or outside of all of them. -/
inductive Happens (k : Linkage) (z : ZeroPage) (area : UInt16 → Prop) :
    Option Visit × Machine → Option Visit × Machine → Prop
  | outside {m m' : Machine} (map : SameMap m.bus m'.bus) (agree : Agree z m.bus → Agree z m'.bus) :
    Happens k z area (none, m) (none, m')
  | enter {m : Machine} {r : Routine} (hr : switches r = true)
    (code : Lies k area m.bus.read m.regs.pc (r.code z m.bus.bankSelect))
    (buffer : r = .longJmp → (bufferedSp z m.bus).toNat ≤ 0xFD) :
    Happens k z area (none, m) (some ⟨m.regs.flag .i, r.code z m.bus.bankSelect⟩, m)
  | label {m : Machine} {mask : Bool} {name : String} {rest : List Line} :
    Happens k z area (some ⟨mask, .label name :: rest⟩, m) (some ⟨mask, rest⟩, m)
  | line {m : Machine} {mask : Bool} {op : Opcode} {operand : Operand} {rest : List Line} :
    Happens k z area (some ⟨mask, .op op operand :: rest⟩, m)
      (some ⟨mask, follow m.regs op operand rest⟩, m.step.2)
  | interrupt {m m' : Machine} {v : Visit} (unmasked : m.regs.flag .i = false)
    (served : Served z area m m') : Happens k z area (some v, m) (some v, m')
  | leave {m : Machine} {mask : Bool} : Happens k z area (some ⟨mask, []⟩, m) (none, m)

/-! ### Stages -/

/-- How far a routine has got with switching the bank. -/
inductive Stage where
  /-- Nothing is under way. -/
  | calm
  /-- A jump has been begun. -/
  | jumping
  /-- The offset of the stack pointer in the buffer is in Y. -/
  | offset
  /-- The stack pointer is in A. -/
  | fetched
  /-- The stack pointer is in X. -/
  | indexed
  /-- The status is on the stack. -/
  | saved
  /-- Interrupts are masked. -/
  | masked
  /-- The copy of the bank register has been written, and the register has not. -/
  | torn

/-- Whether an instruction writes to no memory but the stack, and leaves the interrupt mask
alone. -/
def isQuiet (op : Opcode) : Bool :=
  isData op && !op.writesMemory && op != .cli && op != .sei && op != .plp

/-- Whether an instruction leaves X alone as well. -/
def isApart (op : Opcode) : Bool :=
  isQuiet op && op != .ldx && op != .tax && op != .tsx && op != .inx && op != .dex

/-- Lines that switch a bank with interrupts masked, from a stage on. -/
inductive Steady (z : ZeroPage) (select : UInt16) : Stage → List Line → Prop
  | done : Steady z select .calm []
  | label {s : Stage} {name : String} {rest : List Line} (h : Steady z select s rest) :
    Steady z select s (.label name :: rest)
  | quiet {op : Opcode} {operand : Operand} {rest : List Line} (hop : isQuiet op = true)
    (h : Steady z select .calm rest) : Steady z select .calm (.op op operand :: rest)
  | skip {op : Opcode} {value : UInt8} {name : String} {rest : List Line} (hop : op.isBranch = true)
    (h : Steady z select .calm rest) :
    Steady z select .calm (.branch op name :: .op .lda (.byte value) :: .label name :: rest)
  | rts {rest : List Line} : Steady z select .calm (.bare .rts :: rest)
  | php {rest : List Line} (h : Steady z select .saved rest) :
    Steady z select .calm (.bare .php :: rest)
  | sei {rest : List Line} (h : Steady z select .masked rest) :
    Steady z select .saved (.bare .sei :: rest)
  | load {value : UInt8} {rest : List Line} (h : Steady z select .masked rest) :
    Steady z select .masked (.op .lda (.byte value) :: rest)
  | shadow {rest : List Line} (h : Steady z select .torn rest) :
    Steady z select .masked (.op .sta (.zeroPage z.bankShadow) :: rest)
  | select {rest : List Line} (h : Steady z select .masked rest) :
    Steady z select .torn (.op .sta (.fixed select) :: rest)
  | plp {rest : List Line} (h : Steady z select .calm rest) :
    Steady z select .masked (.bare .plp :: rest)
  | jump {rest : List Line} (h : Steady z select .offset rest) :
    Steady z select .jumping (.op .ldy (.byte JumpBuffer.offsets.sp) :: rest)
  | fetch {rest : List Line} (h : Steady z select .fetched rest) :
    Steady z select .offset (.op .lda (.indirectY (z.arg 0)) :: rest)
  | index {rest : List Line} (h : Steady z select .indexed rest) :
    Steady z select .fetched (.bare .tax :: rest)
  | apart {op : Opcode} {operand : Operand} {rest : List Line} (hop : isApart op = true)
    (h : Steady z select .indexed rest) : Steady z select .indexed (.op op operand :: rest)
  | store {place : UInt16} {rest : List Line} (hplace : place = 0x0101 ∨ place = 0x0102)
    (h : Steady z select .indexed rest) :
    Steady z select .indexed (.op .sta (Routine.stackByte place) :: rest)
  | ready {rest : List Line} (h : Steady z select .calm rest) : Steady z select .indexed rest

/-- Lines that are quiet. -/
theorem Steady.quiets {lines : List Line} (hlines : ∀ line ∈ lines, ∃ op operand,
    line = .op op operand ∧ isQuiet op = true) (h : Steady z select .calm rest) :
    Steady z select .calm (lines ++ rest) := by
  induction lines with
  | nil => exact h
  | cons line lines ih =>
    obtain ⟨op, operand, rfl, hop⟩ := hlines line (List.mem_cons_self ..)
    exact .quiet hop (ih fun l hl => hlines l (List.mem_cons_of_mem _ hl))

/-- The stage in which a routine is entered. -/
def entry : Routine → Stage
  | .longJmp => .jumping
  | _ => .calm

/-- **The routines switch banks with interrupts masked.** -/
theorem steady_code {r : Routine} (hr : switches r = true) :
    Steady z select (entry r) (r.code z select) := by
  cases r with
  | trampoline bank =>
    have hselect : Steady z select .calm
        (Routine.selectBank z select [Line.op .lda (.byte bank)] ++ [Line.bare .rts]) :=
      .php (.sei (.load (.shadow (.select (.plp .rts)))))
    exact .label (@Steady.quiets _ _ _ (.bare .tay :: Trampolines.pushLines z)
      (by simp [Trampolines.pushLines, Line.bare, isQuiet, isData, Opcode.isBranch, Opcode.writesMemory,
        Opcode.isReadModifyWrite]) hselect)
  | trampolineReturn =>
    exact .label (.quiet rfl (.quiet rfl (.php (.sei (.shadow (.select (.plp (.quiet rfl .rts))))))))
  | longJmp =>
    exact .label (.jump (.fetch (.index (.apart rfl (.apart rfl (.apart rfl (.store (.inl rfl)
      (.apart rfl (.apart rfl (.store (.inr rfl) (.ready (.quiet rfl (.quiet rfl
        (.php (.sei (.shadow (.select (.plp (.quiet rfl (.quiet rfl (.quiet rfl (.quiet rfl
          (.skip rfl (.quiet rfl .rts))))))))))))))))))))))))
  | setJmp => cases hr

/-! ### What holds in a stage -/

/-- The status on top of the stack has the interrupt mask. -/
def Carries (m : Machine) (mask : Bool) : Prop :=
  Registers.flag { m.regs with
    p := Registers.pulledStatus (m.bus.read (Machine.stackAddress (m.regs.sp + 1))) } .i = mask

/-- What holds of a machine in a stage. -/
def Reached (z : ZeroPage) (mask : Bool) (m : Machine) : Stage → Prop
  | .calm => Agree z m.bus ∧ m.regs.flag .i = mask
  | .jumping => Agree z m.bus ∧ m.regs.flag .i = mask ∧ (bufferedSp z m.bus).toNat ≤ 0xFD
  | .offset => Agree z m.bus ∧ m.regs.flag .i = mask ∧ (bufferedSp z m.bus).toNat ≤ 0xFD ∧
    m.regs.y = JumpBuffer.offsets.sp
  | .fetched => Agree z m.bus ∧ m.regs.flag .i = mask ∧ m.regs.a.toNat ≤ 0xFD
  | .indexed => Agree z m.bus ∧ m.regs.flag .i = mask ∧ m.regs.x.toNat ≤ 0xFD
  | .saved => Agree z m.bus ∧ m.regs.flag .i = mask ∧ Carries m mask
  | .masked => Agree z m.bus ∧ m.regs.flag .i = true ∧ Carries m mask
  | .torn => m.bus.read z.bankShadow.toUInt16 = m.regs.a ∧ m.regs.flag .i = true ∧ Carries m mask

/-- **The bank is in agreement** in every stage in which interrupts are not masked. -/
theorem Reached.agree {s : Stage} (h : Reached z mask m s) (hmask : m.regs.flag .i = false) :
    Agree z m.bus := by
  cases s with
  | torn => rw [h.2.1] at hmask; cases hmask
  | _ => exact h.1

/-- A stage does not depend on where the code stands. -/
theorem reached_moved {s : Stage} {pc : UInt16} {n : ℕ} :
    Reached z mask (moved m pc n) s ↔ Reached z mask m s := by
  cases s <;> exact Iff.rfl

/-- A handler leaves the machine in the same stage. -/
theorem Reached.served {s : Stage} (h : Reached z mask m s) (hmask : m.regs.flag .i = false)
    (hserved : Served z area m m') : Reached z mask m' s := by
  have hagree := hserved.agree (h.agree hmask)
  have hflag : m'.regs.flag .i = m.regs.flag .i := by rw [hserved.regs]
  have hcarries : Carries m mask → Carries m' mask := by
    unfold Carries
    rw [hserved.regs, hserved.top]
    exact id
  cases s with
  | calm => exact ⟨hagree, hflag.trans h.2⟩
  | jumping => exact ⟨hagree, hflag.trans h.2.1, by rw [hserved.buffer]; exact h.2.2⟩
  | offset =>
    exact ⟨hagree, hflag.trans h.2.1, by rw [hserved.buffer]; exact h.2.2.1, by
      rw [hserved.regs]; exact h.2.2.2⟩
  | fetched | indexed => exact ⟨hagree, hflag.trans h.2.1, by rw [hserved.regs]; exact h.2.2⟩
  | saved | masked => exact ⟨hagree, hflag.trans h.2.1, hcarries h.2.2⟩
  | torn => rw [h.2.1] at hmask; cases hmask

/-! ### Instructions -/

theorem agree_write (hsound : Sound b) (h : Agree z b) (sp value : UInt8) :
    Agree z (b.write (Machine.stackAddress sp) value) := by
  unfold Agree
  rw [read_write_of_ne (hsound.plain_cell _) (cell_ne_stack _ _).symm,
    selected_write (select_ne_stack hsound sp).symm]
  exact h

theorem flag_execute (hop : isQuiet op = true) (m : Machine) (t : EffectiveOperand) :
    (m.execute op t).regs.flag .i = m.regs.flag .i := by
  simp only [isQuiet, Bool.and_eq_true, bne_iff_ne] at hop
  exact mask_execute hop.1.1.1.1 hop.1.1.2 hop.1.2 hop.2 m t

theorem x_execute (hop : isApart op = true) (m : Machine) (t : EffectiveOperand) :
    (m.execute op t).regs.x = m.regs.x := by
  cases op <;> first | (cases hop; done) | rfl

theorem bus_quiet (hop : isQuiet op = true) (m : Machine) (t : EffectiveOperand) :
    (m.execute op t).bus = m.bus ∨
      ∃ value, (m.execute op t).bus = m.bus.write (Machine.stackAddress m.regs.sp) value := by
  have hparts : isData op = true ∧ op.writesMemory = false := by
    simp only [isQuiet, Bool.and_eq_true, Bool.not_eq_true'] at hop
    exact hop.1.1.1
  rcases bus_execute hparts.1 m t with h | h | ⟨a, value, -, hwrites, -⟩
  · exact Or.inl h
  · exact Or.inr h
  · rw [hparts.2] at hwrites
    cases hwrites

/-- A quiet instruction. -/
theorem quiet_execute (hsound : Sound m.bus) (hop : isQuiet op = true) (t : EffectiveOperand)
    (h : Agree z m.bus) : Kept (Low m.bus) m.bus (m.execute op t).bus ∧ Agree z (m.execute op t).bus := by
  rcases bus_quiet hop m t with hbus | ⟨value, hbus⟩
  · rw [hbus]
    exact ⟨.refl _, h⟩
  · rw [hbus]
    exact ⟨kept_write _ (low_stackAddress _ _) _, agree_write hsound h _ _⟩

/-- What an instruction does that control passes through: it writes to low memory only, and the
lines behind it go on from a stage that has been reached. -/
def Passes (k : Linkage) (z : ZeroPage) (mask : Bool) (m : Machine) (op : Opcode) (operand : Operand)
    (rest : List Line) : Prop :=
  Kept (Low m.bus) m.bus (m.execute op (k.effective m operand)).bus ∧
    ∃ s, Steady z m.bus.bankSelect s rest ∧ Reached z mask (m.execute op (k.effective m operand)) s

/-- The status goes on the stack. -/
theorem carries_php (hsound : Sound m.bus) (h : m.regs.flag .i = mask) :
    Carries (m.push m.regs.pushedStatus) mask := by
  have hsp : m.regs.sp - 1 + 1 = m.regs.sp := UInt8.sub_add_cancel ..
  have htop : (m.bus.write (Machine.stackAddress m.regs.sp) m.regs.pushedStatus).read
      (Machine.stackAddress m.regs.sp) = m.regs.pushedStatus := by
    rw [read_write (hsound.plain_stack _), if_pos rfl]
  unfold Carries
  change Registers.flag { m.regs with
    sp := m.regs.sp - 1
    p := Registers.pulledStatus ((m.bus.write (Machine.stackAddress m.regs.sp)
      m.regs.pushedStatus).read (Machine.stackAddress (m.regs.sp - 1 + 1))) } .i = mask
  rw [hsp, htop, ← h]
  exact flag_pulled_pushed m.regs { m.regs with sp := m.regs.sp - 1 } (by decide)

/-- The status stays on the stack while something else is written. -/
theorem Carries.write (h : Carries m mask) (hsound : Sound m.bus) {a : UInt16}
    (ha : a ≠ Machine.stackAddress (m.regs.sp + 1)) (value : UInt8) :
    Carries { m with bus := m.bus.write a value } mask := by
  unfold Carries
  rw [read_write_of_ne (hsound.plain_stack _) ha]
  exact h

/-- The bytes above a stack pointer that leaves room for two are on the stack. -/
theorem stackByte_mem {place : UInt16} (hplace : place = 0x0101 ∨ place = 0x0102) {sp : UInt8}
    (h : sp.toNat ≤ 0xFD) : ∃ j, place + sp.toUInt16 = Machine.stackAddress j := by
  have hone : sp < 0xFF := UInt8.lt_iff_toNat_lt.mpr (by
    change sp.toNat < 255
    omega)
  have htwo : sp + 1 < 0xFF := UInt8.lt_iff_toNat_lt.mpr (by
    rw [UInt8.toNat_add]
    change (sp.toNat + 1) % 256 < 255
    omega)
  rcases hplace with rfl | rfl
  · exact ⟨sp + 1, Jumps.stackByte_one hone⟩
  · exact ⟨sp + 1 + 1, Jumps.stackByte_two ⟨hone, htwo⟩⟩

theorem isBranch_of_isData (hop : isData op = true) : op.isBranch = false := by
  cases op <;> first | rfl | cases hop

theorem isData_of_isQuiet (hop : isQuiet op = true) : isData op = true := by
  simp only [isQuiet, Bool.and_eq_true] at hop
  exact hop.1.1.1.1

theorem isQuiet_of_isApart (hop : isApart op = true) : isQuiet op = true := by
  simp only [isApart, Bool.and_eq_true] at hop
  exact hop.1.1.1.1.1

section Passing

variable (hsound : Sound m.bus)

include hsound

theorem passes_calm (hop : isData op = true)
    (hsteady : Steady z m.bus.bankSelect .calm (.op op operand :: rest))
    (h : Reached z mask m .calm) : Passes k z mask m op operand rest := by
  cases hsteady with
  | quiet hquiet hrest =>
    obtain ⟨hkept, hagree⟩ := quiet_execute hsound hquiet (k.effective m operand) h.1
    exact ⟨hkept, .calm, hrest, hagree, (flag_execute hquiet m _).trans h.2⟩
  | skip hbranch =>
    rw [isBranch_of_isData hop] at hbranch
    cases hbranch
  | rts => cases hop
  | php hrest =>
    exact ⟨kept_write _ (low_stackAddress _ _) _, .saved, hrest, agree_write hsound h.1 _ _, h.2,
      carries_php hsound h.2⟩

/-- **One instruction** of a routine. -/
theorem passes {s : Stage} (hop : isData op = true)
    (hsteady : Steady z m.bus.bankSelect s (.op op operand :: rest)) (h : Reached z mask m s) :
    Passes k z mask m op operand rest := by
  cases s with
  | calm => exact passes_calm hsound hop hsteady h
  | jumping =>
    cases hsteady with
    | jump hrest =>
      exact ⟨.refl _, .offset, hrest, h.1, (flag_execute rfl m _).trans h.2.1, h.2.2, rfl⟩
  | offset =>
    cases hsteady with
    | fetch hrest =>
      refine ⟨.refl _, .fetched, hrest, h.1, (flag_execute rfl m _).trans h.2.1, ?_⟩
      have hbyte : (m.execute .lda (k.effective m (.indirectY (z.arg 0)))).regs.a =
          bufferedSp z m.bus := by
        change m.bus.read (_ + m.regs.y.toUInt16) = _
        rw [h.2.2.2]
        rfl
      rw [hbyte]
      exact h.2.2.1
  | fetched =>
    cases hsteady with
    | index hrest => exact ⟨.refl _, .indexed, hrest, h.1, (flag_execute rfl m _).trans h.2.1, h.2.2⟩
  | indexed =>
    cases hsteady with
    | apart hapart hrest =>
      have hquiet := isQuiet_of_isApart hapart
      obtain ⟨hkept, hagree⟩ := quiet_execute hsound hquiet (k.effective m operand) h.1
      refine ⟨hkept, .indexed, hrest, hagree, (flag_execute hquiet m _).trans h.2.1, ?_⟩
      rw [x_execute hapart]
      exact h.2.2
    | @store place _ hplace hrest =>
      obtain ⟨sp, hsp⟩ := stackByte_mem hplace h.2.2
      have hbus : (m.execute .sta (k.effective m (Routine.stackByte place))).bus =
          m.bus.write (Machine.stackAddress sp) m.regs.a := congrArg (m.bus.write · m.regs.a) hsp
      refine ⟨?_, .indexed, hrest, ?_, h.2.1, h.2.2⟩
      · rw [hbus]
        exact kept_write _ (low_stackAddress _ _) _
      · rw [hbus]
        exact agree_write hsound h.1 _ _
    | ready hrest => exact passes_calm hsound hop hrest ⟨h.1, h.2.1⟩
  | saved =>
    cases hsteady with
    | sei hrest =>
      refine ⟨.refl _, .masked, hrest, h.1, ?_, h.2.2⟩
      exact (flag_setFlag ..).trans (if_pos rfl)
  | masked =>
    cases hsteady with
    | load hrest => exact ⟨.refl _, .masked, hrest, h.1, (flag_execute rfl m _).trans h.2.1, h.2.2⟩
    | shadow hrest =>
      have hlow : Low m.bus z.bankShadow.toUInt16 := Or.inl (by
        have := z.bankShadow.toNat_lt
        rw [UInt8.toNat_toUInt16]
        omega)
      refine ⟨kept_write _ hlow _, .torn, hrest, ?_, h.2.1,
        h.2.2.write hsound (cell_ne_stack _ _) _⟩
      exact (read_write (hsound.plain_cell _) _ _).trans (if_pos rfl)
    | plp hrest => exact ⟨.refl _, .calm, hrest, h.1, h.2.2⟩
  | torn =>
    cases hsteady with
    | select hrest =>
      refine ⟨kept_write _ (Or.inr rfl) _, .masked, hrest, ?_, h.2.1,
        h.2.2.write hsound (select_ne_stack hsound _) _⟩
      exact (read_write_of_ne (hsound.plain_cell _) (select_ne_cell hsound _) _).trans
        (h.1.trans (selected_write_select hsound.select rfl _).symm)

end Passing

/-! ### Runs -/

/-- Memory in which banks can be switched, with the routines in an area of common memory. -/
structure Fit (area : UInt16 → Prop) (b : Bus) : Prop where
  sound : Sound b
  common : ∀ a, area a → Common b a

theorem Fit.same (h : Fit area b) (hmap : SameMap b c) : Fit area c := by
  have hplain : ∀ a, Plain c a ↔ Plain b a := by
    intro a
    unfold Plain Bus.inWindow
    rw [hmap.window, hmap.windowSize, hmap.bankSelect]
  refine ⟨⟨fun a ha => (hplain a).mpr (h.sound.low a ha), ?_⟩,
    fun a ha => ⟨(h.common a ha).1, (hplain a).mpr (h.common a ha).2⟩⟩
  unfold Bus.inWindow
  rw [hmap.window, hmap.windowSize, hmap.bankSelect]
  exact h.sound.select

theorem Fit.kept (h : Fit area b) (hkept : Kept (Low b) b c) : Fit area c :=
  h.same ⟨hkept.window, hkept.windowSize, hkept.bankSelect⟩

/-- A machine stands where the lines that are left begin, in a stage from which they go on. -/
structure Stands (k : Linkage) (z : ZeroPage) (area : UInt16 → Prop) (v : Visit) (m : Machine) :
    Prop where
  lies : Lies k area m.bus.read m.regs.pc v.rest
  stage : ∃ s, Steady z m.bus.bankSelect s v.rest ∧ Reached z v.mask m s

theorem step_data (hlies : Lies k area m.bus.read m.regs.pc (.op op operand :: rest))
    (hop : isData op = true) : m.step.2 = moved (m.execute op (k.effective m operand))
      (m.regs.pc + operand.mode.length) (m.steps + 1) := by
  obtain ⟨hrelative, hindirect⟩ := isData_mode hop hlies.1
  rw [step_line hlies hrelative hindirect, past, execute_moved hop]

theorem follow_data {byte : UInt8} (hencode : op.encode operand.mode = some byte)
    (hop : isData op = true) (r : Registers) : follow r op operand rest = rest := by
  have hrts : op ≠ .rts := by
    rintro rfl
    cases hop
  unfold follow
  rw [if_neg hrts]
  cases operand with
  | relative target => exact absurd rfl (isData_mode hop hencode).1
  | _ => rfl

/-- Only a branch and a return leave the lines in a row. -/
theorem calm_of_leaving {s : Stage} (hop : ¬ isData op = true)
    (hsteady : Steady z select s (.op op operand :: rest)) (h : Reached z mask m s) :
    Steady z select .calm (.op op operand :: rest) ∧ Reached z mask m .calm := by
  cases hsteady with
  | quiet hquiet => exact absurd (isData_of_isQuiet hquiet) hop
  | apart hapart => exact absurd (isData_of_isQuiet (isQuiet_of_isApart hapart)) hop
  | skip hbranch hrest => exact ⟨.skip hbranch hrest, h⟩
  | rts => exact ⟨.rts, h⟩
  | ready hcalm => exact ⟨hcalm, h.1, h.2.1⟩
  | _ => exact absurd rfl hop

theorem Stands.rts (hlies : Lies k area m.bus.read m.regs.pc (.bare .rts :: rest))
    (h : Reached z mask m .calm) :
    m.step.2.bus = m.bus ∧ Stands k z area ⟨mask, []⟩ m.step.2 := by
  rw [step_line hlies nofun nofun]
  exact ⟨rfl, trivial, .calm, .done, h⟩

theorem Stands.skip {value : UInt8} {name : String} (hop : op.isBranch = true)
    (hlies : Lies k area m.bus.read m.regs.pc
      (.branch op name :: .op .lda (.byte value) :: .label name :: rest))
    (hrest : Steady z m.bus.bankSelect .calm rest) (h : Reached z mask m .calm) :
    m.step.2.bus = m.bus ∧ Stands k z area ⟨mask, follow m.regs op (.relative name)
      (.op .lda (.byte value) :: .label name :: rest)⟩ m.step.2 := by
  have htarget : k.symbol name = m.regs.pc + 2 + 2 := hlies.2.2.2.2.2.2.2.2.1
  have hrts : op ≠ .rts := by
    rintro rfl
    cases hop
  rw [step_branch hlies hop (by rw [htarget]; exact inReach_skip _)]
  unfold follow Machine.branchIf
  rw [if_neg hrts]
  by_cases htaken : isTaken op m.regs = true
  · simp only [htaken, if_true]
    have hdrop : (.op .lda (.byte value) :: .label name :: rest : List Line).dropWhile
        (· ≠ .label name) = .label name :: rest := by
      simp
    rw [hdrop]
    refine ⟨rfl, ⟨rfl, ?_⟩, .calm, .label hrest, h⟩
    change Lies k area m.bus.read (k.symbol name) rest
    rw [htarget]
    exact hlies.2.2.2.2.2.2.2.2.2
  · simp only [htaken]
    exact ⟨rfl, hlies.2.2.2.2, .calm, .quiet rfl (.label hrest), h⟩

/-- **One instruction** of a routine that stands in memory. -/
theorem Stands.line (hfit : Fit area m.bus)
    (h : Stands k z area ⟨mask, .op op operand :: rest⟩ m) :
    Fit area m.step.2.bus ∧ Stands k z area ⟨mask, follow m.regs op operand rest⟩ m.step.2 := by
  obtain ⟨hlies, s, hsteady, hreached⟩ := h
  by_cases hop : isData op = true
  · obtain ⟨hkept, s', hsteady', hreached'⟩ := passes (k := k) hfit.sound hop hsteady hreached
    rw [follow_data hlies.1 hop, step_data hlies hop]
    refine ⟨hfit.kept hkept, ?_, s', ?_, reached_moved.mpr hreached'⟩
    · exact hlies.2.2.2.2.congr fun a ha => ⟨ha, read_common hkept (hfit.common a ha)⟩
    · rw [bus_moved, hkept.bankSelect]
      exact hsteady'
  · obtain ⟨hcalm, hreached⟩ := calm_of_leaving hop hsteady hreached
    have hstands : m.step.2.bus = m.bus ∧
        Stands k z area ⟨mask, follow m.regs op operand rest⟩ m.step.2 := by
      cases hcalm with
      | quiet hquiet => exact absurd (isData_of_isQuiet hquiet) hop
      | php => exact absurd rfl hop
      | skip hbranch hrest => exact Stands.skip hbranch hlies hrest hreached
      | rts => exact Stands.rts hlies hreached
    rw [hstands.1]
    exact ⟨hfit, hstands.2⟩

theorem steady_of_label {s : Stage} {name : String} (h : Steady z select s (.label name :: rest)) :
    Steady z select s rest := by
  cases h with
  | label hrest => exact hrest
  | ready hcalm =>
    cases hcalm with
    | label hrest => exact .ready hrest

theorem calm_of_nil {s : Stage} (hsteady : Steady z select s []) (h : Reached z mask m s) :
    Reached z mask m .calm := by
  cases hsteady with
  | done => exact h
  | ready => exact ⟨h.1, h.2.1⟩

/-- What holds at every boundary between instructions. -/
def Bound (k : Linkage) (z : ZeroPage) (area : UInt16 → Prop) : Option Visit × Machine → Prop
  | (none, m) => Fit area m.bus ∧ Agree z m.bus
  | (some v, m) => Fit area m.bus ∧ Stands k z area v m

/-- **One thing that happens.** -/
theorem Bound.happens {s t : Option Visit × Machine} (h : Bound k z area s)
    (hstep : Happens k z area s t) : Bound k z area t := by
  cases hstep with
  | outside map agree => exact ⟨h.1.same map, agree h.2⟩
  | @enter m r hr code buffer =>
    refine ⟨h.1, code, entry r, steady_code hr, ?_⟩
    cases r with
    | longJmp => exact ⟨h.2, rfl, buffer rfl⟩
    | _ => exact ⟨h.2, rfl⟩
  | label =>
    obtain ⟨hfit, hlies, s, hsteady, hreached⟩ := h
    exact ⟨hfit, hlies.2, s, steady_of_label hsteady, hreached⟩
  | line => exact Stands.line h.1 h.2
  | interrupt unmasked served =>
    obtain ⟨hfit, hlies, s, hsteady, hreached⟩ := h
    refine ⟨hfit.same served.map, ?_, s, ?_, hreached.served unmasked served⟩
    · rw [served.regs]
      exact hlies.congr fun a ha => ⟨ha, served.code a ha⟩
    · rw [served.map.bankSelect]
      exact hsteady
  | leave =>
    obtain ⟨hfit, -, s, hsteady, hreached⟩ := h
    exact ⟨hfit, (calm_of_nil hsteady hreached).1⟩

/-- What holds at every boundary of a run. -/
theorem Bound.run {s t : Option Visit × Machine} (h : Bound k z area s)
    (hrun : Relation.ReflTransGen (Happens k z area) s t) : Bound k z area t := by
  induction hrun with
  | refl => exact h
  | tail _ hstep ih => exact ih.happens hstep

/-- **No interrupt sees the bank register and its copy disagree**: whatever happens, at every
boundary between instructions where interrupts are not masked the copy is the bank that is selected;
a routine that is left has the interrupt mask that it was entered with; and the machine stands where
the lines are that are left. -/
theorem interrupts_agree {m₀ : Machine} {v : Option Visit} (hfit : Fit area m₀.bus)
    (hagree : Agree z m₀.bus)
    (h : Relation.ReflTransGen (Happens k z area) (none, m₀) (v, m)) :
    (m.regs.flag .i = false → Agree z m.bus) ∧
    (∀ mask, v = some ⟨mask, []⟩ → m.regs.flag .i = mask) ∧
    ∀ visit, v = some visit → Lies k area m.bus.read m.regs.pc visit.rest := by
  have hbound : Bound k z area (v, m) := Bound.run (s := (none, m₀)) (And.intro hfit hagree) h
  cases v with
  | none => exact ⟨fun _ => hbound.2, nofun, nofun⟩
  | some visit =>
    obtain ⟨-, hlies, s, hsteady, hreached⟩ := hbound
    refine ⟨hreached.agree, ?_, ?_⟩
    · rintro mask ⟨⟩
      exact (calm_of_nil hsteady hreached).2
    · rintro visit ⟨⟩
      exact hlies

/-- A machine that is about to go into bank 1. -/
def enteringMachine : Machine :=
  { Trampolines.sampleMachine with regs := { pc := 0x0300 } }

/-- The way into a bank, from its entry to behind its return. -/
theorem entering_agrees : ∃ m, Relation.ReflTransGen
      (Happens Trampolines.sampleLinkage {} (Common Trampolines.sampleBus)) (none, enteringMachine)
      (some ⟨false, []⟩, m) ∧ m.regs.flag .i = false ∧ Agree {} m.bus := by
  have hfit : Fit (Common Trampolines.sampleBus) enteringMachine.bus := ⟨sound_filled, fun _ ha => ha⟩
  have hagree : Agree {} enteringMachine.bus :=
    (read_filled (plain_filled (by decide)).1).trans (by decide)
  have hcode := Trampolines.ready_sampleBus.into 1 rfl
  have hrun : ∃ m, Relation.ReflTransGen
      (Happens Trampolines.sampleLinkage {} (Common Trampolines.sampleBus)) (none, enteringMachine)
      (some ⟨false, []⟩, m) := by
    have hentered := Relation.ReflTransGen.single
      (Happens.enter (m := enteringMachine) (r := .trampoline 1) rfl hcode nofun)
    exact ⟨_, ((((((((((((((((((hentered.tail .label).tail .line).tail .line).tail .line).tail .line).tail
      .line).tail .line).tail .line).tail .line).tail .line).tail .line).tail .line).tail .line).tail
      .line).tail .line).tail .line).tail .line).tail .line).tail .line⟩
  obtain ⟨m, hm⟩ := hrun
  obtain ⟨hclear, hmask, -⟩ := interrupts_agree hfit hagree hm
  exact ⟨m, hm, hmask false rfl, hclear (hmask false rfl)⟩

/-! ### A stack that goes past its page -/

/-- A capture at `$0300` that returns to a jump at `$0340`.  The stack pointer is `$FF`, so the
return address is at the start of the stack page. -/
def tornMemory (a : UInt16) : UInt8 :=
  if a = 0x81 then 0x05
  else if a = 0x0100 then 0x3F
  else if a = 0x0101 then 0x03
  else if a = 0x0200 then 0x07
  else if a < 0x0340 then
    [0x48, 0x98, 0xA0, 0x05, 0x91, 0x80, 0x8A, 0x88, 0x91, 0x80, 0x68, 0x88, 0x91, 0x80, 0xBA, 0x8A,
      0xA0, 0x00, 0x91, 0x80, 0xBD, 0x01, 0x01, 0xC8, 0x91, 0x80, 0xBD, 0x02, 0x01, 0xC8, 0x91, 0x80,
      0xA5, 0x92, 0xA0, 0x06, 0x91, 0x80, 0xA9, 0x00, 0xAA, 0x60].getD (a - 0x0300).toNat 0
  else
    [0xA0, 0x00, 0xB1, 0x80, 0xAA, 0x9A, 0xC8, 0xB1, 0x80, 0x9D, 0x01, 0x01, 0xC8, 0xB1, 0x80, 0x9D,
      0x02, 0x01, 0xA0, 0x06, 0xB1, 0x80, 0x08, 0x78, 0x85, 0x92, 0x8D, 0x00, 0x02, 0x28, 0xA0, 0x05,
      0xB1, 0x80, 0xA8, 0xA5, 0x82, 0xD0, 0x02, 0xA9, 0x01, 0xA2, 0x00, 0x60].getD
      (a - 0x0340).toNat 0

/-- The bank register is right behind the stack page. -/
def tornBus : Bus := { filled tornMemory ∅ with bankSelect := 0x0200 }

def tornMachine : Machine :=
  { Machine.create 0xA000 0x2000 0x0200 with bus := tornBus, regs := { pc := 0x0300, sp := 0xFF } }

/-- The page of the routines. -/
def InPage (a : UInt16) : Prop := 0x0300 ≤ a.toNat ∧ a.toNat < 0x0400

instance : DecidablePred InPage := fun a =>
  inferInstanceAs (Decidable (0x0300 ≤ a.toNat ∧ a.toNat < 0x0400))

/-- A byte written to common memory, and neither to the bank register nor among the routines. -/
def isAside (byte : UInt16 × UInt8) : Bool :=
  decide (byte.1.toNat < 0xA000) && decide (byte.1 ≠ 0x0200) && decide (¬ InPage byte.1)

theorem isAside_iff {byte : UInt16 × UInt8} : isAside byte = true ↔
    (byte.1.toNat < 0xA000 ∧ byte.1 ≠ 0x0200) ∧ ¬ InPage byte.1 := by
  simp only [isAside, Bool.and_eq_true, decide_eq_true_eq]

/-- Memory after some bytes have been written, the last one first. -/
def rewritten : List (UInt16 × UInt8) → Bus
  | [] => tornBus
  | (a, value) :: earlier => (rewritten earlier).write a value

theorem plain_rewritten {a : UInt16} (ha : a.toNat < 0xA000 ∧ a ≠ 0x0200) :
    ∀ bytes, Plain (rewritten bytes) a
  | [] => ⟨(@plain_filled tornMemory ∅ a ha.1).1, ha.2⟩
  | (_, _) :: earlier => (plain_write ..).mpr (plain_rewritten ha earlier)

theorem plain_inPage {a : UInt16} (ha : InPage a) : ∀ bytes, Plain (rewritten bytes) a :=
  plain_rewritten ⟨lt_trans ha.2 (by decide), by
    rintro rfl
    exact absurd ha.1 (by decide)⟩

theorem read_rewritten {a : UInt16} (ha : a.toNat < 0xA000) (bytes : List (UInt16 × UInt8))
    (hbytes : bytes.all isAside = true) :
    (rewritten bytes).read a = (bytes.lookup a).getD (tornMemory a) := by
  induction bytes with
  | nil => exact @read_filled tornMemory ∅ a (plain_filled ha).1
  | cons byte earlier ih =>
    rw [List.all_cons, Bool.and_eq_true] at hbytes
    rw [rewritten, read_write (plain_rewritten (isAside_iff.mp hbytes.1).1 earlier), ih hbytes.2,
      List.lookup_cons]
    by_cases h : byte.1 = a
    · simp [h]
    · simp [h, beq_false_of_ne (Ne.symm h)]

theorem selected_rewritten (bytes : List (UInt16 × UInt8))
    (hbytes : bytes.all isAside = true) :
    (rewritten bytes).selected = 0 ∧ (rewritten bytes).bankSelect = 0x0200 := by
  induction bytes with
  | nil => exact ⟨rfl, rfl⟩
  | cons byte earlier ih =>
    rw [List.all_cons, Bool.and_eq_true] at hbytes
    obtain ⟨hselected, hselect⟩ := ih hbytes.2
    rw [rewritten, bankSelect_write, selected_write (hselect ▸ (isAside_iff.mp hbytes.1).1.2)]
    exact ⟨hselected, hselect⟩

theorem sound_tornBus : Sound tornBus where
  low a ha := plain_rewritten ⟨lt_trans ha (by decide), by
    rintro rfl
    exact absurd ha (by decide)⟩ []
  select := (@plain_filled tornMemory ∅ 0x0200 (by decide)).1

theorem sound_rewritten : ∀ bytes, Sound (rewritten bytes)
  | [] => sound_tornBus
  | (_, _) :: earlier => (sound_rewritten earlier).write _ _

theorem lies_torn {pc : UInt16} {lines : List Line} (bytes : List (UInt16 × UInt8))
    (h : Lies Jumps.jumpLinkage InPage tornMemory pc lines)
    (hbytes : bytes.all isAside = true) :
    Lies Jumps.jumpLinkage InPage (rewritten bytes).read pc lines := by
  refine h.congr fun a ha => ⟨ha, ?_⟩
  rw [read_rewritten (lt_trans ha.2 (by decide)) bytes hbytes]
  have hnone : bytes.lookup a = none := by
    refine List.lookup_eq_none_iff.mpr fun byte h => bne_iff_ne.mpr ?_
    rintro rfl
    exact (isAside_iff.mp (List.all_eq_true.mp hbytes byte h)).2 ha
  rw [hnone, Option.getD_none]

theorem common_of_inPage {pc : UInt16} {lines : List Line} (bytes : List (UInt16 × UInt8))
    (h : Lies Jumps.jumpLinkage InPage (rewritten bytes).read pc lines) :
    Lies Jumps.jumpLinkage (Common (rewritten bytes)) (rewritten bytes).read pc lines :=
  h.congr fun _ ha => ⟨⟨le_trans (by decide) ha.1, plain_inPage ha bytes⟩, rfl⟩

/-- A byte goes to the buffer at `$0500`. -/
theorem at_record {m₀ : Machine} {rest : List Line} {a x y sp : UInt8} {i : Bool}
    {b : List (UInt16 × UInt8)}
    (h : At Jumps.jumpLinkage InPage m₀ (.op .sta (.indirectY 0x80) :: rest)
      ⟨a, x, y, sp, i, rewritten b⟩)
    (hbytes : b.all isAside = true)
    (hlo : b.lookup 0x80 = none) (hhi : b.lookup 0x81 = none) {p : UInt16}
    (hplace : 0x0500 + y.toUInt16 = p) (hpage : 0x400 ≤ p.toNat) :
    At Jumps.jumpLinkage InPage m₀ rest ⟨a, x, y, sp, i, rewritten ((p, a) :: b)⟩ := by
  refine h.sta rfl ?_ fun e he => ⟨plain_inPage he b, ?_⟩
  · change word ((rewritten b).read 0x80) ((rewritten b).read 0x81) + _ = _
    rw [read_rewritten (by decide) b hbytes, read_rewritten (by decide) b hbytes, hlo, hhi, ← hplace]
    rfl
  · rintro rfl
    exact absurd he.2 (not_lt.mpr hpage)

/-- The bytes that the capture writes, the last one first. -/
def tornBytes : List (UInt16 × UInt8) :=
  [(0x0506, 0), (0x0502, 0), (0x0501, 7), (0x0500, 0xFF), (0x0503, 0), (0x0504, 0), (0x0505, 0),
    (0x01FF, 0)]

/-- The capture has what follows the stack page for the low byte of the return address. -/
theorem torn_captured : ∃ n m₁, after n tornMachine = some m₁ ∧ m₁.regs.pc = 0x0340 ∧
    m₁.regs.flag .i = false ∧ m₁.bus = rewritten tornBytes := by
  have hstart : At Jumps.jumpLinkage InPage tornMachine (Routine.setJmp.code {} 0x0200)
      (view tornMachine) := at_start (lies_torn [] (by decide) rfl)
  have h₁ := hstart.label.pha (b := rewritten []) fun e he => ⟨plain_inPage he [], by
    rintro rfl
    exact absurd he.1 (by decide)⟩
  have h₂ := at_record (b := [(0x01FF, 0)]) h₁.tya.ldyByte (by decide) rfl rfl
    (p := 0x0505) rfl (by decide)
  have h₃ := at_record h₂.txa.dey (by decide) rfl rfl (p := 0x0504) rfl (by decide)
  have hpushed := read_rewritten (a := 0x01FF) (by decide) (tornBytes.drop 5) (by decide)
  have h₄ := at_record (h₃.pla rfl hpushed).dey (by decide) rfl rfl (p := 0x0503) rfl (by decide)
  have h₅ := at_record h₄.tsx.txa.ldyByte (by decide) rfl rfl (p := 0x0500) rfl (by decide)
  have hselect := read_rewritten (a := 0x0200) (by decide) (tornBytes.drop 3) (by decide)
  have h₆ := at_record (h₅.lda rfl hselect).iny (by decide) rfl rfl (p := 0x0501) rfl (by decide)
  have hbehind := read_rewritten (a := 0x0201) (by decide) (tornBytes.drop 2) (by decide)
  have h₇ := at_record (h₆.lda rfl hbehind).iny (by decide) rfl rfl (p := 0x0502) rfl (by decide)
  have hshadow := read_rewritten (a := 0x92) (by decide) (tornBytes.drop 1) (by decide)
  have h₈ := at_record (h₇.lda rfl hshadow).ldyByte (by decide) rfl rfl (p := 0x0506) rfl
    (by decide)
  obtain ⟨n, m, hafter, hlies, hview⟩ := h₈.ldaByte.tax
  have hbus : m.bus = rewritten tornBytes := congrArg View.bus hview
  have hsp : m.regs.sp = 0xFF := congrArg View.sp hview
  have hreturn := step_line hlies nofun nofun
  refine ⟨n + 1, _, (after_add hafter).trans (after_one hreturn), ?_, congrArg View.mask hview, hbus⟩
  change word (m.bus.read (Machine.stackAddress (m.regs.sp + 1)))
    (m.bus.read (Machine.stackAddress (m.regs.sp + 1 + 1))) + 1 = 0x0340
  rw [hbus, hsp, read_rewritten (by decide) tornBytes (by decide),
    read_rewritten (by decide) tornBytes (by decide)]
  decide

/-- What the capture has left for the jump to read. -/
theorem read_torn {a : UInt16} (ha : a.toNat < 0xA000) :
    (rewritten tornBytes).read a = (tornBytes.lookup a).getD (tornMemory a) :=
  read_rewritten ha tornBytes (by decide)

theorem agree_torn : Agree {} tornBus ∧ Agree {} (rewritten tornBytes) := by
  unfold Agree
  rw [read_torn (by decide), (selected_rewritten tornBytes (by decide)).1]
  exact ⟨(read_rewritten (by decide) [] rfl).trans (by decide), by decide⟩

/-- The jump gets as far as the return address. -/
theorem torn_jumped {m₁ : Machine} (hbus : m₁.bus = rewritten tornBytes)
    (hcode : Lies Jumps.jumpLinkage InPage m₁.bus.read m₁.regs.pc (Routine.longJmp.code {} 0x0200)) :
    ∃ n m₂, after n m₁ = some m₂ ∧ m₂.regs.flag .i = m₁.regs.flag .i ∧
      m₂.bus = (rewritten tornBytes).write 0x0200 7 := by
  have hfetch : ∀ {rest : List Line} {a x y sp : UInt8} {i : Bool} {z : UInt8},
      At Jumps.jumpLinkage InPage m₁ (.op .lda (.indirectY 0x80) :: rest)
        ⟨a, x, y, sp, i, rewritten tornBytes⟩ →
      (rewritten tornBytes).read (0x0500 + y.toUInt16) = z →
      At Jumps.jumpLinkage InPage m₁ rest ⟨z, x, y, sp, i, rewritten tornBytes⟩ := by
    intro rest a x y sp i z h hbyte
    refine h.lda rfl ?_
    change (rewritten tornBytes).read (word ((rewritten tornBytes).read 0x80)
      ((rewritten tornBytes).read 0x81) + _) = _
    rw [read_torn (a := 0x80) (by decide), read_torn (a := 0x81) (by decide)]
    exact hbyte
  have hstart := at_start hcode
  rw [view, hbus] at hstart
  have h₁ := hfetch hstart.label.ldyByte (z := 0xFF) (read_torn (by decide))
  have h₂ := hfetch h₁.tax.txs.iny (z := 7) (read_torn (by decide))
  obtain ⟨n, m₂, hafter, -, hview⟩ := h₂.sta rfl (show _ = (0x0200 : UInt16) from rfl) fun e he =>
    ⟨plain_inPage he tornBytes, by
      rintro rfl
      exact absurd he.1 (by decide)⟩
  exact ⟨n, m₂, hafter, congrArg View.mask hview, congrArg View.bus hview⟩

/-- **A jump to a capture where the stack goes past its page** writes to the bank register while
interrupts are not masked. -/
theorem jump_tears : ∃ n m₁ n' m₂,
    Sound tornMachine.bus ∧ Agree {} tornMachine.bus ∧
    Present Jumps.jumpLinkage {} .setJmp tornMachine.bus ∧
    tornMachine.regs.pc = Jumps.jumpLinkage.symbol Routine.setJmp.name ∧
    after n tornMachine = some m₁ ∧ Agree {} m₁.bus ∧
    Present Jumps.jumpLinkage {} .longJmp m₁.bus ∧
    m₁.regs.pc = Jumps.jumpLinkage.symbol Routine.longJmp.name ∧
    after n' m₁ = some m₂ ∧ m₂.regs.flag .i = false ∧ ¬ Agree {} m₂.bus := by
  obtain ⟨n, m₁, hafter, hpc, hmask, hbus⟩ := torn_captured
  have hcode : Lies Jumps.jumpLinkage InPage (rewritten tornBytes).read 0x0340
      (Routine.longJmp.code {} 0x0200) := lies_torn tornBytes (by decide) (by decide)
  obtain ⟨n', m₂, hafter', hmask', hbus'⟩ := torn_jumped hbus (by rw [hbus, hpc]; exact hcode)
  have hselect := (selected_rewritten tornBytes (by decide)).2
  refine ⟨n, m₁, n', m₂, sound_tornBus, agree_torn.1, ?_, rfl, hafter, ?_, ?_, hpc, hafter',
    hmask'.trans hmask, ?_⟩
  · exact common_of_inPage [] (lies_torn [] (by decide) rfl)
  · rw [hbus]
    exact agree_torn.2
  · rw [hbus, Present, hselect]
    exact common_of_inPage tornBytes hcode
  · have hwindow := (sound_rewritten tornBytes).select
    have hshadow : ((rewritten tornBytes).write 0x0200 7).read 0x92 = 0 :=
      (read_write_of_ne (plain_rewritten (by decide) tornBytes) (by decide) 7).trans
        ((read_torn (by decide)).trans (by decide))
    intro hagree
    rw [Agree, hbus', selected_write_select (hselect ▸ hwindow) hselect.symm] at hagree
    exact absurd (hshadow.symm.trans hagree) (by decide)

end Codegen6502.Proofs.Routines.Interrupts
