import Codegen6502.Proofs.Processor.Straight

/-!
# Instructions on states that agree

Two machines that agree on what an instruction reads agree on what it writes.

* `Agree`: registers that agree as far as a set of items asks for it.  The accumulator, the stack
  pointer and the flags other than N and Z agree always;
* `agree_execute`: an instruction keeps that up, for everything that it writes or that agreed
  before;
* `execute_bus`: what an instruction writes to memory;
* `SameBus`: memories that agree outside a set of addresses.
-/

namespace Codegen6502.Proofs.Processor.Agreement

open Memory LineRun Straight

variable {r s : Registers} {m m' : Machine} {op : Opcode} {t t' : EffectiveOperand}

/-! ### Registers -/

/-- Registers that agree on a set of items. -/
structure Agree (live : Item → Prop) (r s : Registers) : Prop where
  a : r.a = s.a
  sp : r.sp = s.sp
  x : live (.reg .x) → r.x = s.x
  y : live (.reg .y) → r.y = s.y
  carry : r.flag .c = s.flag .c
  overflow : r.flag .v = s.flag .v
  decimal : r.flag .d = s.flag .d
  interrupt : r.flag .i = s.flag .i
  negative : live .nz → r.flag .n = s.flag .n
  zero : live .nz → r.flag .z = s.flag .z

theorem Agree.weaken {live wanted : Item → Prop} (h : Agree live r s)
    (hx : wanted (.reg .x) → live (.reg .x)) (hy : wanted (.reg .y) → live (.reg .y))
    (hnz : wanted .nz → live .nz) : Agree wanted r s :=
  { h with
    x := fun hw => h.x (hx hw)
    y := fun hw => h.y (hy hw)
    negative := fun hw => h.negative (hnz hw)
    zero := fun hw => h.zero (hnz hw) }

section Changes

variable {live : Item → Prop} (h : Agree live r s)

include h

theorem Agree.setFlag (f : Flag) (on : Bool) : Agree live (r.setFlag f on) (s.setFlag f on) where
  a := h.a
  sp := h.sp
  x := h.x
  y := h.y
  carry := by rw [flag_setFlag, flag_setFlag, h.carry]
  overflow := by rw [flag_setFlag, flag_setFlag, h.overflow]
  decimal := by rw [flag_setFlag, flag_setFlag, h.decimal]
  interrupt := by rw [flag_setFlag, flag_setFlag, h.interrupt]
  negative := fun hnz => by rw [flag_setFlag, flag_setFlag, h.negative hnz]
  zero := fun hnz => by rw [flag_setFlag, flag_setFlag, h.zero hnz]

/-- N and Z agree once both have been set. -/
theorem Agree.setZN (zero negative : Bool) : Agree (fun item => live item ∨ item = .nz)
    ((r.setFlag .z zero).setFlag .n negative) ((s.setFlag .z zero).setFlag .n negative) := by
  have hflags := (h.setFlag .z zero).setFlag .n negative
  refine { hflags with
    x := fun hx => hflags.x (hx.resolve_right (by simp))
    y := fun hy => hflags.y (hy.resolve_right (by simp))
    negative := fun _ => ?_
    zero := fun _ => ?_ }
  · simp
  · simp

theorem Agree.setNZ (value : UInt8) :
    Agree (fun item => live item ∨ item = .nz) (r.setNZ value) (s.setNZ value) := h.setZN ..

theorem Agree.withA (value : UInt8) : Agree live { r with a := value } { s with a := value } :=
  { h with a := rfl }

theorem Agree.withX (value : UInt8) :
    Agree (fun item => live item ∨ item = .reg .x) { r with x := value } { s with x := value } :=
  { h with
    x := fun _ => rfl
    y := fun hy => h.y (hy.resolve_right (by simp))
    negative := fun hnz => h.negative (hnz.resolve_right (by simp))
    zero := fun hnz => h.zero (hnz.resolve_right (by simp)) }

theorem Agree.withY (value : UInt8) :
    Agree (fun item => live item ∨ item = .reg .y) { r with y := value } { s with y := value } :=
  { h with
    x := fun hx => h.x (hx.resolve_right (by simp))
    y := fun _ => rfl
    negative := fun hnz => h.negative (hnz.resolve_right (by simp))
    zero := fun hnz => h.zero (hnz.resolve_right (by simp)) }

theorem Agree.loadA (value : UInt8) :
    Agree (fun item => live item ∨ item = .nz) (r.loadA value) (s.loadA value) :=
  (h.withA value).setNZ value

theorem Agree.loadX (value : UInt8) :
    Agree (fun item => (live item ∨ item = .reg .x) ∨ item = .nz) (r.loadX value)
      (s.loadX value) :=
  (h.withX value).setNZ value

theorem Agree.loadY (value : UInt8) :
    Agree (fun item => (live item ∨ item = .reg .y) ∨ item = .nz) (r.loadY value)
      (s.loadY value) :=
  (h.withY value).setNZ value

theorem Agree.add (value : UInt8) :
    Agree (fun item => live item ∨ item = .nz) (r.add value) (s.add value) := by
  unfold Registers.add
  dsimp only
  rw [h.a, h.carry]
  exact ((h.setFlag ..).setFlag ..).loadA _

theorem Agree.compare (register value : UInt8) :
    Agree (fun item => live item ∨ item = .nz) (r.compare register value)
      (s.compare register value) :=
  (h.setFlag ..).setNZ _

end Changes

section Settling

variable {live wanted : Item → Prop}

/-- N and Z have just been set, so they may be asked for. -/
theorem Agree.afterNZ (h : Agree (fun item => live item ∨ item = .nz) r s)
    (hx : wanted (.reg .x) → live (.reg .x)) (hy : wanted (.reg .y) → live (.reg .y)) :
    Agree wanted r s :=
  h.weaken (fun hw => .inl (hx hw)) (fun hw => .inl (hy hw)) fun _ => .inr rfl

/-- So may X once it has been loaded. -/
theorem Agree.afterX (h : Agree (fun item => (live item ∨ item = .reg .x) ∨ item = .nz) r s)
    (hy : wanted (.reg .y) → live (.reg .y)) : Agree wanted r s :=
  h.weaken (fun _ => .inl (.inr rfl)) (fun hw => .inl (.inl (hy hw))) fun _ => .inr rfl

/-- So may Y. -/
theorem Agree.afterY (h : Agree (fun item => (live item ∨ item = .reg .y) ∨ item = .nz) r s)
    (hx : wanted (.reg .x) → live (.reg .x)) : Agree wanted r s :=
  h.weaken (fun hw => .inl (.inl (hx hw))) (fun _ => .inl (.inr rfl)) fun _ => .inr rfl

end Settling

/-- New flags in one of the two. -/
theorem Agree.setNZ_right {live : Item → Prop} (h : Agree live r s) (value : UInt8) :
    Agree (fun item => live item ∧ item ≠ .nz) r (s.setNZ value) where
  a := h.a
  sp := h.sp
  x := fun hx => h.x hx.1
  y := fun hy => h.y hy.1
  carry := by rw [flag_setNZ]; exact h.carry
  overflow := by rw [flag_setNZ]; exact h.overflow
  decimal := by rw [flag_setNZ]; exact h.decimal
  interrupt := by rw [flag_setNZ]; exact h.interrupt
  negative := fun hnz => absurd rfl hnz.2
  zero := fun hnz => absurd rfl hnz.2

/-- A new X in one of the two. -/
theorem Agree.loadX_right {live : Item → Prop} (h : Agree live r s) (value : UInt8) :
    Agree (fun item => (live item ∧ item ≠ .reg .x) ∧ item ≠ .nz) r (s.loadX value) :=
  Agree.setNZ_right (s := { s with x := value })
    { h with
      x := fun hx => absurd rfl hx.2
      y := fun hy => h.y hy.1
      negative := fun hnz => h.negative hnz.1
      zero := fun hnz => h.zero hnz.1 } value

/-- A new Y in one of the two. -/
theorem Agree.loadY_right {live : Item → Prop} (h : Agree live r s) (value : UInt8) :
    Agree (fun item => (live item ∧ item ≠ .reg .y) ∧ item ≠ .nz) r (s.loadY value) :=
  Agree.setNZ_right (s := { s with y := value })
    { h with
      x := fun hx => h.x hx.1
      y := fun hy => absurd rfl hy.2
      negative := fun hnz => h.negative hnz.1
      zero := fun hnz => h.zero hnz.1 } value

/-! ### Instructions -/

/-- Whether an instruction that control passes through leaves the stack alone. -/
def IsCalm (op : Opcode) : Prop := isData op = true ∧ (op.effects .implied).movesSP = false

instance (op : Opcode) : Decidable (IsCalm op) := by unfold IsCalm; infer_instance

/-- The items that a set may ask for after an instruction. -/
structure Follows (live wanted : Item → Prop) (e : Effects) : Prop where
  readsX : e.reads.x = true → live (.reg .x)
  readsY : e.reads.y = true → live (.reg .y)
  x : wanted (.reg .x) → live (.reg .x) ∨ e.writes.x = true
  y : wanted (.reg .y) → live (.reg .y) ∨ e.writes.y = true
  nz : wanted .nz → live .nz ∨ e.writesNZ = true

theorem regs_writeOperand (m : Machine) (ht : t ≠ .accumulator) (value : UInt8) :
    (m.writeOperand t value).regs = m.regs := by
  cases t with
  | accumulator => exact absurd rfl ht
  | _ => rfl

/-- Writing the same value to the accumulator or to memory. -/
theorem Agree.writeOperand {live : Item → Prop} (h : Agree live m.regs m'.regs)
    (haccumulator : t = .accumulator ↔ t' = .accumulator) (value : UInt8) :
    Agree live (m.writeOperand t value).regs (m'.writeOperand t' value).regs := by
  by_cases ht : t = .accumulator
  · rw [haccumulator.mp ht, ht]
    exact h.withA value
  · rw [regs_writeOperand m ht, regs_writeOperand m' fun ht' => ht (haccumulator.mpr ht')]
    exact h

/-- **An instruction on states that agree** gives states that agree. -/
theorem agree_execute {live wanted : Item → Prop} (operand : Operand) (hcalm : IsCalm op)
    (h : Agree live m.regs m'.regs) (hread : m.readOperand t = m'.readOperand t')
    (haccumulator : t = .accumulator ↔ t' = .accumulator)
    (hfollows : Follows live wanted (op.effects operand)) :
    Agree wanted (m.execute op t).regs (m'.execute op t').regs := by
  obtain ⟨hx, hy, hwx, hwy, hwnz⟩ := hfollows
  cases op <;> simp only [Opcode.effects, Bool.false_eq_true, or_false, or_true, implies_true,
    false_implies, forall_const] at hx hy hwx hwy hwnz
  case adc | sbc =>
    simp only [Machine.execute, Machine.mapRegs, hread]
    exact (h.add _).afterNZ hwx hwy
  case and | ora | eor | lda =>
    simp only [Machine.execute, Machine.mapRegs, hread, h.a]
    exact (h.loadA _).afterNZ hwx hwy
  case txa =>
    simp only [Machine.execute, Machine.mapRegs, h.x hx]
    exact (h.loadA _).afterNZ hwx hwy
  case tya =>
    simp only [Machine.execute, Machine.mapRegs, h.y hy]
    exact (h.loadA _).afterNZ hwx hwy
  case cmp =>
    simp only [Machine.execute, Machine.mapRegs, hread, h.a]
    exact (h.compare ..).afterNZ hwx hwy
  case cpx =>
    simp only [Machine.execute, Machine.mapRegs, hread, h.x hx]
    exact (h.compare ..).afterNZ hwx hwy
  case cpy =>
    simp only [Machine.execute, Machine.mapRegs, hread, h.y hy]
    exact (h.compare ..).afterNZ hwx hwy
  case bit =>
    simp only [Machine.execute, Machine.mapRegs, hread, h.a]
    exact ((h.setZN ..).setFlag ..).afterNZ hwx hwy
  case asl | lsr | rol | ror =>
    simp only [Machine.execute, hread, h.carry]
    exact (Agree.writeOperand ((h.setFlag ..).setNZ _) haccumulator _).afterNZ hwx hwy
  case inc | dec =>
    simp only [Machine.execute, hread]
    exact (Agree.writeOperand (h.setNZ _) haccumulator _).afterNZ hwx hwy
  case inx | dex =>
    simp only [Machine.execute, Machine.mapRegs, h.x hx]
    exact (h.loadX _).afterX hwy
  case ldx =>
    simp only [Machine.execute, Machine.mapRegs, hread]
    exact (h.loadX _).afterX hwy
  case tax =>
    simp only [Machine.execute, Machine.mapRegs, h.a]
    exact (h.loadX _).afterX hwy
  case tsx =>
    simp only [Machine.execute, Machine.mapRegs, h.sp]
    exact (h.loadX _).afterX hwy
  case iny | dey =>
    simp only [Machine.execute, Machine.mapRegs, h.y hy]
    exact (h.loadY _).afterY hwx
  case ldy =>
    simp only [Machine.execute, Machine.mapRegs, hread]
    exact (h.loadY _).afterY hwx
  case tay =>
    simp only [Machine.execute, Machine.mapRegs, h.a]
    exact (h.loadY _).afterY hwx
  case sta =>
    simp only [Machine.execute, h.a]
    exact (Agree.writeOperand h haccumulator _).weaken hwx hwy hwnz
  case stx =>
    simp only [Machine.execute, h.x hx]
    exact (Agree.writeOperand h haccumulator _).weaken hwx hwy hwnz
  case sty =>
    simp only [Machine.execute, h.y hy]
    exact (Agree.writeOperand h haccumulator _).weaken hwx hwy hwnz
  case clc | sec | cli | sei | cld | sed | clv =>
    simp only [Machine.execute, Machine.mapRegs]
    exact (h.setFlag ..).weaken hwx hwy hwnz
  case nop => exact h.weaken hwx hwy hwnz
  all_goals exact absurd hcalm (by decide)

/-! ### What stays as it is -/

theorem execute_sp (hcalm : IsCalm op) (m : Machine) (t : EffectiveOperand) :
    (m.execute op t).regs.sp = m.regs.sp := by
  cases op <;> first
    | exact absurd hcalm (by decide)
    | simp only [Machine.execute, Machine.mapRegs, sp_loadA, sp_loadX, sp_loadY, sp_add,
        sp_writeOperand, Registers.compare, Registers.setNZ, Registers.setFlag]

theorem regValue_setFlag (s : Registers) (f : Flag) (on : Bool) (r : Register) :
    regValue (s.setFlag f on) r = regValue s r := by
  cases r <;> rfl

theorem regValue_setNZ (s : Registers) (value : UInt8) (r : Register) :
    regValue (s.setNZ value) r = regValue s r := by
  cases r <;> rfl

theorem regValue_loadA (s : Registers) (value : UInt8) {r : Register} (hr : r ≠ .a) :
    regValue (s.loadA value) r = regValue s r := by
  cases r with
  | a => exact absurd rfl hr
  | _ => rfl

theorem regValue_loadX (s : Registers) (value : UInt8) {r : Register} (hr : r ≠ .x) :
    regValue (s.loadX value) r = regValue s r := by
  cases r with
  | x => exact absurd rfl hr
  | _ => rfl

theorem regValue_loadY (s : Registers) (value : UInt8) {r : Register} (hr : r ≠ .y) :
    regValue (s.loadY value) r = regValue s r := by
  cases r with
  | y => exact absurd rfl hr
  | _ => rfl

theorem regValue_writeOperand (m : Machine) {r : Register} (ht : t = .accumulator → r ≠ .a)
    (value : UInt8) : regValue (m.writeOperand t value).regs r = regValue m.regs r := by
  cases t with
  | accumulator =>
    cases r with
    | a => exact absurd rfl (ht rfl)
    | _ => rfl
  | _ => rfl

/-- **A register that an instruction does not write** keeps its contents. -/
theorem execute_keeps (operand : Operand) (hdata : isData op = true) (m : Machine) {r : Register}
    (ht : t = .accumulator → r ≠ .a) (hr : (op.effects operand).writes.contains r = false) :
    regValue (m.execute op t).regs r = regValue m.regs r := by
  have hne : ∀ q, (op.effects operand).writes.contains q = true → r ≠ q := by
    rintro q hq rfl
    rw [hr] at hq
    cases hq
  cases op <;> simp only [Machine.execute, Machine.mapRegs]
  case adc | sbc =>
    unfold Registers.add
    simp only [regValue_loadA _ _ (hne .a rfl), regValue_setFlag]
  case and | ora | eor | lda | txa | tya | pla => exact regValue_loadA _ _ (hne .a rfl)
  case ldx | tax | tsx | inx | dex => exact regValue_loadX _ _ (hne .x rfl)
  case ldy | tay | iny | dey => exact regValue_loadY _ _ (hne .y rfl)
  case cmp | cpx | cpy | bit => simp only [Registers.compare, regValue_setNZ, regValue_setFlag]
  case clc | sec | cli | sei | cld | sed | clv => exact regValue_setFlag ..
  case sta | stx | sty | asl | lsr | rol | ror | inc | dec =>
    simp only [regValue_writeOperand _ ht, regValue_setNZ, regValue_setFlag]
  all_goals first | (cases hdata; done) | (cases r <;> rfl)

/-! ### What is written -/

theorem regs_alone (r : Registers) (byte : UInt8) : (alone r byte).regs = r := rfl

theorem cellOp_stored (hwrites : op.writesMemory = true) (m : Machine) (a : UInt16) :
    (m.execute op (.address a)).bus = m.bus.write a (cellOp op m.regs (m.bus.read a)).2 := by
  cases op <;> first
    | exact Bool.noConfusion (show false = true from hwrites)
    | simp [cellOp, Machine.execute, Machine.writeOperand, Machine.mapRegs, Machine.readOperand,
        read_alone, read_alone_write, regs_alone]

/-- An instruction writes nothing else to memory. -/
theorem execute_bus (hcalm : IsCalm op) (m : Machine)
    (h : op.writesMemory = false ∨ ∀ a, t ≠ .address a) : (m.execute op t).bus = m.bus := by
  cases op <;> first
    | exact absurd hcalm (by decide)
    | rfl
    | (cases t <;> first | rfl | exact absurd rfl ((h.resolve_left (by decide)) _))

theorem cellOp_kept (hcalm : IsCalm op) (hwrites : op.writesMemory = false) (r : Registers)
    (byte : UInt8) : (cellOp op r byte).2 = byte := by
  unfold cellOp
  dsimp only
  rw [execute_bus hcalm _ (.inl hwrites), read_alone]

/-- States that agree on what is read store the same byte. -/
theorem agree_stored {live : Item → Prop} (operand : Operand) (hwrites : op.writesMemory = true)
    (h : Agree live r s) (hx : (op.effects operand).reads.x = true → live (.reg .x))
    (hy : (op.effects operand).reads.y = true → live (.reg .y)) (byte : UInt8) :
    (cellOp op r byte).2 = (cellOp op s byte).2 := by
  cases op <;> first
    | exact Bool.noConfusion (show false = true from hwrites)
    | simp [cellOp, Machine.execute, Machine.writeOperand, Machine.mapRegs, Machine.readOperand,
        read_alone, read_alone_write, regs_alone, h.a, h.carry]
  · exact h.x (hx rfl)
  · exact h.y (hy rfl)

/-! ### Memories -/

/-- Memories that agree outside some addresses. -/
structure SameBus (apart : UInt16 → Prop) (b c : Bus) : Prop where
  banks : b.banks = c.banks
  window : b.window = c.window
  windowSize : b.windowSize = c.windowSize
  bankSelect : b.bankSelect = c.bankSelect
  selected : b.selected = c.selected
  switches : b.switches = c.switches
  ram : ∀ a, ¬ apart a → b.ram.get a = c.ram.get a

section Memories

variable {apart wider : UInt16 → Prop} {b c : Bus} {a : UInt16}

theorem SameBus.inWindow (h : SameBus apart b c) (a : UInt16) : b.inWindow a = c.inWindow a :=
  inWindow_congr h.window h.windowSize a

theorem SameBus.plain (h : SameBus apart b c) (a : UInt16) : Plain b a ↔ Plain c a := by
  unfold Plain
  rw [h.inWindow, h.bankSelect]

theorem SameBus.read (h : SameBus apart b c) (ha : ¬ apart a) : b.read a = c.read a := by
  unfold Bus.read
  rw [h.inWindow, h.banks, h.selected, h.window, h.ram a ha]

theorem SameBus.mono (h : SameBus apart b c) (hsub : ∀ a, apart a → wider a) :
    SameBus wider b c :=
  { h with ram := fun a ha => h.ram a fun hapart => ha (hsub a hapart) }

/-- The same write to both. -/
theorem SameBus.write (h : SameBus apart b c) (a : UInt16) (value : UInt8) :
    SameBus apart (b.write a value) (c.write a value) := by
  unfold Bus.write
  rw [h.inWindow, h.bankSelect]
  split_ifs with hwindow hselect
  · exact h
  · refine { h with
      bankSelect := rfl, selected := rfl, switches := by rw [h.switches], ram := fun d hd => ?_ }
    simp only [Memory.get_put]
    rw [h.ram d hd]
  · refine { h with bankSelect := rfl, ram := fun d hd => ?_ }
    simp only [Memory.get_put]
    rw [h.ram d hd]

/-- A write that only one of them sees. -/
theorem SameBus.write_right (h : SameBus apart b c) (ha : apart a) (hplain : Plain c a)
    (value : UInt8) : SameBus apart b (c.write a value) := by
  rw [write_plain hplain]
  refine { h with ram := fun d hd => ?_ }
  have hne : a ≠ d := fun heq => hd (heq ▸ ha)
  simp only [Memory.get_put, if_neg hne]
  exact h.ram d hd

/-- The same write to both makes them agree at its address. -/
theorem SameBus.write_shared (h : SameBus apart b c) (hplain : Plain c a) (value : UInt8)
    (hsub : ∀ d, apart d → d ≠ a → wider d) :
    SameBus wider (b.write a value) (c.write a value) := by
  rw [write_plain hplain, write_plain ((h.plain a).mpr hplain)]
  refine { h with ram := fun d hd => ?_ }
  simp only [Memory.get_put]
  split_ifs with heq
  · rfl
  · exact h.ram d fun hapart => hd (hsub d hapart (Ne.symm heq))

end Memories

end Codegen6502.Proofs.Processor.Agreement
