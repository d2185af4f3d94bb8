import Codegen6502.Processor.Step
import Mathlib.Tactic.IntervalCases

/-!
# Flags and memory bytes

What a status flag is after another one has been set, and what a byte of memory is after another one
has been written.

* `flag_setFlag`: setting a flag changes that flag and no other; `flag_setNZ`: after a result Z and
  N describe it, and every other flag is as before.
* `flag_pulled_pushed`: pushing and pulling the status register keeps every flag but the two that
  exist only on the stack.
* `read_write`: a plain address holds what was written last; `Plain b a` says that the address is
  neither in the window nor the select register.
-/

namespace Codegen6502.Proofs.Processor.Memory

/-! ### Flags -/

/-- The position of a flag in the status register. -/
def bit : Flag → ℕ
  | .n => 7
  | .v => 6
  | .unused => 5
  | .brk => 4
  | .d => 3
  | .i => 2
  | .z => 1
  | .c => 0

theorem bit_lt (f : Flag) : bit f < 8 := by cases f <;> decide

theorem bit_inj {f g : Flag} : bit f = bit g ↔ f = g := by
  cases f <;> cases g <;> decide

theorem mask_toBitVec (f : Flag) : f.mask.toBitVec = BitVec.twoPow 8 (bit f) := by
  cases f <;> rfl

theorem flag_eq (r : Registers) (f : Flag) : r.flag f = r.p.toBitVec.getLsbD (bit f) := by
  have hzero : (r.p &&& f.mask = 0) ↔ (r.p &&& f.mask).toBitVec = 0#8 :=
    ⟨fun h => by rw [h]; rfl, fun h => UInt8.toBitVec_inj.mp h⟩
  have hmask : BitVec.twoPow 8 (bit f) ≠ 0#8 := by cases f <;> decide
  unfold Registers.flag
  rw [bne, Bool.eq_iff_iff]
  simp only [Bool.not_eq_eq_eq_not, Bool.not_true, beq_eq_false_iff_ne, ne_eq, hzero]
  rw [UInt8.toBitVec_and, mask_toBitVec, BitVec.and_twoPow]
  split <;> simp_all

@[simp] theorem flag_setFlag (r : Registers) (f g : Flag) (on : Bool) :
    (r.setFlag f on).flag g = if f = g then on else r.flag g := by
  have hg := bit_lt g
  have hfg : bit f = bit g ↔ f = g := bit_inj
  rw [flag_eq, flag_eq]
  unfold Registers.setFlag
  cases on <;> simp [mask_toBitVec, hg] <;> grind

@[simp] theorem flag_setNZ (r : Registers) (value : UInt8) (g : Flag) :
    (r.setNZ value).flag g = if g = .n then value &&& 0x80 != 0 else
      if g = .z then decide (value = 0) else r.flag g := by
  unfold Registers.setNZ
  cases g <;> simp

/-! ### The interrupt mask -/

theorem mask_loadA (r : Registers) (value : UInt8) : (r.loadA value).flag .i = r.flag .i :=
  flag_setNZ ..

theorem mask_loadX (r : Registers) (value : UInt8) : (r.loadX value).flag .i = r.flag .i :=
  flag_setNZ ..

theorem mask_loadY (r : Registers) (value : UInt8) : (r.loadY value).flag .i = r.flag .i :=
  flag_setNZ ..

theorem flag_writeOperand (m : Machine) (t : EffectiveOperand) (value : UInt8) (f : Flag) :
    (m.writeOperand t value).regs.flag f = m.regs.flag f := by
  cases t <;> rfl

/-! ### The stack pointer and memory -/

theorem sp_loadA (r : Registers) (value : UInt8) : (r.loadA value).sp = r.sp := rfl

theorem sp_loadX (r : Registers) (value : UInt8) : (r.loadX value).sp = r.sp := rfl

theorem sp_loadY (r : Registers) (value : UInt8) : (r.loadY value).sp = r.sp := rfl

theorem sp_add (r : Registers) (value : UInt8) : (r.add value).sp = r.sp := by
  unfold Registers.add
  dsimp only
  rw [sp_loadA]
  rfl

theorem sp_writeOperand (m : Machine) (t : EffectiveOperand) (value : UInt8) :
    (m.writeOperand t value).regs.sp = m.regs.sp := by
  cases t <;> rfl

theorem bus_mapRegs (m : Machine) (f : Registers → Registers) : (m.mapRegs f).bus = m.bus := rfl

/-- Writing an operand writes to memory where the operand is in memory. -/
theorem bus_writeOperand (m : Machine) (t : EffectiveOperand) (value : UInt8) :
    (m.writeOperand t value).bus = m.bus ∨
      ∃ a, t = .address a ∧ (m.writeOperand t value).bus = m.bus.write a value := by
  cases t with
  | address a => exact Or.inr ⟨a, rfl, rfl⟩
  | _ => exact Or.inl rfl

/-! ### The status on the stack -/

/-- A flag that a status byte on the stack carries. -/
def IsReal (f : Flag) : Prop := f ≠ .brk ∧ f ≠ .unused

instance (f : Flag) : Decidable (IsReal f) := by unfold IsReal; infer_instance

/-- Two status registers with the same real flags give the same byte on the stack. -/
theorem pushedStatus_eq {r s : Registers} (h : ∀ f, IsReal f → r.flag f = s.flag f) :
    r.pushedStatus = s.pushedStatus := by
  refine UInt8.toBitVec_inj.mp (BitVec.eq_of_getLsbD_eq fun i hi => ?_)
  unfold Registers.pushedStatus
  simp only [UInt8.toBitVec_or, mask_toBitVec, BitVec.getLsbD_or, BitVec.getLsbD_twoPow]
  have key : ∀ f : Flag, IsReal f → r.p.toBitVec.getLsbD (bit f) = s.p.toBitVec.getLsbD (bit f) :=
    fun f hf => by rw [← flag_eq, ← flag_eq]; exact h f hf
  have hn := key .n (by decide)
  have hv := key .v (by decide)
  have hd := key .d (by decide)
  have hi' := key .i (by decide)
  have hz := key .z (by decide)
  have hc := key .c (by decide)
  simp only [bit] at *
  interval_cases i <;> simp_all

/-- **Pushing and pulling the status register** keeps the real flags. -/
theorem flag_pulled_pushed (r : Registers) (q : Registers) {f : Flag} (hf : IsReal f) :
    ({ q with p := Registers.pulledStatus r.pushedStatus } : Registers).flag f = r.flag f := by
  rw [flag_eq, flag_eq]
  unfold Registers.pulledStatus Registers.pushedStatus
  simp only [UInt8.toBitVec_or, UInt8.toBitVec_and, UInt8.toBitVec_not, mask_toBitVec,
    BitVec.getLsbD_or, BitVec.getLsbD_and, BitVec.getLsbD_not, BitVec.getLsbD_twoPow]
  cases f
  case brk => exact absurd rfl hf.1
  case unused => exact absurd rfl hf.2
  all_goals simp [bit]

/-! ### Memory -/

theorem get_ofFn {α : Type} {n : ℕ} (f : Fin n → α) (i : Fin n) : (Vector.ofFn f).get i = f i := by
  simp only [Vector.get, Vector.toArray_ofFn, Array.getElem_ofFn]
  rfl

theorem get_table (mem : UInt16 → UInt8) (a : UInt16) :
    Ram.get (Vector.ofFn fun i => mem (UInt16.ofFin i)) a = mem a := by
  unfold Ram.get
  rw [get_ofFn]
  rfl

theorem get_put (ram : Ram) (a b : UInt16) (value : UInt8) :
    (ram.put a value).get b = if a = b then value else ram.get b := by
  have hab : a.toNat = b.toNat ↔ a = b := UInt16.toNat_inj
  unfold Ram.get Ram.put Vector.get
  simp only [Vector.toArray_set, Array.getElem_set]
  change (if a.toNat = b.toNat then _ else _) = _
  simp only [hab]
  rfl

/-- An address at which memory is plain: outside the window and not the select register. -/
def Plain (b : Bus) (address : UInt16) : Prop :=
  b.inWindow address = false ∧ address ≠ b.bankSelect

theorem read_plain {b : Bus} {a : UInt16} (h : Plain b a) : b.read a = b.ram.get a := by
  unfold Bus.read
  rw [h.1]
  simp

theorem write_plain {b : Bus} {a : UInt16} (h : Plain b a) (value : UInt8) :
    b.write a value = { b with ram := b.ram.put a value } := by
  unfold Bus.write
  rw [h.1, if_neg h.2]
  simp

@[simp] theorem window_write (b : Bus) (a : UInt16) (value : UInt8) :
    (b.write a value).window = b.window := by
  unfold Bus.write; split_ifs <;> rfl

@[simp] theorem windowSize_write (b : Bus) (a : UInt16) (value : UInt8) :
    (b.write a value).windowSize = b.windowSize := by
  unfold Bus.write; split_ifs <;> rfl

@[simp] theorem bankSelect_write (b : Bus) (a : UInt16) (value : UInt8) :
    (b.write a value).bankSelect = b.bankSelect := by
  unfold Bus.write; split_ifs <;> rfl

@[simp] theorem banks_write (b : Bus) (a : UInt16) (value : UInt8) :
    (b.write a value).banks = b.banks := by
  unfold Bus.write; split_ifs <;> rfl

theorem inWindow_congr {b c : Bus} (hw : b.window = c.window) (hs : b.windowSize = c.windowSize)
    (a : UInt16) : b.inWindow a = c.inWindow a := by
  unfold Bus.inWindow
  rw [hw, hs]

@[simp] theorem inWindow_write (b : Bus) (a : UInt16) (value : UInt8) (c : UInt16) :
    (b.write a value).inWindow c = b.inWindow c := inWindow_congr (by simp) (by simp) c

/-- **What is read after a write** to a plain address. -/
theorem read_write {b : Bus} {a : UInt16} (ha : Plain b a) (c : UInt16) (value : UInt8) :
    (b.write a value).read c = if a = c then value else b.read c := by
  by_cases hc : b.inWindow c = true
  · have hne : a ≠ c := fun h => by rw [h] at ha; exact absurd ha.1 (by simp [hc])
    rw [if_neg hne]
    unfold Bus.read
    rw [inWindow_write, if_pos hc, if_pos hc, write_plain ha]
  · rw [Bool.not_eq_true] at hc
    unfold Bus.read
    rw [inWindow_write, hc, write_plain ha]
    exact get_put b.ram a c value

/-- A byte outside the window is not changed by a write to another address, plain or not. -/
theorem read_write_outside {b : Bus} {a c : UInt16} (hc : b.inWindow c = false) (hne : a ≠ c)
    (value : UInt8) : (b.write a value).read c = b.read c := by
  unfold Bus.read
  rw [inWindow_write, hc]
  simp only [Bool.false_eq_true, ↓reduceIte]
  unfold Bus.write
  split_ifs with hwindow hselect
  · rfl
  · simp only [get_put, if_neg hne]
  · simp only [get_put, if_neg hne]

theorem read_write_of_ne {b : Bus} {a c : UInt16} (hc : Plain b c) (hne : a ≠ c) (value : UInt8) :
    (b.write a value).read c = b.read c := read_write_outside hc.1 hne value

/-- What is written outside the window can be read back, in the select register too. -/
theorem read_write_self {b : Bus} {a : UInt16} (ha : b.inWindow a = false) (value : UInt8) :
    (b.write a value).read a = value := by
  have hram : (b.write a value).ram = b.ram.put a value := by
    unfold Bus.write
    simp only [ha, Bool.false_eq_true, ↓reduceIte]
    split_ifs <;> rfl
  unfold Bus.read
  rw [inWindow_write, ha, hram, if_neg Bool.false_ne_true, get_put, if_pos rfl]

end Codegen6502.Proofs.Processor.Memory
