import Codegen6502.Proofs.Processor.Agreement
import Codegen6502.Proofs.Processor.Stack
import Codegen6502.Proofs.Selecting.Computing

/-!
# Lines that use X and the stack

Arguments and results of calls go over X and the stack, which plain lines leave alone (`Emits.sp`).
Here is what the other lines do: those that change registers only (`emits_transfer`), and those
that push and pull.
-/

namespace Codegen6502.Proofs.Selecting.Stacking

open Selection Growth
open Processor.Memory Processor.LineRun Processor.Straight Processor.Fetching Processor.Stack
open Processor.Agreement (IsCalm execute_sp)
open Tracking Places Moves Courses

variable {k : Linkage} {s t : Store} {d d' : Draft} {op : Opcode} {operand : Operand} {n : ℕ}

/-! ### Plain lines leave the stack alone -/

theorem calm_of_plain (h : isPlain op = true) : IsCalm op := by
  cases op <;> first | (cases h; done) | decide

theorem sp_exec (h : isPlain op = true) (operand : Operand) :
    (s.exec k op operand).regs.sp = s.regs.sp := by
  cases operand with
  | virtual v => exact execute_sp (calm_of_plain h) (alone s.regs (s.cells v)) (.address 0)
  | frame o => exact execute_sp (calm_of_plain h) (alone s.regs (s.frame o)) (.address 0)
  | _ => exact execute_sp (calm_of_plain h) s.machine _

theorem sp_execAll {reach : UInt8 → Prop} {es : List Entry} (h : Each (Growth.Plain reach) es) :
    ∀ s : Store, (execAll k (es.map Prod.fst) s).regs.sp = s.regs.sp := by
  induction es with
  | nil => exact fun _ => rfl
  | cons e rest ih =>
    intro s
    obtain ⟨op, operand, rfl, hop, -⟩ := h e (List.mem_cons_self ..)
    rw [List.map_cons, execAll_cons, ih fun e he => h e (List.mem_cons_of_mem _ he)]
    exact sp_exec hop operand

/-- **Plain lines** leave the stack pointer alone. -/
theorem Emits.sp {m : ℕ} {reach : UInt8 → Prop} {pre : Store → Prop} {post : Store → Store → Prop}
    (h : Emits k m d d' pre post) (hplain : GrownBy (Growth.Plain reach) d d') :
    Emits k m d d' pre fun s t => post s t ∧ t.regs.sp = s.regs.sp := by
  obtain ⟨lines, hcode, hstraight, hrun⟩ := h.lines
  obtain ⟨es, hgrown, heach⟩ := hplain
  have hlines : lines = es.map Prod.fst := List.append_cancel_left (hcode.symm.trans hgrown.code)
  refine ⟨h.cell, h.grows, h.bounded, lines, hcode, hstraight, fun s hr hp => ?_⟩
  obtain ⟨hready, hpost⟩ := hrun s hr hp
  refine ⟨hready, hpost, ?_⟩
  rw [hlines]
  exact sp_execAll heach s

/-! ### Memory keeps its shape -/

/-- The zero page and the stack page are plain memory. -/
def LowPlain (s : Store) : Prop := ∀ a : UInt16, a.toNat < 0x200 → Processor.Memory.Plain s.machine.bus a

theorem LowPlain.same {cell : UInt8} (h : LowPlain s) (hsame : Same cell n s t) : LowPlain t :=
  fun a ha => (hsame.plain a).mpr (h a ha)

theorem LowPlain.put (h : LowPlain s) (spot : Spot) (byte : UInt8) : LowPlain (put s spot byte) :=
  fun a ha => (plain_put spot byte a).mpr (h a ha)

theorem LowPlain.stack (h : LowPlain s) (sp : UInt8) :
    Processor.Memory.Plain s.machine.bus (Machine.stackAddress sp) :=
  h _ (by have := sp.toNat_lt; rw [toNat_stackAddress]; omega)

theorem LowPlain.cell (h : LowPlain s) (cell : UInt8) :
    Processor.Memory.Plain s.machine.bus cell.toUInt16 :=
  h _ (by have := cell.toNat_lt; rw [UInt8.toNat_toUInt16]; omega)

/-- Straight lines do not move the window or the select register. -/
theorem sound_execLine {line : Line} (h : IsStraight line) (hsound : Sound s.machine.bus) :
    Sound (execLine k s line).machine.bus := by
  obtain ⟨op, operand, rfl, hdata, -⟩ := h
  cases operand with
  | virtual v => exact hsound
  | frame o => exact hsound
  | _ =>
    rcases bus_execute hdata s.machine (k.effective s.machine _) with h | ⟨value, h⟩ |
      ⟨a, value, -, -, h⟩
    all_goals
      change Sound (s.machine.execute op _).bus
      rw [h]
    · exact hsound
    · exact hsound.write _ _
    · exact hsound.write _ _

theorem sound_execAll {lines : List Line} (h : ∀ line ∈ lines, IsStraight line) :
    ∀ s : Store, Sound s.machine.bus → Sound (execAll k lines s).machine.bus := by
  induction lines with
  | nil => exact fun _ hs => hs
  | cons line rest ih =>
    intro s hs
    exact ih (fun l hl => h l (List.mem_cons_of_mem _ hl)) _
      (sound_execLine (h line (List.mem_cons_self ..)) hs)

/-! ### Lines that change registers -/

/-- The instructions between registers that the code around calls is made of. -/
def isTransfer : Opcode → Bool
  | .tax | .tay | .txa | .tya | .tsx | .inx => true
  | _ => false

/-- What such an instruction does to the registers. -/
def transferred (r : Registers) : Opcode → Registers
  | .tax => r.loadX r.a
  | .tay => r.loadY r.a
  | .txa => r.loadA r.x
  | .tya => r.loadA r.y
  | .tsx => r.loadX r.sp
  | .inx => r.loadX (r.x + 1)
  | _ => r

theorem exec_transfer (h : isTransfer op = true) :
    s.exec k op .implied = s.setRegs (transferred s.regs op) := by
  cases op <;> first | (cases h; done) | rfl

/-- The registers may change where nothing is known of them any more. -/
theorem knows_setRegs {cell : UInt8} {known known' : Knowledge} {r : Registers}
    (h : Knows k cell known s) (ha : known'.a = [] ∨ known'.a = known.a ∧ r.a = s.regs.a)
    (hpointer : known'.pointer = known.pointer)
    (hy : known'.y = none ∨ known'.y = known.y ∧ r.y = s.regs.y) :
    Knows k cell known' (s.setRegs r) where
  a operand hmem := by
    rcases ha with hnil | ⟨hsame, ha⟩
    · rw [hnil] at hmem
      exact (List.not_mem_nil hmem).elim
    · rw [hsame] at hmem
      obtain ⟨htracked, hvalue⟩ := h.a operand hmem
      refine ⟨htracked, ?_⟩
      rw [value_setRegs htracked, hvalue]
      exact ha.symm
  pointer lo hi hp := h.pointer lo hi (hpointer ▸ hp)
  y byte hbyte := by
    rcases hy with hnone | ⟨hsame, hy⟩
    · rw [hnone] at hbyte
      cases hbyte
    · exact hy.trans (h.y byte (hsame ▸ hbyte))

theorem knows_transfer {cell : UInt8} {known : Knowledge} (hop : isTransfer op = true)
    (h : Knows k cell known s) :
    Knows k cell (known.after cell (.op op .implied)) (s.setRegs (transferred s.regs op)) := by
  cases op
  case tax | tsx | inx => exact knows_setRegs h (Or.inr ⟨rfl, rfl⟩) rfl (Or.inr ⟨rfl, rfl⟩)
  case txa | tya => exact knows_setRegs h (Or.inl rfl) rfl (Or.inr ⟨rfl, rfl⟩)
  case tay => exact knows_setRegs h (Or.inr ⟨rfl, rfl⟩) rfl (Or.inl rfl)
  all_goals cases hop

theorem emits_transfer (d : Draft) (hop : isTransfer op = true) :
    Emits k 0 d (d.op op .implied) (fun _ => True) fun s t =>
      t = s.setRegs (transferred s.regs op) := by
  have hdata : isData op = true := by cases op <;> first | (cases hop; done) | rfl
  have hencode : (op.encode Mode.implied).isSome := by cases op <;> first | (cases hop; done) | rfl
  refine Emits.op d hdata hencode fun s hr _ => ?_
  rw [exec_transfer hop]
  exact ⟨knows_transfer hop hr.1, (Same.setRegs (n := 0) s _).plainScratch hr.2, rfl⟩

/-- A constant in X. -/
theorem emits_ldx (d : Draft) (byte : UInt8) :
    Emits k 0 d (d.op .ldx (.byte byte)) (fun _ => True) fun s t =>
      t = s.setRegs (s.regs.loadX byte) := by
  refine Emits.op d rfl rfl fun s hr _ => ⟨?_, (Same.setRegs (n := 0) s _).plainScratch hr.2, rfl⟩
  exact knows_setRegs hr.1 (Or.inr ⟨rfl, rfl⟩) rfl (Or.inr ⟨rfl, rfl⟩)

/-- X goes to a cell. -/
theorem emits_stx (d : Draft) (cell : UInt8) :
    Emits k 0 d (d.op .stx (.zeroPage cell)) (fun _ => True) fun s t =>
      t = put s (.memory cell.toUInt16) s.regs.x := by
  refine Emits.op d rfl rfl fun s hr _ => ⟨?_, ?_, rfl⟩
  · have hsimple : IsSimple (.zeroPage cell) := trivial
    refine knows_put hr.1 hr.2 hsimple rfl (fun a ha hscratch => ?_) _
    cases ha
    exact hscratch.imp (fun h => by rw [UInt8.toUInt16_inj.mp h]) fun h => by
      rw [UInt8.toUInt16_inj.mp h]
  · exact ⟨(plain_put (.memory cell.toUInt16) _ _).mpr hr.2.1,
      (plain_put (.memory cell.toUInt16) _ _).mpr hr.2.2⟩

/-! ### Pushes and pulls -/

/-- The byte that the stack pointer stands for. -/
def top (s : Store) : Spot := .memory (Machine.stackAddress s.regs.sp)

theorem keeps_top (h : LowPlain s) : Keeps s (top s) := h.stack _

theorem get_push (spot : Spot) (value : UInt8) :
    get { s with machine := s.machine.push value } spot =
      get (put s (top s) value) spot := by
  cases spot <;> rfl

/-- **A push** gives A to the byte that the stack pointer stands for, and moves the stack pointer
only. -/
theorem emits_push (d : Draft) :
    Emits k 0 d (d.op .pha .implied) LowPlain fun s t =>
      Same d.pointerCell n (put s (top s) s.regs.a) t ∧
        t.regs = { s.regs with sp := s.regs.sp - 1 } := by
  refine Emits.op d rfl rfl fun s hr hlow => ?_
  have hsame : Same d.pointerCell n (put s (top s) s.regs.a) (s.exec k .pha .implied) :=
    ⟨fun spot _ => get_push spot _, fun a => Iff.rfl⟩
  have hcell : ∀ cell : UInt8, (s.exec k .pha .implied).machine.bus.read cell.toUInt16 =
      s.machine.bus.read cell.toUInt16 := fun cell =>
    read_write_of_ne (hlow.cell cell) (cell_ne_stack _ _).symm _
  refine ⟨⟨fun operand hmem => ?_, fun lo hi hp => ?_, fun byte hy => hr.1.y byte hy⟩, ?_, hsame, rfl⟩
  · obtain ⟨htracked, hvalue⟩ := hr.1.a operand hmem
    refine ⟨htracked, Eq.trans ?_ hvalue⟩
    obtain ⟨v, rfl⟩ | ⟨byte, rfl⟩ := tracked_cases htracked <;> rfl
  · rw [hcell, hcell]
    exact hr.1.pointer lo hi hp
  · exact ⟨(plain_put (top s) _ _).mpr hr.2.1, (plain_put (top s) _ _).mpr hr.2.2⟩

theorem emits_pha (d : Draft) :
    Emits k 0 d (d.op .pha .implied) LowPlain fun s t =>
      Same d.pointerCell n (put s (top s) s.regs.a) t ∧ t.regs.sp = s.regs.sp - 1 :=
  (emits_push d).imp le_rfl (fun _ hs => hs) fun _ _ _ _ ht => ⟨ht.1, by rw [ht.2]⟩

/-- **A pull** loads A from the byte above, and moves the stack pointer. -/
theorem emits_pull (d : Draft) :
    Emits k 0 d (d.op .pla .implied) (fun _ => True) fun s t => t = s.setRegs
      (({ s.regs with sp := s.regs.sp + 1 } : Registers).loadA
        (get s (.memory (Machine.stackAddress (s.regs.sp + 1))))) := by
  refine Emits.op d rfl rfl fun s hr _ => ?_
  have hexec : s.exec k .pla .implied = s.setRegs (s.exec k .pla .implied).regs := rfl
  refine ⟨?_, (Same.setRegs (n := 0) s (s.exec k .pla .implied).regs).plainScratch hr.2, rfl⟩
  rw [hexec]
  exact knows_setRegs hr.1 (Or.inl rfl) rfl (Or.inr ⟨rfl, rfl⟩)

theorem emits_pla (d : Draft) :
    Emits k 0 d (d.op .pla .implied) (fun _ => True) fun s t => t = s.setRegs t.regs ∧
      t.regs.a = get s (.memory (Machine.stackAddress (s.regs.sp + 1))) ∧ t.regs.x = s.regs.x ∧
      t.regs.sp = s.regs.sp + 1 :=
  (emits_pull d).imp le_rfl (fun _ hs => hs) fun _ _ _ _ ht => by rw [ht]; exact ⟨rfl, rfl, rfl, rfl⟩

end Codegen6502.Proofs.Selecting.Stacking
