import Codegen6502.Support
import Codegen6502.Proofs.Processor.Stack

/-!
# Switching banks

Support routines stand in common memory (`Common`) and write only to the first two pages of memory
and to the select register (`Low`), so they never change their own code (`Present.kept`,
`kept_acts`).

`acts_selectBank` is what the sequence does that all of them share: the bank number goes to the copy
in the zero page and to the select register, and every register but A is as before, the flags
included.
-/

namespace Codegen6502.Proofs.Routines.Switching

open Processor.Memory Processor.LineRun Processor.Fetching Processor.Stack

variable {k : Linkage} {m : Machine} {b c : Bus} {z : ZeroPage}

/-! ### Where routines stand -/

/-- Plain memory behind the stack page, where common code stands. -/
def Common (b : Bus) (a : UInt16) : Prop := 0x200 ≤ a.toNat ∧ Plain b a

instance (b : Bus) : DecidablePred (Common b) := fun a =>
  inferInstanceAs (Decidable (0x200 ≤ a.toNat ∧ b.inWindow a = false ∧ a ≠ b.bankSelect))

/-- The addresses that switching a bank writes to. -/
def Low (b : Bus) (a : UInt16) : Prop := a.toNat < 0x200 ∨ a = b.bankSelect

/-- A routine stands in common memory. -/
def Present (k : Linkage) (z : ZeroPage) (r : Routine) (b : Bus) : Prop :=
  Lies k (Common b) b.read (k.symbol r.name) (r.code z b.bankSelect)

section Keeping

variable {written : UInt16 → Prop}

theorem low_iff (h : Kept written b c) (a : UInt16) : Low c a ↔ Low b a := by
  unfold Low
  rw [h.bankSelect]

theorem common_iff (h : Kept written b c) (a : UInt16) : Common c a ↔ Common b a :=
  and_congr_right fun _ => h.plain a

end Keeping

theorem low_stackAddress (b : Bus) (sp : UInt8) : Low b (Machine.stackAddress sp) :=
  Or.inl (by have := sp.toNat_lt; rw [toNat_stackAddress]; omega)

theorem not_low_of_common {a : UInt16} (ha : Common b a) : ¬ Low b a := by
  obtain ⟨hlow, -, hselect⟩ := ha
  rintro (h | h)
  · omega
  · exact hselect h

theorem read_common (h : Kept (Low b) b c) {a : UInt16} (ha : Common b a) : c.read a = b.read a :=
  h.read (not_low_of_common ha) ha.2.1

/-- **A routine stays where it is** while only low memory and the select register are written. -/
theorem Present.kept {r : Routine} (hpresent : Present k z r b) (h : Kept (Low b) b c) :
    Present k z r c := by
  unfold Present
  rw [h.bankSelect]
  exact Lies.congr (fun a ha => ⟨(common_iff h a).mpr ha, read_common h ha⟩) hpresent

/-! ### Lines that write to low memory only -/

/-- Whether an operand is in low memory or the select register, or no memory. -/
def isNear (select : UInt16) : Operand → Bool
  | .implied | .accumulator | .immediate _ | .zeroPage _ => true
  | .absolute (.absolute a) => a = select
  | _ => false

/-- Whether control passes through a line that writes to low memory or the select register only. -/
def isLocal (select : UInt16) : Line → Bool
  | .op op operand => isData op && (!op.writesMemory || isNear select operand)
  | _ => false

theorem isPassed_of_isLocal {select : UInt16} {line : Line} (h : isLocal select line = true) :
    isPassed line = true := by
  cases line with
  | op op operand => exact (Bool.and_eq_true_iff.mp h).1
  | _ => cases h

theorem low_effective {select : UInt16} {operand : Operand} (hnear : isNear select operand = true)
    (hselect : m.bus.bankSelect = select) {a : UInt16}
    (ha : k.effective m operand = .address a) : Low m.bus a := by
  have hcell : ∀ cell : UInt8, EffectiveOperand.address cell.toUInt16 = .address a →
      Low m.bus a := by
    intro cell hcell
    cases hcell
    have := cell.toNat_lt
    exact Or.inl (by rw [UInt8.toNat_toUInt16]; omega)
  cases operand with
  | zeroPage cell => exact hcell cell ha
  | absolute address =>
    cases address with
    | absolute value =>
      cases ha
      exact Or.inr ((of_decide_eq_true hnear).trans hselect.symm)
    | _ => cases hnear
  | implied | accumulator | immediate i => cases ha
  | _ => cases hnear

theorem kept_act {line : Line} (hlocal : isLocal m.bus.bankSelect line = true) :
    Kept (Low m.bus) m.bus (act k m line).bus := by
  cases line with
  | op op operand =>
    obtain ⟨hdata, hnear⟩ := Bool.and_eq_true_iff.mp hlocal
    change Kept _ _ (m.execute op (k.effective m operand)).bus
    rcases bus_execute hdata m (k.effective m operand) with h | ⟨value, h⟩ | ⟨a, value, ha, hw, h⟩
    · rw [h]
      exact .refl _
    · rw [h]
      have hsp := m.regs.sp.toNat_lt
      exact kept_write _ (Or.inl (by rw [toNat_stackAddress]; omega)) value
    · rw [h]
      rw [hw] at hnear
      exact kept_write _ (low_effective hnear rfl ha) value
  | _ => cases hlocal

/-- **Lines that write to low memory** keep everything else. -/
theorem kept_acts {lines : List Line} : ∀ {m : Machine},
    (∀ line ∈ lines, isLocal m.bus.bankSelect line = true) →
    Kept (Low m.bus) m.bus (acts k lines m).bus ∧ Spares k (Common m.bus) lines m := by
  induction lines with
  | nil => exact fun _ => ⟨.refl _, trivial⟩
  | cons line rest ih =>
    intro m hlocal
    have hfirst : Kept (Low m.bus) m.bus (act k m line).bus :=
      kept_act (hlocal line (List.mem_cons_self ..))
    have hrest : ∀ l ∈ rest, isLocal (act k m line).bus.bankSelect l = true := by
      rw [hfirst.bankSelect]
      exact fun l hl => hlocal l (List.mem_cons_of_mem _ hl)
    obtain ⟨hkept, hspares⟩ := ih hrest
    have hlow : Kept (Low m.bus) (act k m line).bus (acts k rest (act k m line)).bus :=
      hkept.mono fun a => (low_iff hfirst a).mp
    exact ⟨hfirst.trans hlow, fun a ha => read_common hfirst ha,
      hspares.mono fun a ha => (common_iff hfirst a).mpr ha⟩

/-- **A local stretch of a routine** that stands in memory. -/
theorem after_local {lines rest : List Line}
    (hlies : Lies k (Common m.bus) m.bus.read m.regs.pc (lines ++ rest))
    (hlocal : ∀ line ∈ lines, isLocal m.bus.bankSelect line = true) :
    after lines.length m = some (ran k lines m) ∧
      Lies k (Common (ran k lines m).bus) (ran k lines m).bus.read (ran k lines m).regs.pc rest ∧
      Kept (Low m.bus) m.bus (acts k lines m).bus := by
  obtain ⟨hkept, hspares⟩ := kept_acts (k := k) hlocal
  obtain ⟨hafter, hrest⟩ := after_lines hlies
    (fun line hline => isPassed_of_isLocal (hlocal line hline)) hspares
  exact ⟨hafter, hrest.congr fun a ha => ⟨(common_iff hkept a).mpr ha, rfl⟩, hkept⟩

/-! ### The bank is selected -/

/-- Memory after a bank has been selected. -/
def switched (z : ZeroPage) (m : Machine) (bank : UInt8) : Bus :=
  ((m.bus.write (Machine.stackAddress m.regs.sp) m.regs.pushedStatus).write z.bankShadow.toUInt16
    bank).write m.bus.bankSelect bank

/-- The registers after a bank has been selected. -/
def switchedRegs (r : Registers) (bank : UInt8) : Registers :=
  { r with a := bank, p := Registers.pulledStatus r.pushedStatus }

/-- The machine with its status on the stack and interrupts masked. -/
def masked (m : Machine) : Machine :=
  (m.push m.regs.pushedStatus).mapRegs (·.setFlag .i true)

theorem selectBank_eq (select : UInt16) (load : List Line) :
    acts k (Routine.selectBank z select load) m =
      acts k [.op .sta (.zeroPage z.bankShadow), .op .sta (.fixed select), .bare .plp]
        (acts k load (masked m)) := by
  unfold Routine.selectBank
  rw [acts_append, acts_append]
  rfl

theorem select_ne_stack (hsound : Sound b) (sp : UInt8) : b.bankSelect ≠ Machine.stackAddress sp :=
  fun h => (hsound.plain_stack sp).2 h.symm

theorem select_ne_cell (hsound : Sound b) (cell : UInt8) : b.bankSelect ≠ cell.toUInt16 :=
  fun h => (hsound.plain_cell cell).2 h.symm

/-- The status comes back from under the writes. -/
theorem read_switched_stack (hsound : Sound m.bus) (bank : UInt8) :
    (switched z m bank).read (Machine.stackAddress m.regs.sp) = m.regs.pushedStatus := by
  have hone := hsound.write (Machine.stackAddress m.regs.sp) m.regs.pushedStatus
  have htwo := hone.write z.bankShadow.toUInt16 bank
  unfold switched
  rw [read_write_of_ne (htwo.plain_stack _) (select_ne_stack hsound _),
    read_write_of_ne (hone.plain_stack _) (cell_ne_stack _ _),
    read_write (hsound.plain_stack _), if_pos rfl]

/-- **The bank is selected** and the status restored. -/
theorem acts_selectBank (hsound : Sound m.bus) {load : List Line} {bank p : UInt8}
    (hload : acts k load (masked m) =
      { masked m with regs := { (masked m).regs with a := bank, p } }) :
    (acts k (Routine.selectBank z m.bus.bankSelect load) m).regs = switchedRegs m.regs bank ∧
      (acts k (Routine.selectBank z m.bus.bankSelect load) m).bus = switched z m bank := by
  have hsp : m.regs.sp - 1 + 1 = m.regs.sp := UInt8.sub_add_cancel ..
  have hstatus := read_switched_stack (z := z) hsound bank
  rw [selectBank_eq, hload]
  refine ⟨?_, rfl⟩
  change ({ m.regs with
    a := bank
    sp := m.regs.sp - 1 + 1
    p := Registers.pulledStatus
      ((switched z m bank).read (Machine.stackAddress (m.regs.sp - 1 + 1))) } : Registers) = _
  rw [hsp, hstatus]
  rfl

theorem acts_selectBank_byte (hsound : Sound m.bus) (bank : UInt8) :
    (acts k (Routine.selectBank z m.bus.bankSelect [.op .lda (.byte bank)]) m).regs =
        switchedRegs m.regs bank ∧
      (acts k (Routine.selectBank z m.bus.bankSelect [.op .lda (.byte bank)]) m).bus =
        switched z m bank :=
  acts_selectBank hsound (p := ((masked m).regs.loadA bank).p) rfl

theorem acts_selectBank_a (hsound : Sound m.bus) :
    (acts k (Routine.selectBank z m.bus.bankSelect []) m).regs = switchedRegs m.regs m.regs.a ∧
      (acts k (Routine.selectBank z m.bus.bankSelect []) m).bus = switched z m m.regs.a :=
  acts_selectBank hsound (p := (masked m).regs.p) rfl

/-- A real flag is as before. -/
theorem flag_switchedRegs (r : Registers) (bank : UInt8) {f : Flag} (hf : IsReal f) :
    (switchedRegs r bank).flag f = r.flag f := flag_pulled_pushed r { r with a := bank } hf

theorem selected_switched (hsound : Sound m.bus) (bank : UInt8) :
    (switched z m bank).selected = bank := by
  refine selected_write_select ?_ (by simp) bank
  rw [inWindow_write, inWindow_write]
  exact hsound.select

theorem read_switched_shadow (hsound : Sound m.bus) (bank : UInt8) :
    (switched z m bank).read z.bankShadow.toUInt16 = bank := by
  have hone := hsound.write (Machine.stackAddress m.regs.sp) m.regs.pushedStatus
  have htwo := hone.write z.bankShadow.toUInt16 bank
  unfold switched
  rw [read_write_of_ne (htwo.plain_cell _) (select_ne_cell hsound _), read_write (hone.plain_cell _),
    if_pos rfl]

/-- Every other cell of the zero page is as before. -/
theorem read_switched_cell (hsound : Sound m.bus) (bank : UInt8) {cell : UInt8}
    (hcell : cell ≠ z.bankShadow) :
    (switched z m bank).read cell.toUInt16 = m.bus.read cell.toUInt16 := by
  have hone := hsound.write (Machine.stackAddress m.regs.sp) m.regs.pushedStatus
  have htwo := hone.write z.bankShadow.toUInt16 bank
  unfold switched
  rw [read_write_of_ne (htwo.plain_cell _) (select_ne_cell hsound _),
    read_write_of_ne (hone.plain_cell _) fun h => hcell (UInt8.toUInt16_inj.mp h).symm,
    read_write_of_ne (hsound.plain_cell _) (cell_ne_stack _ _).symm]

/-- What is on the stack stays there. -/
theorem above_switched (hsound : Sound m.bus) (bank : UInt8) :
    above (switched z m bank) m.regs.sp = above m.bus m.regs.sp := by
  have hone := hsound.write (Machine.stackAddress m.regs.sp) m.regs.pushedStatus
  have htwo := hone.write z.bankShadow.toUInt16 bank
  unfold switched
  rw [above_write htwo fun i _ => select_ne_stack hsound i,
    above_write hone fun i _ => cell_ne_stack _ i,
    above_write hsound fun i hi h => absurd (stackAddress_inj.mp h) (UInt8.ne_of_lt hi)]

/-! ### Memory from a table -/

/-- A memory with a window at `$A000` and the select register at `$D500`. -/
def filled (mem : UInt16 → UInt8) (banks : Std.TreeMap UInt8 (Array UInt8)) : Bus :=
  { Bus.create 0xA000 0x2000 0xD500 with ram := Vector.ofFn fun i => mem (UInt16.ofFin i), banks }

variable {mem : UInt16 → UInt8} {banks : Std.TreeMap UInt8 (Array UInt8)}

theorem read_filled {a : UInt16} (h : (filled mem banks).inWindow a = false) :
    (filled mem banks).read a = mem a := by
  unfold Bus.read
  rw [h, if_neg Bool.false_ne_true]
  exact get_table mem a

/-- What is in front of the window is plain. -/
theorem plain_filled {a : UInt16} (ha : a.toNat < 0xA000) : Plain (filled mem banks) a := by
  have hwindow : ¬ (0xA000 : UInt16) ≤ a := by
    rw [UInt16.le_iff_toNat_le]
    exact fun h => absurd (lt_of_le_of_lt h ha) (by decide)
  refine ⟨?_, ?_⟩
  · change (decide ((0xA000 : UInt16) ≤ a) && _) = false
    rw [decide_eq_false hwindow, Bool.false_and]
  · rintro rfl
    exact absurd ha (show ¬ (0xD500 : UInt16).toNat < 0xA000 by decide)

theorem sound_filled : Sound (filled mem banks) where
  low a ha := plain_filled (lt_trans ha (by decide))
  select := show (decide ((0xA000 : UInt16) ≤ 0xD500) && decide ((0xD500 : UInt16).toNat <
    (0xA000 : UInt16).toNat + (0x2000 : UInt16).toNat)) = false by decide

theorem lies_filled {area : UInt16 → Prop} (harea : ∀ a, area a → Common (filled mem banks) a)
    {pc : UInt16} {lines : List Line} (h : Lies k area mem pc lines) :
    Lies k area (filled mem banks).read pc lines :=
  h.congr fun a ha => ⟨ha, read_filled (harea a ha).2.1⟩

end Codegen6502.Proofs.Routines.Switching
