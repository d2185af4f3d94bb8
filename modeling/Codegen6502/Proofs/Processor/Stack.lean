import Codegen6502.Proofs.Processor.Fetching

/-!
# The stack as a list

The bytes between the stack pointer and the end of the stack page, the last one pushed first
(`stack`).  Pushing conses, pulling takes off, and a write anywhere else leaves the list alone, as
long as the stack page is plain memory (`Sound`).

`Kept` says which bytes of memory may have changed between two points of a run.
-/

namespace Codegen6502.Proofs.Processor.Stack

open Memory LineRun Fetching

variable {k : Linkage} {m m' : Machine} {b c d : Bus} {sp : UInt8}

/-! ### Memory with banks -/

/-- The zero page and the stack page are plain memory, and the select register is outside the
window. -/
structure Sound (b : Bus) : Prop where
  low : ∀ a : UInt16, a.toNat < 0x200 → Plain b a
  select : b.inWindow b.bankSelect = false

theorem plain_write (a : UInt16) (value : UInt8) (c : UInt16) :
    Plain (b.write a value) c ↔ Plain b c := by
  simp [Plain]

theorem Sound.write (h : Sound b) (a : UInt16) (value : UInt8) : Sound (b.write a value) where
  low c hc := (plain_write a value c).mpr (h.low c hc)
  select := by
    rw [bankSelect_write, inWindow_write]
    exact h.select

/-- A write to the select register selects a bank. -/
theorem selected_write_select {a : UInt16} (hwindow : b.inWindow a = false)
    (ha : a = b.bankSelect) (value : UInt8) : (b.write a value).selected = value := by
  unfold Bus.write
  rw [hwindow, if_pos ha]
  rfl

/-- A write elsewhere selects none. -/
theorem selected_write {a : UInt16} (ha : a ≠ b.bankSelect) (value : UInt8) :
    (b.write a value).selected = b.selected := by
  unfold Bus.write
  rw [if_neg ha]
  split_ifs <;> rfl

theorem toNat_stackAddress (sp : UInt8) : (Machine.stackAddress sp).toNat = 0x100 + sp.toNat := by
  have hsp := sp.toNat_lt
  unfold Machine.stackAddress
  rw [UInt16.toNat_or, UInt8.toNat_toUInt16, show (0x0100 : UInt16).toNat = 1 <<< 8 from rfl,
    ← Nat.shiftLeft_add_eq_or_of_lt hsp]
  rfl

theorem stackAddress_inj {sp sp' : UInt8} :
    Machine.stackAddress sp = Machine.stackAddress sp' ↔ sp = sp' := by
  rw [← UInt16.toNat_inj, ← UInt8.toNat_inj, toNat_stackAddress, toNat_stackAddress]
  omega

theorem Sound.plain_stack (h : Sound b) (sp : UInt8) : Plain b (Machine.stackAddress sp) :=
  h.low _ (by rw [toNat_stackAddress]; have := sp.toNat_lt; omega)

theorem Sound.plain_cell (h : Sound b) (cell : UInt8) : Plain b cell.toUInt16 :=
  h.low _ (by rw [UInt8.toNat_toUInt16]; have := cell.toNat_lt; omega)

theorem cell_ne_stack (cell sp : UInt8) : cell.toUInt16 ≠ Machine.stackAddress sp := by
  intro h
  have hnat := congrArg UInt16.toNat h
  have hcell := cell.toNat_lt
  rw [toNat_stackAddress, UInt8.toNat_toUInt16] at hnat
  omega

/-! ### The bytes on the stack -/

/-- The bytes of the stack page above an offset. -/
def above (b : Bus) (sp : UInt8) : List UInt8 :=
  (List.range' (sp.toNat + 1) (0xFF - sp.toNat)).map fun i =>
    b.read (Machine.stackAddress (UInt8.ofNat i))

/-- The bytes on the stack, the last one pushed first. -/
def stack (m : Machine) : List UInt8 := above m.bus m.regs.sp

theorem length_above (b : Bus) (sp : UInt8) : (above b sp).length = 0xFF - sp.toNat := by
  simp [above]

theorem above_congr (h : ∀ i, sp < i → c.read (Machine.stackAddress i) =
    b.read (Machine.stackAddress i)) : above c sp = above b sp := by
  refine List.map_congr_left fun i hi => h _ ?_
  obtain ⟨hlo, hhi⟩ := List.mem_range'_1.mp hi
  have hsp := sp.toNat_lt
  rw [UInt8.lt_iff_toNat_lt, UInt8.toNat_ofNat', Nat.mod_eq_of_lt (by omega)]
  omega

theorem above_succ (b : Bus) (h : sp < 0xFF) :
    above b sp = b.read (Machine.stackAddress (sp + 1)) :: above b (sp + 1) := by
  have hlt : sp.toNat < 0xFF := UInt8.lt_iff_toNat_lt.mp h
  have hnext : (sp + 1).toNat = sp.toNat + 1 := by
    rw [UInt8.toNat_add]
    exact Nat.mod_eq_of_lt (by simpa using Nat.succ_lt_succ hlt)
  have hlength : 0xFF - sp.toNat = (0xFF - (sp + 1).toNat) + 1 := by omega
  have hbyte : UInt8.ofNat (sp.toNat + 1) = sp + 1 := by rw [← hnext, UInt8.ofNat_toNat]
  unfold above
  rw [hlength, List.range'_succ, List.map_cons, hbyte, hnext]

theorem toNat_pred (h : 0 < sp.toNat) : (sp - 1).toNat = sp.toNat - 1 :=
  UInt8.toNat_sub_of_le _ _ (UInt8.le_iff_toNat_le.mpr h)

/-- A byte that is pushed comes on top. -/
theorem stack_push (hsound : Sound m.bus) (hroom : 0 < m.regs.sp.toNat) (value : UInt8) :
    stack (m.push value) = value :: stack m := by
  have hsp := m.regs.sp.toNat_lt
  have hlt : m.regs.sp - 1 < 0xFF := by
    rw [UInt8.lt_iff_toNat_lt, toNat_pred hroom]
    simp only [UInt8.reduceToNat]
    omega
  change above (m.bus.write (Machine.stackAddress m.regs.sp) value) (m.regs.sp - 1) = _
  rw [above_succ _ hlt, UInt8.sub_add_cancel, read_write (hsound.plain_stack _), if_pos rfl]
  refine congrArg _ (above_congr fun i hi => ?_)
  rw [read_write (hsound.plain_stack _), if_neg]
  exact fun h => absurd (stackAddress_inj.mp h) (UInt8.ne_of_lt hi)

/-- What is on top of the stack is what a pull gives. -/
theorem pull_of_stack {value : UInt8} {rest : List UInt8} (h : stack m = value :: rest) :
    m.pull.1 = value ∧ stack m.pull.2 = rest := by
  have hlt : m.regs.sp < 0xFF := by
    have hlength := congrArg List.length h
    rw [stack, length_above, List.length_cons] at hlength
    rw [UInt8.lt_iff_toNat_lt]
    simp only [UInt8.reduceToNat]
    omega
  rw [stack, above_succ _ hlt] at h
  exact List.cons.inj h

/-- The same bytes on the stack means the same stack pointer. -/
theorem sp_of_stack (h : stack m = stack m') : m.regs.sp = m'.regs.sp := by
  have hlength := congrArg List.length h
  have hsp := m.regs.sp.toNat_lt
  have hsp' := m'.regs.sp.toNat_lt
  rw [stack, stack, length_above, length_above] at hlength
  exact UInt8.toNat_inj.mp (by omega)

/-- A write below the stack or outside the stack page. -/
theorem above_write (hsound : Sound b) {a : UInt16}
    (h : ∀ i, sp < i → a ≠ Machine.stackAddress i) (value : UInt8) :
    above (b.write a value) sp = above b sp :=
  above_congr fun i hi => read_write_of_ne (hsound.plain_stack i) (h i hi) value

/-! ### What a run may change -/

/-- Memory is as before outside some addresses. -/
structure Kept (written : UInt16 → Prop) (b c : Bus) : Prop where
  banks : c.banks = b.banks
  window : c.window = b.window
  windowSize : c.windowSize = b.windowSize
  bankSelect : c.bankSelect = b.bankSelect
  ram : ∀ a, ¬ written a → c.ram.get a = b.ram.get a

section Keeping

variable {written wider : UInt16 → Prop}

theorem Kept.refl (b : Bus) : Kept written b b := ⟨rfl, rfl, rfl, rfl, fun _ _ => rfl⟩

theorem Kept.trans (h : Kept written b c) (h' : Kept written c d) : Kept written b d :=
  ⟨h'.banks.trans h.banks, h'.window.trans h.window, h'.windowSize.trans h.windowSize,
    h'.bankSelect.trans h.bankSelect, fun a ha => (h'.ram a ha).trans (h.ram a ha)⟩

theorem Kept.mono (h : Kept written b c) (hsub : ∀ a, written a → wider a) : Kept wider b c :=
  ⟨h.banks, h.window, h.windowSize, h.bankSelect, fun a ha => h.ram a fun hw => ha (hsub a hw)⟩

theorem kept_write (b : Bus) {a : UInt16} (ha : written a) (value : UInt8) :
    Kept written b (b.write a value) := by
  refine ⟨banks_write .., window_write .., windowSize_write .., bankSelect_write .., fun e he => ?_⟩
  have hne : a ≠ e := fun h => he (h ▸ ha)
  unfold Bus.write
  split_ifs
  · rfl
  · simp only [get_put, if_neg hne]
  · simp only [get_put, if_neg hne]

theorem Kept.write (h : Kept written b c) {a : UInt16} (ha : written a) (value : UInt8) :
    Kept written b (c.write a value) := h.trans (kept_write c ha value)

theorem Kept.inWindow (h : Kept written b c) (a : UInt16) : c.inWindow a = b.inWindow a :=
  inWindow_congr h.window h.windowSize a

theorem Kept.plain (h : Kept written b c) (a : UInt16) : Plain c a ↔ Plain b a := by
  unfold Plain
  rw [h.inWindow, h.bankSelect]

theorem Kept.sound (h : Kept written b c) (hsound : Sound b) : Sound c where
  low a ha := (h.plain a).mpr (hsound.low a ha)
  select := by rw [h.inWindow, h.bankSelect, hsound.select]

theorem Kept.read (h : Kept written b c) {a : UInt16} (ha : ¬ written a)
    (hwindow : b.inWindow a = false) : c.read a = b.read a := by
  unfold Bus.read
  rw [h.inWindow, hwindow]
  exact h.ram a ha

end Keeping

/-! ### Calls and returns -/

theorem stack_pushWord (hsound : Sound m.bus) (hroom : 2 ≤ m.regs.sp.toNat) (w : UInt16) :
    stack (m.pushWord w) = wordBytes w ++ stack m := by
  have hsp : (m.push (highByte w)).regs.sp.toNat = m.regs.sp.toNat - 1 :=
    toNat_pred (show 0 < m.regs.sp.toNat by omega)
  unfold Machine.pushWord
  rw [stack_push (hsound.write ..) (by omega), stack_push hsound (by omega)]
  rfl

theorem address_symbol (k : Linkage) (name : String) : k.address (.symbol name 0) = k.symbol name :=
  UInt16.add_zero _

/-- **A call** leaves the address of its last byte on the stack. -/
theorem after_jsr {area : UInt16 → Prop} {name : String} {lines : List Line} (hsound : Sound m.bus)
    (hroom : 2 ≤ m.regs.sp.toNat)
    (hlies : Lies k area m.bus.read m.regs.pc (.jsr name :: lines)) :
    ∃ m', after 1 m = some m' ∧
      m'.regs = { m.regs with sp := m.regs.sp - 1 - 1, pc := k.symbol name } ∧
      m'.bus = (m.pushWord (m.regs.pc + 2)).bus ∧
      stack m' = wordBytes (m.regs.pc + 2) ++ stack m := by
  have hback : m.regs.pc + 3 - 1 = m.regs.pc + 2 := by
    rw [UInt16.sub_eq_add_neg, UInt16.add_assoc]
    rfl
  have hstep := step_line hlies (by rintro ⟨⟩) (by rintro ⟨⟩)
  refine ⟨_, after_one hstep, ?_, ?_, ?_⟩
  · change ({ m.regs with sp := m.regs.sp - 1 - 1, pc := k.address (.symbol name 0) } : Registers) = _
    rw [address_symbol]
  · change (m.pushWord (m.regs.pc + 3 - 1)).bus = _
    rw [hback]
  · change stack (m.pushWord (m.regs.pc + 3 - 1)) = _
    rw [hback, stack_pushWord hsound hroom]

/-- **A return** goes behind the address on top of the stack. -/
theorem after_rts {area : UInt16 → Prop} {lines : List Line} {lo hi : UInt8} {rest : List UInt8}
    (hlies : Lies k area m.bus.read m.regs.pc (.bare .rts :: lines))
    (hstack : stack m = lo :: hi :: rest) :
    ∃ m', after 1 m = some m' ∧
      m'.regs = { m.regs with sp := m.regs.sp + 1 + 1, pc := word lo hi + 1 } ∧ m'.bus = m.bus ∧
      stack m' = rest := by
  have hstep := step_line hlies (by decide) (by decide)
  obtain ⟨hlo, hstack'⟩ := pull_of_stack hstack
  obtain ⟨hhi, hrest⟩ := pull_of_stack hstack'
  refine ⟨_, after_one hstep, ?_, rfl, hrest⟩
  change ({ m.regs with sp := m.regs.sp + 1 + 1, pc := word m.pull.1 m.pull.2.pull.1 + 1 } :
    Registers) = _
  rw [hlo, hhi]

end Codegen6502.Proofs.Processor.Stack
