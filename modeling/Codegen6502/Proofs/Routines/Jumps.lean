import Codegen6502.Proofs.Processor.Tracing
import Codegen6502.Proofs.Routines.Switching

/-!
# Capturing and restoring a state

`__setjmp` writes the stack pointer, the return address, the registers and the bank to a buffer and
returns zero; `__longjmp` takes them from there and returns once more from where the state was
captured.

* `captures`: what is in the buffer and in the registers when the capture returns;
* `restores`: a jump gets back behind the capture, whatever has happened to the registers, the bank
  and the stack below it, and changes nothing else.

The value that is handed over comes in the third argument slot, which neither routine nor layout
asks to exist.  In a layout with two slots it may be the copy of the bank register, and what arrives
is then the bank (`bank_arrives`).
-/

namespace Codegen6502.Proofs.Routines.Jumps

open Processor.Memory Processor.LineRun Processor.Fetching Processor.Stack Processor.Tracing Switching

variable {k : Linkage} {z : ZeroPage} {b c : Bus} {buf : UInt16} {area : UInt16 → Prop}
  {m₀ : Machine} {rest : List Line} {a x y sp : UInt8} {i : Bool}

/-! ### The buffer -/

/-- The addresses of a buffer. -/
def InBuffer (buf a : UInt16) : Prop := a - buf < JumpBuffer.size

instance (buf : UInt16) : DecidablePred (InBuffer buf) := fun a =>
  inferInstanceAs (Decidable (a - buf < JumpBuffer.size))

/-- A buffer in plain memory, away from everything that the routines use. -/
structure Clear (z : ZeroPage) (b : Bus) (buf : UInt16) : Prop where
  plain : ∀ e, InBuffer buf e → Plain b e
  page : ∀ sp, ¬ InBuffer buf (Machine.stackAddress sp)
  slots : ∀ cell ∈ z.argCells, ¬ InBuffer buf cell.toUInt16
  shadow : ¬ InBuffer buf z.bankShadow.toUInt16

/-- The first two argument slots have the address of the buffer. -/
structure Points (z : ZeroPage) (b : Bus) (buf : UInt16) : Prop where
  lo : b.read (z.arg 0).toUInt16 = lowByte buf
  hi : b.read (z.arg 1).toUInt16 = highByte buf

/-- The buffer has bytes at offsets. -/
def Holds (b : Bus) (buf : UInt16) (entries : List (UInt8 × UInt8)) : Prop :=
  ∀ e ∈ entries, InBuffer buf (buf + e.1.toUInt16) ∧ b.read (buf + e.1.toUInt16) = e.2

theorem offset_inj {o o' : UInt8} : buf + o.toUInt16 = buf + o'.toUInt16 ↔ o = o' := by
  refine ⟨fun h => ?_, fun h => by rw [h]⟩
  have hnat := congrArg UInt16.toNat ((UInt16.add_right_inj buf).mp h)
  rw [UInt8.toNat_toUInt16, UInt8.toNat_toUInt16] at hnat
  exact UInt8.toNat_inj.mp hnat

theorem inBuffer_offset {o : UInt8} (h : o.toUInt16 < JumpBuffer.size) :
    InBuffer buf (buf + o.toUInt16) := by
  unfold InBuffer
  rw [UInt16.add_comm, UInt16.add_sub_cancel]
  exact h

theorem arg_succ (z : ZeroPage) : z.arg 0 + 1 = z.arg 1 := UInt8.add_assoc ..

theorem target_buffer (h : Points z b buf) :
    target k x y b (.indirectY (z.arg 0)) = buf + y.toUInt16 := by
  change word (b.read _) (b.read (z.arg 0 + 1).toUInt16) + _ = _
  rw [arg_succ, h.lo, h.hi, word_bytes]

section Keeping

variable {written : UInt16 → Prop}

theorem Points.kept (h : Points z b buf) (hsound : Sound b) (hkept : Kept written b c)
    (hlo : ¬ written (z.arg 0).toUInt16) (hhi : ¬ written (z.arg 1).toUInt16) : Points z c buf where
  lo := (hkept.read hlo (hsound.plain_cell _).1).trans h.lo
  hi := (hkept.read hhi (hsound.plain_cell _).1).trans h.hi

theorem Holds.kept {entries : List (UInt8 × UInt8)} (h : Holds b buf entries)
    (hclear : Clear z b buf) (hkept : Kept written b c)
    (hwritten : ∀ e, InBuffer buf e → ¬ written e) : Holds c buf entries := fun e he =>
  ⟨(h e he).1, (hkept.read (hwritten _ (h e he).1) (hclear.plain _ (h e he).1).1).trans (h e he).2⟩

end Keeping

/-! ### Layouts -/

theorem arg_mem {slot : UInt8} (h : slot < z.argSlots) : z.arg slot ∈ z.argCells :=
  List.mem_map.mpr ⟨slot.toNat, List.mem_range.mpr (UInt8.lt_iff_toNat_lt.mp h), by
    rw [UInt8.ofNat_toNat]⟩

/-- The copy of the bank register is no argument slot. -/
theorem shadow_not_arg (h : z.fault? = none) : z.bankShadow ∉ z.argCells := by
  intro hmem
  obtain ⟨i, hi, hcell⟩ := List.mem_map.mp hmem
  have hlt := List.mem_range.mp hi
  have hbase := z.argBase.toNat_lt
  unfold ZeroPage.fault? at h
  dsimp only at h
  split_ifs at h with hpage hargs
  have hend : z.argBase.toNat + z.argSlots.toNat ≤ 0x100 := by
    simp only [Bool.or_eq_true, decide_eq_true_eq, not_or] at hpage
    omega
  have hshadow : z.bankShadow.toNat = z.argBase.toNat + i := by
    rw [← hcell, ZeroPage.arg, UInt8.toNat_add, UInt8.toNat_ofNat']
    omega
  refine hargs (Bool.or_eq_true_iff.mpr (Or.inr ?_))
  rw [hshadow]
  simp only [Bool.and_eq_true, decide_eq_true_eq]
  omega

/-! ### The capture -/

/-- Common memory outside a buffer. -/
def Outside (b : Bus) (buf a : UInt16) : Prop := Common b a ∧ ¬ InBuffer buf a

instance (b : Bus) (buf : UInt16) : DecidablePred (Outside b buf) := fun a =>
  inferInstanceAs (Decidable (Common b a ∧ ¬ InBuffer buf a))

/-- A state is about to be captured, to be returned to behind `r`. -/
structure Capturing (k : Linkage) (z : ZeroPage) (buf r : UInt16) (bytes : List UInt8) (m : Machine) :
    Prop where
  sound : Sound m.bus
  clear : Clear z m.bus buf
  points : Points z m.bus buf
  stack : stack m = wordBytes r ++ bytes
  code : Lies k (Outside m.bus buf) m.bus.read m.regs.pc (Routine.setJmp.code z m.bus.bankSelect)

/-- What the capture of a state writes to. -/
def Recorded (buf : UInt16) (m : Machine) (e : UInt16) : Prop :=
  InBuffer buf e ∨ e = Machine.stackAddress m.regs.sp

section Capture

variable {r : UInt16} {bytes : List UInt8} {m : Machine} {entries : List (UInt8 × UInt8)}

theorem not_recorded {cell : UInt8} (hcell : ¬ InBuffer buf cell.toUInt16) :
    ¬ Recorded buf m cell.toUInt16 := by
  rintro (hin | hstack)
  · exact hcell hin
  · exact cell_ne_stack _ _ hstack

/-- What is on the stack stays there. -/
theorem Capturing.above (h : Capturing k z buf r bytes m) (hkept : Kept (Recorded buf m) m.bus c) :
    above c m.regs.sp = wordBytes r ++ bytes := by
  rw [← h.stack]
  refine above_congr fun j hj => hkept.read ?_ (h.sound.plain_stack j).1
  rintro (hin | hstack)
  · exact h.clear.page j hin
  · exact absurd (stackAddress_inj.mp hstack).symm (UInt8.ne_of_lt hj)

/-- A byte goes to the buffer, which is not on the stack. -/
theorem Capturing.record (h : Capturing k z buf r bytes m) (hslots : 2 ≤ z.argSlots)
    (hat : At k (Outside m.bus buf) m (.op .sta (.indirectY (z.arg 0)) :: rest) ⟨a, x, y, sp, i, c⟩)
    (hkept : Kept (Recorded buf m) m.bus c) (hholds : Holds c buf entries) {o : UInt8} (ho : y = o)
    (hoffset : o.toUInt16 < JumpBuffer.size) (hfresh : o ∉ entries.map Prod.fst) :
    ∃ c', At k (Outside m.bus buf) m rest ⟨a, x, o, sp, i, c'⟩ ∧ Kept (Recorded buf m) m.bus c' ∧
      Holds c' buf ((o, a) :: entries) ∧
      ∀ j, c'.read (Machine.stackAddress j) = c.read (Machine.stackAddress j) := by
  subst ho
  have hin : InBuffer buf (buf + y.toUInt16) := inBuffer_offset hoffset
  have hplain : ∀ e, InBuffer buf e → Plain c e := fun e he =>
    (hkept.plain e).mpr (h.clear.plain e he)
  have hone : (1 : UInt8) < z.argSlots := UInt8.lt_of_lt_of_le (by decide) hslots
  have hzero : (0 : UInt8) < z.argSlots := UInt8.lt_of_lt_of_le (by decide) hslots
  have hpoints : Points z c buf := h.points.kept h.sound hkept
    (not_recorded (h.clear.slots _ (arg_mem hzero))) (not_recorded (h.clear.slots _ (arg_mem hone)))
  refine ⟨c.write (buf + y.toUInt16) a, ?_, hkept.write (Or.inl hin) _, ?_, fun j => ?_⟩
  · refine hat.sta rfl (target_buffer hpoints) fun e he => ⟨(hkept.plain e).mpr he.1.2, ?_⟩
    rintro rfl
    exact he.2 hin
  · intro e he
    rcases List.mem_cons.mp he with rfl | he
    · exact ⟨hin, (read_write (hplain _ hin) _ _).trans (if_pos rfl)⟩
    · have hne : e.1 ≠ y := fun heq => hfresh (heq ▸ List.mem_map_of_mem he)
      rw [read_write_of_ne (hplain _ (hholds e he).1) fun heq => hne (offset_inj.mp heq).symm]
      exact hholds e he
  · exact read_write_of_ne ((hkept.sound h.sound).plain_stack j)
      (fun heq => h.clear.page j (heq ▸ hin)) a

/-- What the buffer has of a state. -/
def captured (z : ZeroPage) (r : UInt16) (m : Machine) : List (UInt8 × UInt8) :=
  let offset := JumpBuffer.offsets
  [(offset.bank, m.bus.read z.bankShadow.toUInt16), (offset.retHi, highByte r),
    (offset.retLo, lowByte r), (offset.sp, m.regs.sp), (offset.a, m.regs.a), (offset.x, m.regs.x),
    (offset.y, m.regs.y)]

/-- The state after a capture. -/
structure Captured (z : ZeroPage) (buf r : UInt16) (bytes : List UInt8) (m m₁ : Machine) : Prop where
  pc : m₁.regs.pc = r + 1
  stack : Processor.Stack.stack m₁ = bytes
  a : m₁.regs.a = 0
  x : m₁.regs.x = 0
  holds : Holds m₁.bus buf (captured z r m)
  kept : Kept (Recorded buf m) m.bus m₁.bus

/-- Two bytes on the stack do not go past its page. -/
theorem room_of_above {lo hi : UInt8} (hstack : above b sp = lo :: hi :: bytes) :
    sp < 0xFF ∧ sp + 1 < 0xFF := by
  have hlength := congrArg List.length hstack
  rw [length_above, List.length_cons, List.length_cons] at hlength
  simp only [UInt8.lt_iff_toNat_lt, UInt8.toNat_add, UInt8.reduceToNat]
  omega

theorem stackByte_one (h : sp < 0xFF) :
    0x0101 + sp.toUInt16 = Machine.stackAddress (sp + 1) := by
  refine UInt16.toNat_inj.mp ?_
  rw [toNat_stackAddress, UInt16.toNat_add, UInt8.toNat_add, UInt8.toNat_toUInt16]
  simp only [UInt8.lt_iff_toNat_lt, UInt16.reduceToNat, UInt8.reduceToNat] at *
  omega

theorem stackByte_two (h : sp < 0xFF ∧ sp + 1 < 0xFF) :
    0x0102 + sp.toUInt16 = Machine.stackAddress (sp + 1 + 1) := by
  refine UInt16.toNat_inj.mp ?_
  rw [toNat_stackAddress, UInt16.toNat_add, UInt8.toNat_add, UInt8.toNat_add, UInt8.toNat_toUInt16]
  simp only [UInt8.lt_iff_toNat_lt, UInt8.toNat_add, UInt16.reduceToNat, UInt8.reduceToNat] at *
  omega

/-- The two bytes on top of the stack, as an instruction with an index reaches them. -/
theorem read_stackByte {lo hi : UInt8} (hstack : above b sp = lo :: hi :: bytes) :
    b.read (0x0101 + sp.toUInt16) = lo ∧ b.read (0x0102 + sp.toUInt16) = hi := by
  have hroom := room_of_above hstack
  rw [above_succ b hroom.1, above_succ b hroom.2] at hstack
  rw [stackByte_one hroom.1, stackByte_two hroom]
  exact ⟨(List.cons.inj hstack).1, (List.cons.inj (List.cons.inj hstack).2).1⟩

/-- **A capture** fills the buffer and returns zero. -/
theorem captures (hslots : 2 ≤ z.argSlots) (h : Capturing k z buf r bytes m) :
    ∃ n m₁, after n m = some m₁ ∧ Captured z buf r bytes m m₁ := by
  have hstart : At k (Outside m.bus buf) m (Routine.setJmp.code z m.bus.bankSelect) (view m) :=
    at_start h.code
  have h₁ := hstart.label.pha fun e he => ⟨he.1.2, fun heq =>
    not_low_of_common he.1 (heq ▸ low_stackAddress _ _)⟩
  have k₁ : Kept (Recorded buf m) m.bus (m.bus.write (Machine.stackAddress m.regs.sp) m.regs.a) :=
    kept_write _ (Or.inr rfl) _
  have b₁ : Holds (m.bus.write (Machine.stackAddress m.regs.sp) m.regs.a) buf [] := fun _ he =>
    (List.not_mem_nil he).elim
  obtain ⟨c₂, h₂, k₂, b₂, s₂⟩ := h.record hslots h₁.tya.ldyByte k₁ b₁ (o := JumpBuffer.offsets.y) rfl
    (by decide) (by simp)
  obtain ⟨c₃, h₃, k₃, b₃, s₃⟩ := h.record hslots h₂.txa.dey k₂ b₂ (o := JumpBuffer.offsets.x)
    (by decide) (by decide) (by simp [JumpBuffer.offsets])
  -- What was pushed is still there: the bytes since then went to the buffer.
  have hpushed : c₃.read (Machine.stackAddress m.regs.sp) = m.regs.a := by
    rw [s₃, s₂, read_write (h.sound.plain_stack _), if_pos rfl]
  obtain ⟨c₄, h₄, k₄, b₄, -⟩ := h.record hslots (h₃.pla (UInt8.sub_add_cancel ..) hpushed).dey k₃ b₃
    (o := JumpBuffer.offsets.a) (by decide) (by decide) (by simp [JumpBuffer.offsets])
  obtain ⟨c₅, h₅, k₅, b₅, -⟩ := h.record hslots h₄.tsx.txa.ldyByte k₄ b₄
    (o := JumpBuffer.offsets.sp) rfl (by decide) (by simp [JumpBuffer.offsets])
  have hlo := (read_stackByte (h.above k₅)).1
  obtain ⟨c₆, h₆, k₆, b₆, -⟩ := h.record hslots (h₅.lda rfl hlo).iny k₅ b₅
    (o := JumpBuffer.offsets.retLo) (by decide) (by decide) (by simp [JumpBuffer.offsets])
  have hhi := (read_stackByte (h.above k₆)).2
  obtain ⟨c₇, h₇, k₇, b₇, -⟩ := h.record hslots (h₆.lda rfl hhi).iny k₆ b₆
    (o := JumpBuffer.offsets.retHi) (by decide) (by decide) (by simp [JumpBuffer.offsets])
  have hbank := k₇.read (not_recorded h.clear.shadow) (h.sound.plain_cell _).1
  obtain ⟨c₈, h₈, k₈, b₈, -⟩ := h.record hslots (h₇.lda rfl hbank).ldyByte k₇ b₇
    (o := JumpBuffer.offsets.bank) rfl (by decide) (by simp [JumpBuffer.offsets])
  obtain ⟨n, m₁, hafter, hpc, hstack, hview⟩ := h₈.ldaByte.tax.rts (h.above k₈)
  obtain rfl : m₁.bus = c₈ := congrArg View.bus hview
  refine ⟨n, m₁, hafter, ?_, hstack, congrArg View.a hview, congrArg View.x hview, b₈, k₈⟩
  rw [hpc, word_bytes]

end Capture

/-! ### The jump -/

/-- A bank is selected, with the status on the stack in between. -/
theorem at_selectBank {select : UInt16} (hsound : Sound b) (hselect : b.bankSelect = select)
    (hcommon : ∀ e, area e → Common b e)
    (h : At k area m₀ (Routine.selectBank z select [] ++ rest) ⟨a, x, y, sp, i, b⟩) :
    ∃ q : Machine, q.bus = b ∧ q.regs.sp = sp ∧ At k area m₀ rest ⟨a, x, y, sp, i, switched z q a⟩ := by
  obtain ⟨n, m, hafter, hlies, ⟨⟩⟩ := h
  subst hselect
  have hlocal : ∀ line ∈ Routine.selectBank z m.bus.bankSelect [],
      isLocal m.bus.bankSelect line = true := by
    simp [Routine.selectBank, isLocal, Line.bare, isData, Opcode.isBranch, Opcode.writesMemory,
      Opcode.isReadModifyWrite, isNear, Operand.fixed]
  obtain ⟨-, hspares⟩ := kept_acts (k := k) hlocal
  obtain ⟨hnext, hrest⟩ := after_lines hlies
    (fun line hline => isPassed_of_isLocal (hlocal line hline)) (hspares.mono hcommon)
  obtain ⟨hregs, hbus⟩ := acts_selectBank_a (k := k) (z := z) hsound
  refine ⟨m, rfl, rfl, _, _, (after_add hafter).trans hnext, hrest, ?_⟩
  have hmask := flag_switchedRegs m.regs m.regs.a (f := .i) (by decide)
  unfold view
  rw [bus_ran, regs_ran, hregs, hbus]
  exact congrArg (View.mk _ _ _ _ · _) hmask

/-- A jump to a captured state is about to be made. -/
structure Jumping (k : Linkage) (z : ZeroPage) (buf r : UInt16) (bytes : List UInt8) (value : UInt8)
    (m m₂ : Machine) : Prop where
  sound : Sound m₂.bus
  clear : Clear z m₂.bus buf
  points : Points z m₂.bus buf
  value : m₂.bus.read (z.arg 2).toUInt16 = value
  /-- The buffer is as it was filled. -/
  holds : Holds m₂.bus buf (captured z r m)
  /-- The stack above the return address is as it was. -/
  above : above m₂.bus (m.regs.sp + 1 + 1) = bytes
  pc : m₂.regs.pc = k.symbol Naming.longJmp
  code : Present k z .longJmp m₂.bus

/-- What a jump to a captured state writes to: the bank register and its copy, the return address
and the stack below it. -/
def Undone (z : ZeroPage) (m : Machine) (b : Bus) (e : UInt16) : Prop :=
  e = z.bankShadow.toUInt16 ∨ e = b.bankSelect ∨
    ∃ j ≤ m.regs.sp + 1 + 1, e = Machine.stackAddress j

/-- The value that a capture returns after a jump. -/
def handed (value : UInt8) : UInt8 := if value = 0 then 1 else value

/-- The state after a jump to a captured one. -/
structure Restored (z : ZeroPage) (r : UInt16) (bytes : List UInt8) (value : UInt8)
    (m m₂ m₃ : Machine) : Prop where
  pc : m₃.regs.pc = r + 1
  stack : stack m₃ = bytes
  sp : m₃.regs.sp = m.regs.sp + 2
  a : m₃.regs.a = handed (if z.arg 2 = z.bankShadow then m.bus.read z.bankShadow.toUInt16 else value)
  x : m₃.regs.x = 0
  y : m₃.regs.y = m.regs.y
  selected : m₃.bus.selected = m.bus.read z.bankShadow.toUInt16
  shadow : m₃.bus.read z.bankShadow.toUInt16 = m.bus.read z.bankShadow.toUInt16
  mask : m₃.regs.flag .i = m₂.regs.flag .i
  kept : Kept (Undone z m m₂.bus) m₂.bus m₃.bus

section Jump

variable {r : UInt16} {bytes : List UInt8} {value : UInt8} {m m₂ : Machine}

theorem Jumping.not_undone (h : Jumping k z buf r bytes value m m₂) {cell : UInt8}
    (hcell : cell ≠ z.bankShadow) : ¬ Undone z m m₂.bus cell.toUInt16 := by
  rintro (hshadow | hselect | ⟨j, -, hstack⟩)
  · exact hcell (UInt8.toUInt16_inj.mp hshadow)
  · exact (h.sound.plain_cell cell).2 hselect
  · exact cell_ne_stack _ _ hstack

theorem Jumping.not_undone_buffer (h : Jumping k z buf r bytes value m m₂) {e : UInt16}
    (he : InBuffer buf e) : ¬ Undone z m m₂.bus e := by
  rintro (rfl | rfl | ⟨j, -, rfl⟩)
  · exact h.clear.shadow he
  · exact (h.clear.plain _ he).2 rfl
  · exact h.clear.page j he

/-- A byte comes from the buffer. -/
theorem Jumping.fetch (h : Jumping k z buf r bytes value m m₂) (hlayout : z.fault? = none)
    (hslots : 2 ≤ z.argSlots)
    (hat : At k area m₀ (.op .lda (.indirectY (z.arg 0)) :: rest) ⟨a, x, y, sp, i, c⟩)
    (hkept : Kept (Undone z m m₂.bus) m₂.bus c) (byte : UInt8)
    (hentry : (y, byte) ∈ captured z r m) :
    At k area m₀ rest ⟨byte, x, y, sp, i, c⟩ := by
  have hcell : ∀ slot < z.argSlots, ¬ Undone z m m₂.bus (z.arg slot).toUInt16 := fun slot hslot =>
    h.not_undone fun heq => shadow_not_arg hlayout (heq ▸ arg_mem hslot)
  have hpoints : Points z c buf := h.points.kept h.sound hkept
    (hcell 0 (UInt8.lt_of_lt_of_le (by decide) hslots))
    (hcell 1 (UInt8.lt_of_lt_of_le (by decide) hslots))
  have hholds : Holds c buf (captured z r m) := h.holds.kept h.clear hkept
    fun _ => h.not_undone_buffer
  exact hat.lda rfl ((congrArg c.read (target_buffer hpoints)).trans (hholds _ hentry).2)

/-- The return address is put back on the stack. -/
theorem above_returned (hsound : Sound b) (hroom : sp < 0xFF ∧ sp + 1 < 0xFF) (lo hi : UInt8) :
    above ((b.write (Machine.stackAddress (sp + 1)) lo).write (Machine.stackAddress (sp + 1 + 1)) hi)
      sp = lo :: hi :: above b (sp + 1 + 1) := by
  have hone := hsound.write (Machine.stackAddress (sp + 1)) lo
  have hne : Machine.stackAddress (sp + 1 + 1) ≠ Machine.stackAddress (sp + 1) := fun heq =>
    absurd (stackAddress_inj.mp heq) (by
      simp only [UInt8.lt_iff_toNat_lt, UInt8.toNat_add, UInt8.reduceToNat,
        ← UInt8.toNat_inj] at *
      omega)
  have hlt : sp + 1 < sp + 1 + 1 := by
    simp only [UInt8.lt_iff_toNat_lt, UInt8.toNat_add, UInt8.reduceToNat] at *
    omega
  rw [above_succ _ hroom.1, above_succ _ hroom.2,
    above_write hone fun j hj heq => absurd (stackAddress_inj.mp heq) (UInt8.ne_of_lt hj),
    above_write hsound fun j hj heq => absurd (stackAddress_inj.mp heq)
      (UInt8.ne_of_lt (UInt8.lt_trans hlt hj)),
    read_write_of_ne (hone.plain_stack _) hne, read_write (hsound.plain_stack _), if_pos rfl,
    read_write (hone.plain_stack _), if_pos rfl]

/-- The value as it is when the bank has been selected. -/
theorem Jumping.value_switched (h : Jumping k z buf r bytes value m m₂) {q : Machine}
    (hsound : Sound q.bus) {bank : UInt8}
    (hkept : Kept (Undone z m m₂.bus) m₂.bus (switched z q bank)) :
    (switched z q bank).read (z.arg 2).toUInt16 = if z.arg 2 = z.bankShadow then bank else value := by
  split_ifs with hshadow
  · rw [hshadow]
    exact read_switched_shadow hsound bank
  · exact (hkept.read (h.not_undone hshadow) (h.sound.plain_cell _).1).trans h.value

/-- **A jump** gets back to where the state was captured. -/
theorem restores (hlayout : z.fault? = none) (hslots : 2 ≤ z.argSlots)
    (hstack : stack m = wordBytes r ++ bytes) (h : Jumping k z buf r bytes value m m₂) :
    ∃ n m₃, after n m₂ = some m₃ ∧ Restored z r bytes value m m₂ m₃ := by
  have hroom := room_of_above hstack
  have hle : m.regs.sp ≤ m.regs.sp + 1 + 1 ∧ m.regs.sp + 1 ≤ m.regs.sp + 1 + 1 := by
    simp only [UInt8.lt_iff_toNat_lt, UInt8.le_iff_toNat_le, UInt8.toNat_add,
      UInt8.reduceToNat] at *
    omega
  have hbeside : ∀ {c : Bus}, Kept (Undone z m m₂.bus) m₂.bus c → ∀ j e, Common m₂.bus e →
      Plain c e ∧ Machine.stackAddress j ≠ e := fun hkept j e he =>
    ⟨(hkept.plain e).mpr he.2, fun heq => not_low_of_common he (heq ▸ low_stackAddress _ _)⟩
  have hstart : At k (Common m₂.bus) m₂ (Routine.longJmp.code z m₂.bus.bankSelect) (view m₂) :=
    at_start (h.pc ▸ h.code)
  have k₀ : Kept (Undone z m m₂.bus) m₂.bus m₂.bus := .refl _
  have h₁ := (h.fetch hlayout hslots hstart.label.ldyByte k₀ m.regs.sp
    (by simp [captured, JumpBuffer.offsets])).tax.txs
  -- The return address goes back to where it was.
  have h₂ := (h.fetch hlayout hslots h₁.iny k₀ (lowByte r)
    (by simp [captured, JumpBuffer.offsets])).sta rfl (stackByte_one hroom.1) (hbeside k₀ _)
  have k₂ := k₀.write (Or.inr (Or.inr ⟨m.regs.sp + 1, hle.2, rfl⟩)) (lowByte r)
  have h₃ := (h.fetch hlayout hslots h₂.iny k₂ (highByte r)
    (by simp [captured, JumpBuffer.offsets])).sta rfl (stackByte_two hroom) (hbeside k₂ _)
  have k₃ := k₂.write (Or.inr (Or.inr ⟨m.regs.sp + 1 + 1, UInt8.le_refl _, rfl⟩)) (highByte r)
  have habove := above_returned h.sound hroom (lowByte r) (highByte r)
  generalize (m₂.bus.write _ (lowByte r)).write _ (highByte r) = c₃ at h₃ k₃ habove
  have hsound := k₃.sound h.sound
  -- The bank is selected again.
  have h₄ := h.fetch hlayout hslots h₃.ldyByte k₃ (m.bus.read z.bankShadow.toUInt16)
    (by simp [captured, JumpBuffer.offsets])
  obtain ⟨q, rfl, hsp, h₅⟩ := at_selectBank hsound k₃.bankSelect
    (fun e he => (common_iff k₃ e).mpr he) h₄
  have k₅ : Kept (Undone z m m₂.bus) m₂.bus (switched z q (m.bus.read z.bankShadow.toUInt16)) :=
    ((k₃.write (Or.inr (Or.inr ⟨_, hsp.symm ▸ hle.1, rfl⟩)) _).write (Or.inl rfl) _).write
      (Or.inr (Or.inl k₃.bankSelect)) _
  have h₆ := (h.fetch hlayout hslots h₅.ldyByte k₅ m.regs.y
    (by simp [captured, JumpBuffer.offsets])).tay
  have h₇ := (h₆.ldaOr rfl (h.value_switched hsound k₅)).ldxByte
  have hreturn : above (switched z q (m.bus.read z.bankShadow.toUInt16)) m.regs.sp =
      lowByte r :: highByte r :: bytes := by
    rw [← hsp, above_switched hsound, hsp, habove, h.above]
  obtain ⟨n, m₃, hafter, hpc, hbytes, hview⟩ := h₇.rts hreturn
  have hbus : m₃.bus = _ := congrArg View.bus hview
  refine ⟨n, m₃, hafter, ?_, hbytes, ?_, congrArg View.a hview, congrArg View.x hview,
    congrArg View.y hview, ?_, ?_, congrArg View.mask hview, ?_⟩
  · rw [hpc, word_bytes]
  · exact (congrArg View.sp hview).trans (UInt8.add_assoc ..)
  · rw [hbus, selected_switched hsound]
  · rw [hbus, read_switched_shadow hsound]
  · rw [hbus]
    exact k₅

end Jump

/-- **A jump undoes everything since the capture**: the capture returns zero, and whatever happens
between, a jump on the same buffer gets back behind it with the stack pointer, Y and the bank as
they were.  What it hands over is the value, unless the third argument slot is the copy of the bank
register. -/
theorem jump_undoes {r : UInt16} {bytes : List UInt8} {m : Machine} (hlayout : z.fault? = none)
    (hslots : 2 ≤ z.argSlots) (h : Capturing k z buf r bytes m) :
    ∃ n m₁, after n m = some m₁ ∧ Captured z buf r bytes m m₁ ∧
      ∀ value m₂, Jumping k z buf r bytes value m m₂ →
        ∃ n' m₃, after n' m₂ = some m₃ ∧ Restored z r bytes value m m₂ m₃ := by
  obtain ⟨n, m₁, hafter, hcaptured⟩ := captures hslots h
  exact ⟨n, m₁, hafter, hcaptured, fun value m₂ hjump => restores hlayout hslots h.stack hjump⟩

/-! ### A layout with two argument slots -/

/-- The copy of the bank register is where the third argument slot would be. -/
def shortLayout : ZeroPage := { argSlots := 2, bankShadow := 0x82 }

/-- The two routines. -/
def jumpLinkage : Linkage where
  symbol name :=
    if name = Naming.setJmp then 0x0300
    else if name = Naming.longJmp then 0x0340 else 0x0369
  window := 0xA000

/-- The routines, the address of the buffer in the argument slots and a return address. -/
def jumpMemory (a : UInt16) : UInt8 :=
  if a = 0x81 then 0x05
  else if a = 0x01FE then 0xFF
  else if a = 0x01FF then 0x03
  else if a < 0x0340 then
    [0x48, 0x98, 0xA0, 0x05, 0x91, 0x80, 0x8A, 0x88, 0x91, 0x80, 0x68, 0x88, 0x91, 0x80, 0xBA, 0x8A,
      0xA0, 0x00, 0x91, 0x80, 0xBD, 0x01, 0x01, 0xC8, 0x91, 0x80, 0xBD, 0x02, 0x01, 0xC8, 0x91, 0x80,
      0xA5, 0x82, 0xA0, 0x06, 0x91, 0x80, 0xA9, 0x00, 0xAA, 0x60].getD (a - 0x0300).toNat 0
  else
    [0xA0, 0x00, 0xB1, 0x80, 0xAA, 0x9A, 0xC8, 0xB1, 0x80, 0x9D, 0x01, 0x01, 0xC8, 0xB1, 0x80, 0x9D,
      0x02, 0x01, 0xA0, 0x06, 0xB1, 0x80, 0x08, 0x78, 0x85, 0x82, 0x8D, 0x00, 0xD5, 0x28, 0xA0, 0x05,
      0xB1, 0x80, 0xA8, 0xA5, 0x82, 0xD0, 0x02, 0xA9, 0x01, 0xA2, 0x00, 0x60].getD
      (a - 0x0340).toNat 0

def jumpBus : Bus := filled jumpMemory ∅

/-- A machine that is about to capture its state in the buffer at `$0500`. -/
def jumpMachine : Machine :=
  { Machine.create 0xA000 0x2000 0xD500 with bus := jumpBus, regs := { pc := 0x0300, sp := 0xFD } }

theorem toNat_of_inBuffer {e : UInt16} (h : InBuffer 0x0500 e) :
    0x0500 ≤ e.toNat ∧ e.toNat < 0x0507 := by
  have hlt := UInt16.lt_iff_toNat_lt.mp h
  have he := e.toNat_lt
  rw [UInt16.toNat_sub] at hlt
  simp only [JumpBuffer.size, UInt16.reduceToNat] at hlt
  omega

theorem clear_jumpBus : Clear shortLayout jumpBus 0x0500 where
  plain e he := plain_filled (lt_trans (toNat_of_inBuffer he).2 (by decide))
  page sp h := by
    have hlow := (toNat_of_inBuffer h).1
    have hsp := sp.toNat_lt
    rw [toNat_stackAddress] at hlow
    omega
  slots cell _ h := by
    have hlow := (toNat_of_inBuffer h).1
    have hcell := cell.toNat_lt
    rw [UInt8.toNat_toUInt16] at hlow
    omega
  shadow := by decide

theorem read_jumpBus {cell : UInt16} (h : cell.toNat < 0x200) : jumpBus.read cell = jumpMemory cell :=
  read_filled (sound_filled.low cell h).1

theorem capturing_jumpMachine : Capturing jumpLinkage shortLayout 0x0500 0x03FF [] jumpMachine where
  sound := sound_filled
  clear := clear_jumpBus
  points := ⟨(read_jumpBus (by decide)).trans (by decide), (read_jumpBus (by decide)).trans (by decide)⟩
  stack := by
    change [jumpBus.read 0x01FE, jumpBus.read 0x01FF] = _
    rw [read_jumpBus (by decide), read_jumpBus (by decide)]
    decide
  code := lies_filled (fun _ he => he.1) (by decide +kernel)

/-- The machine after the capture, with a value where the third argument slot would be, about to
jump. -/
def jumper (m : Machine) (value : UInt8) : Machine :=
  { m with
    bus := m.bus.write 0x82 value
    regs := { m.regs with pc := jumpLinkage.symbol Naming.longJmp } }

theorem jumping_jumper {m₁ : Machine} (h : Captured shortLayout 0x0500 0x03FF [] jumpMachine m₁)
    (value : UInt8) :
    Jumping jumpLinkage shortLayout 0x0500 0x03FF [] value jumpMachine (jumper m₁ value) := by
  have hcapturing := capturing_jumpMachine
  have hlast : Kept (Eq 0x82) m₁.bus (jumper m₁ value).bus := kept_write m₁.bus rfl value
  have hkept : Kept (fun e => Recorded 0x0500 jumpMachine e ∨ 0x82 = e) jumpBus
      (jumper m₁ value).bus := (h.kept.mono fun _ => Or.inl).trans (hlast.mono fun _ => Or.inr)
  have hsound : Sound m₁.bus := h.kept.sound hcapturing.sound
  have hclear : Clear shortLayout m₁.bus 0x0500 :=
    ⟨fun e he => (h.kept.plain e).mpr (clear_jumpBus.plain e he), clear_jumpBus.page,
      clear_jumpBus.slots, clear_jumpBus.shadow⟩
  have hcode : Lies jumpLinkage (Outside jumpBus 0x0500) jumpBus.read 0x0340
      (Routine.longJmp.code shortLayout 0xD500) := lies_filled (fun _ he => he.1) (by decide +kernel)
  refine ⟨hkept.sound hcapturing.sound, ?_, ?_, ?_, ?_, rfl, rfl, ?_⟩
  · exact ⟨fun e he => (hlast.plain e).mpr (hclear.plain e he), hclear.page, hclear.slots,
      hclear.shadow⟩
  · exact hcapturing.points.kept hcapturing.sound hkept
      (not_or.mpr ⟨not_recorded (by decide), by decide⟩)
      (not_or.mpr ⟨not_recorded (by decide), by decide⟩)
  · exact (read_write (hsound.plain_cell 0x82) _ _).trans (if_pos rfl)
  · refine h.holds.kept hclear hlast fun e he heq => ?_
    exact absurd (heq.symm ▸ he) (show ¬ InBuffer 0x0500 0x82 by decide)
  · have hselect : (jumper m₁ value).bus.bankSelect = 0xD500 := hkept.bankSelect
    unfold Present
    rw [hselect]
    refine hcode.congr fun e he => ⟨⟨he.1.1, (hkept.plain e).mpr he.1.2⟩, hkept.read ?_ he.1.2.1⟩
    rintro ((hin | hstack) | hcell)
    · exact he.2 hin
    · exact not_low_of_common he.1 (hstack ▸ low_stackAddress _ _)
    · exact absurd he.1.1 (by rw [← hcell]; decide)

/-- **The value is 7 and what arrives is 1**: the bank that the jump selects is 0. -/
theorem bank_arrives : ∃ n m₁ n' m₃, after n jumpMachine = some m₁ ∧
    (jumper m₁ 7).bus.read (shortLayout.arg 2).toUInt16 = 7 ∧
    after n' (jumper m₁ 7) = some m₃ ∧ m₃.regs.pc = 0x0400 ∧ m₃.regs.a = 1 := by
  obtain ⟨n, m₁, hafter, hcaptured, hjump⟩ := jump_undoes (by decide) (by decide) capturing_jumpMachine
  have hjumping := jumping_jumper hcaptured 7
  obtain ⟨n', m₃, hafter', hrestored⟩ := hjump 7 (jumper m₁ 7) hjumping
  have hbank : jumpMachine.bus.read shortLayout.bankShadow.toUInt16 = 0 :=
    (read_jumpBus (by decide)).trans (by decide)
  refine ⟨n, m₁, n', m₃, hafter, hjumping.value, hafter', hrestored.pc, ?_⟩
  rw [hrestored.a, hbank]
  rfl

end Codegen6502.Proofs.Routines.Jumps
