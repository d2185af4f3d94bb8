import Codegen6502.Proofs.Processor.Fetching

/-!
# The effects of instructions on the processor

The table of effects sums up what the machine does: an instruction leaves the parts alone that it
does not write, and what it does is the same whatever the parts hold that it does not read.

* `Part`: what the table speaks of, a register, the flags N and Z, or the carry flag;
* `SameBut`, `SameMachineBut`: registers and machines that are the same except in some parts;
* `same_execute`, `keeps_execute`: an instruction on machines that are the same but in parts that it
  does not read, and the parts that it leaves alone;
* `step_sound`: both for one step of the machine.
-/

namespace Codegen6502.Proofs.Processor.EffectsTable

open Memory LineRun Fetching

/-! ### Parts -/

/-- A part of the machine that the table of effects speaks of. -/
inductive Part where
  | reg (q : Register)
  /-- The flags N and Z. -/
  | nz
  | carry

namespace Part

/-- Registers that hold the same in a part. -/
def Same (r s : Registers) : Part → Prop
  | reg q => regValue r q = regValue s q
  | nz => r.flag .n = s.flag .n ∧ r.flag .z = s.flag .z
  | carry => r.flag .c = s.flag .c

/-- The part is read, as the table has it. -/
def IsRead (e : Effects) : Part → Prop
  | reg q => e.reads.contains q = true
  | nz => e.readsNZ = true
  | carry => e.readsCarry = true

/-- The part is written, as the table has it. -/
def IsWritten (e : Effects) : Part → Prop
  | reg q => e.writes.contains q = true
  | nz => e.writesNZ = true
  | carry => e.writesCarry = true

end Part

/-- The parts that an instruction overwrites by itself.  What the table has for a call is what the
function may do; the instruction writes none of it. -/
def overwritten (op : Opcode) (operand : Operand) : Set Part :=
  {p | p.IsWritten (op.effects operand) ∧ op ≠ .jsr}

/-! ### Registers that are the same except in some parts -/

/-- Registers that are the same except in some parts. -/
structure SameBut (differ : Set Part) (r s : Registers) : Prop where
  part : ∀ p, p ∉ differ → p.Same r s
  flag : ∀ f, f ≠ .n → f ≠ .z → f ≠ .c → r.flag f = s.flag f
  sp : r.sp = s.sp
  pc : r.pc = s.pc

variable {differ differ' : Set Part} {r s : Registers} {m m' : Machine} {op : Opcode}
  {operand : Operand} {t : EffectiveOperand}

/-- The registers with a new value in one of A, X and Y. -/
def setReg (r : Registers) : Register → UInt8 → Registers
  | .a, value => { r with a := value }
  | .x, value => { r with x := value }
  | .y, value => { r with y := value }

theorem loadA_eq (r : Registers) (value : UInt8) :
    r.loadA value = (setReg r .a value).setNZ value := rfl

theorem loadX_eq (r : Registers) (value : UInt8) :
    r.loadX value = (setReg r .x value).setNZ value := rfl

theorem loadY_eq (r : Registers) (value : UInt8) :
    r.loadY value = (setReg r .y value).setNZ value := rfl

@[simp] theorem regValue_setReg (r : Registers) (q q' : Register) (value : UInt8) :
    regValue (setReg r q value) q' = if q' = q then value else regValue r q' := by
  cases q <;> cases q' <;> rfl

@[simp] theorem flag_setReg (r : Registers) (q : Register) (value : UInt8) (f : Flag) :
    (setReg r q value).flag f = r.flag f := by
  cases q <;> rfl

@[simp] theorem regValue_setFlag (r : Registers) (q : Register) (f : Flag) (on : Bool) :
    regValue (r.setFlag f on) q = regValue r q := by
  cases q <;> rfl

section Registers

variable (h : SameBut differ r s)
include h

theorem SameBut.mono (hsub : differ ⊆ differ') : SameBut differ' r s :=
  { h with part := fun p hp => h.part p fun hmem => hp (hsub hmem) }

theorem SameBut.withPc (pc : UInt16) : SameBut differ { r with pc } { s with pc } where
  part p hp := by
    have hpart := h.part p hp
    cases p with
    | reg q => cases q <;> exact hpart
    | nz | carry => exact hpart
  flag := h.flag
  sp := h.sp
  pc := rfl

theorem SameBut.withSp {sp sp' : UInt8} (hsp : sp = sp') :
    SameBut differ { r with sp } { s with sp := sp' } where
  part p hp := by
    have hpart := h.part p hp
    cases p with
    | reg q => cases q <;> exact hpart
    | nz | carry => exact hpart
  flag := h.flag
  sp := hsp
  pc := h.pc

/-- A new status byte in both. -/
theorem SameBut.withP (p : UInt8) : SameBut (differ \ {.nz, .carry}) { r with p } { s with p } where
  part part hp := by
    cases part with
    | reg q => cases q <;> exact h.part (.reg _) fun hmem => hp ⟨hmem, by simp⟩
    | nz => exact ⟨rfl, rfl⟩
    | carry => exact rfl
  flag f _ _ _ := rfl
  sp := h.sp
  pc := h.pc

theorem SameBut.setReg (q : Register) (value : UInt8) :
    SameBut (differ \ {.reg q}) (setReg r q value) (setReg s q value) where
  part p hp := by
    have hpart : p ≠ .reg q → p.Same r s := fun hne => h.part p fun hmem => hp ⟨hmem, hne⟩
    cases p with
    | reg q' =>
      simp only [Part.Same, regValue_setReg]
      split
      · rfl
      · rename_i hne
        exact hpart (by simpa using hne)
    | nz | carry => simpa [Part.Same] using hpart (by simp)
  flag f hn hz hc := by simpa using h.flag f hn hz hc
  sp := by cases q <;> exact h.sp
  pc := by cases q <;> exact h.pc

theorem SameBut.setFlag (f : Flag) (on : Bool) :
    SameBut differ (r.setFlag f on) (s.setFlag f on) where
  part p hp := by
    have hpart := h.part p hp
    cases p with
    | reg q => simpa [Part.Same] using hpart
    | nz => simp [Part.Same, hpart.1, hpart.2]
    | carry => simp [Part.Same, show r.flag .c = s.flag .c from hpart]
  flag g hn hz hc := by simp [h.flag g hn hz hc]
  sp := h.sp
  pc := h.pc

theorem SameBut.setCarry (on : Bool) :
    SameBut (differ \ {.carry}) (r.setFlag .c on) (s.setFlag .c on) where
  part p hp := by
    by_cases hcarry : p = .carry
    · subst hcarry
      simp [Part.Same]
    · exact (h.setFlag .c on).part p fun hmem => hp ⟨hmem, hcarry⟩
  flag := (h.setFlag .c on).flag
  sp := h.sp
  pc := h.pc

/-- N and Z are the same once both have been set. -/
theorem SameBut.setZN (zero negative : Bool) :
    SameBut (differ \ {.nz}) ((r.setFlag .z zero).setFlag .n negative)
      ((s.setFlag .z zero).setFlag .n negative) where
  part p hp := by
    by_cases hnz : p = .nz
    · subst hnz
      simp [Part.Same]
    · exact ((h.setFlag .z zero).setFlag .n negative).part p fun hmem => hp ⟨hmem, hnz⟩
  flag := ((h.setFlag .z zero).setFlag .n negative).flag
  sp := h.sp
  pc := h.pc

theorem SameBut.load (q : Register) (value : UInt8) :
    SameBut (differ \ {.reg q, .nz}) ((EffectsTable.setReg r q value).setNZ value)
      ((EffectsTable.setReg s q value).setNZ value) :=
  ((h.setReg q value).setZN _ _).mono (Set.sdiff_sdiff ..).subset

/-- The carry and then N and Z have been set. -/
theorem SameBut.setCZN (carry : Bool) (value : UInt8) :
    SameBut (differ \ {.carry, .nz}) ((r.setFlag .c carry).setNZ value)
      ((s.setFlag .c carry).setNZ value) :=
  ((h.setCarry carry).setZN _ _).mono (Set.sdiff_sdiff ..).subset

theorem SameBut.add (ha : r.a = s.a) (hc : r.flag .c = s.flag .c) (value : UInt8) :
    SameBut (differ \ ({.carry} ∪ {.reg .a, .nz})) (r.add value) (s.add value) := by
  unfold Registers.add
  dsimp only
  rw [ha, hc]
  exact (((h.setCarry _).setFlag .v _).load .a _).mono (Set.sdiff_sdiff ..).subset

end Registers

/-! ### Machines that are the same except in some parts -/

/-- Machines that are the same except in some parts: the second one is the first one with other
registers. -/
def SameMachineBut (differ : Set Part) (m m' : Machine) : Prop :=
  ∃ s, SameBut differ m.regs s ∧ m' = { m with regs := s }

namespace SameMachineBut

variable (h : SameMachineBut differ m m')
include h

theorem mono (hsub : differ ⊆ differ') : SameMachineBut differ' m m' := by
  obtain ⟨s, hs, rfl⟩ := h
  exact ⟨s, hs.mono hsub, rfl⟩

theorem bus : m'.bus = m.bus := by
  obtain ⟨s, -, rfl⟩ := h
  rfl

theorem regs : SameBut differ m.regs m'.regs := by
  obtain ⟨s, hs, rfl⟩ := h
  exact hs

theorem mapRegs {f g : Registers → Registers} (hfg : SameBut differ' (f m.regs) (g m'.regs)) :
    SameMachineBut differ' (m.mapRegs f) (m'.mapRegs g) := by
  obtain ⟨s, -, rfl⟩ := h
  exact ⟨_, hfg, rfl⟩

theorem push (value : UInt8) : SameMachineBut differ (m.push value) (m'.push value) := by
  obtain ⟨s, hs, rfl⟩ := h
  refine ⟨{ s with sp := s.sp - 1 }, ?_, ?_⟩
  · simp only [Machine.push, hs.sp]
    exact hs.withSp rfl
  · simp only [Machine.push, hs.sp]

theorem pushWord (w : UInt16) : SameMachineBut differ (m.pushWord w) (m'.pushWord w) :=
  (h.push _).push _

theorem pull : m.pull.1 = m'.pull.1 ∧ SameMachineBut differ m.pull.2 m'.pull.2 := by
  obtain ⟨s, hs, rfl⟩ := h
  unfold Machine.pull
  rw [hs.sp]
  exact ⟨rfl, _, hs.withSp rfl, rfl⟩

theorem pullWord : m.pullWord.1 = m'.pullWord.1 ∧ SameMachineBut differ m.pullWord.2 m'.pullWord.2 := by
  obtain ⟨hlo, hrest⟩ := h.pull
  obtain ⟨hhi, hdone⟩ := hrest.pull
  exact ⟨congrArg₂ word hlo hhi, hdone⟩

theorem fetch : m.fetch.1 = m'.fetch.1 ∧ SameMachineBut differ m.fetch.2 m'.fetch.2 := by
  obtain ⟨s, hs, rfl⟩ := h
  unfold Machine.fetch
  rw [hs.pc]
  exact ⟨rfl, _, hs.withPc _, rfl⟩

theorem fetchWord :
    m.fetchWord.1 = m'.fetchWord.1 ∧ SameMachineBut differ m.fetchWord.2 m'.fetchWord.2 := by
  obtain ⟨hlo, hrest⟩ := h.fetch
  obtain ⟨hhi, hdone⟩ := hrest.fetch
  exact ⟨congrArg₂ word hlo hhi, hdone⟩

theorem goTo (pc : UInt16) : SameMachineBut differ (m.mapRegs fun r => { r with pc })
    (m'.mapRegs fun r => { r with pc }) := h.mapRegs (h.regs.withPc pc)

theorem branchIf {taken taken' : Bool} (htaken : taken = taken') (t : EffectiveOperand) :
    SameMachineBut differ (m.branchIf taken t) (m'.branchIf taken' t) := by
  subst htaken
  unfold Machine.branchIf
  cases taken with
  | true => exact h.goTo _
  | false => exact h

theorem writeOperand (t : EffectiveOperand) (value : UInt8) :
    SameMachineBut differ (m.writeOperand t value) (m'.writeOperand t value) := by
  obtain ⟨s, hs, rfl⟩ := h
  cases t with
  | none | value byte => exact ⟨s, hs, rfl⟩
  | accumulator => exact ⟨_, (hs.setReg .a value).mono Set.sdiff_subset, rfl⟩
  | address a => exact ⟨s, hs, rfl⟩

end SameMachineBut

/-! ### Instructions -/

/-- Whether an instruction can work on the accumulator as an operand. -/
def isShift : Opcode → Bool
  | .asl | .lsr | .rol | .ror => true
  | _ => false

/-- What is read from an operand is the same unless the operand is the accumulator. -/
theorem readOperand_eq (h : SameMachineBut differ m m')
    (ha : t = .accumulator → m.regs.a = m'.regs.a) : m.readOperand t = m'.readOperand t := by
  obtain ⟨s, hs, rfl⟩ := h
  cases t with
  | accumulator => exact ha rfl
  | _ => rfl

/-- Parts that have been written are the same. -/
theorem SameMachineBut.narrow {written : Set Part} (h : SameMachineBut (differ \ written) m m')
    (hwritten : ∀ p ∈ differ, p.IsWritten (op.effects operand) → p ∈ written) :
    SameMachineBut (differ \ overwritten op operand) m m' :=
  h.mono fun p hp => ⟨hp.1, fun hw => hp.2 (hwritten p hp.1 hw.1)⟩

/-- What nothing has been written to stays as it is. -/
theorem SameMachineBut.stay (h : SameMachineBut differ m m')
    (hnone : ∀ p ∈ differ, ¬ (p.IsWritten (op.effects operand) ∧ op ≠ .jsr)) :
    SameMachineBut (differ \ overwritten op operand) m m' :=
  h.mono fun p hp => ⟨hp, hnone p hp⟩

/-- **An instruction on machines that are the same but in parts that it does not read** gives
machines that are the same but in those of these parts that it does not overwrite. -/
theorem same_execute (hop : op ≠ .brk ∧ op ≠ .rti)
    (hread : ∀ p ∈ differ, ¬ p.IsRead (op.effects operand))
    (ht : t = .accumulator → operand = .accumulator ∧ isShift op = true)
    (h : SameMachineBut differ m m') :
    SameMachineBut (differ \ overwritten op operand) (m.execute op t) (m'.execute op t) := by
  have hregs := h.regs
  have hreg : ∀ q, (op.effects operand).reads.contains q = true →
      regValue m.regs q = regValue m'.regs q :=
    fun q hq => hregs.part (.reg q) fun hmem => hread _ hmem hq
  have ha : (op.effects operand).reads.a = true → m.regs.a = m'.regs.a := hreg .a
  have hx : (op.effects operand).reads.x = true → m.regs.x = m'.regs.x := hreg .x
  have hy : (op.effects operand).reads.y = true → m.regs.y = m'.regs.y := hreg .y
  have hcarry : (op.effects operand).readsCarry = true → m.regs.flag .c = m'.regs.flag .c :=
    fun hc => hregs.part .carry fun hmem => hread _ hmem hc
  have hnz : (op.effects operand).readsNZ = true →
      m.regs.flag .n = m'.regs.flag .n ∧ m.regs.flag .z = m'.regs.flag .z :=
    fun hc => hregs.part .nz fun hmem => hread _ hmem hc
  have hother := hregs.flag
  have hacc : t = .accumulator → m.regs.a = m'.regs.a := by
    intro hacc
    obtain ⟨rfl, hshift⟩ := ht hacc
    cases op <;> first | exact ha rfl | cases hshift
  have hvalue := readOperand_eq h hacc
  cases op
  case brk => exact absurd rfl hop.1
  case rti => exact absurd rfl hop.2
  case' adc | sbc =>
    simp only [Machine.execute, hvalue]
    refine (h.mapRegs (hregs.add (ha rfl) (hcarry rfl) _)).narrow ?_
  case' and | ora | eor =>
    simp only [Machine.execute, hvalue]
    refine (h.mapRegs (by rw [ha rfl]; exact hregs.load .a _)).narrow ?_
  case' cmp =>
    simp only [Machine.execute, hvalue]
    refine (h.mapRegs (by rw [ha rfl]; exact hregs.setCZN _ _)).narrow ?_
  case' cpx =>
    simp only [Machine.execute, hvalue]
    refine (h.mapRegs (by rw [hx rfl]; exact hregs.setCZN _ _)).narrow ?_
  case' cpy =>
    simp only [Machine.execute, hvalue]
    refine (h.mapRegs (by rw [hy rfl]; exact hregs.setCZN _ _)).narrow ?_
  case' bit =>
    simp only [Machine.execute, hvalue]
    refine (h.mapRegs (by rw [ha rfl]; exact (hregs.setZN _ _).setFlag _ _)).narrow ?_
  case' asl | lsr =>
    simp only [Machine.execute, Machine.shifted, hvalue]
    refine ((h.mapRegs (hregs.setCZN _ _)).writeOperand _ _).narrow ?_
  case' rol | ror =>
    simp only [Machine.execute, Machine.shifted, hvalue, hcarry rfl]
    refine ((h.mapRegs (hregs.setCZN _ _)).writeOperand _ _).narrow ?_
  case' inc | dec =>
    simp only [Machine.execute, hvalue]
    refine ((h.mapRegs (hregs.setZN _ _)).writeOperand _ _).narrow ?_
  case' lda =>
    simp only [Machine.execute, hvalue]
    refine (h.mapRegs (hregs.load .a _)).narrow ?_
  case' ldx =>
    simp only [Machine.execute, hvalue]
    refine (h.mapRegs (hregs.load .x _)).narrow ?_
  case' ldy =>
    simp only [Machine.execute, hvalue]
    refine (h.mapRegs (hregs.load .y _)).narrow ?_
  case' tax =>
    simp only [Machine.execute]
    refine (h.mapRegs (by rw [ha rfl]; exact hregs.load .x _)).narrow ?_
  case' tay =>
    simp only [Machine.execute]
    refine (h.mapRegs (by rw [ha rfl]; exact hregs.load .y _)).narrow ?_
  case' txa =>
    simp only [Machine.execute]
    refine (h.mapRegs (by rw [hx rfl]; exact hregs.load .a _)).narrow ?_
  case' tya =>
    simp only [Machine.execute]
    refine (h.mapRegs (by rw [hy rfl]; exact hregs.load .a _)).narrow ?_
  case' tsx =>
    simp only [Machine.execute]
    refine (h.mapRegs (by rw [hregs.sp]; exact hregs.load .x _)).narrow ?_
  case' txs =>
    simp only [Machine.execute]
    refine (h.mapRegs (hregs.withSp (hx rfl))).stay ?_
  case' inx | dex =>
    simp only [Machine.execute]
    refine (h.mapRegs (by rw [hx rfl]; exact hregs.load .x _)).narrow ?_
  case' iny | dey =>
    simp only [Machine.execute]
    refine (h.mapRegs (by rw [hy rfl]; exact hregs.load .y _)).narrow ?_
  case' sta =>
    simp only [Machine.execute, ha rfl]
    refine (h.writeOperand _ _).stay ?_
  case' stx =>
    simp only [Machine.execute, hx rfl]
    refine (h.writeOperand _ _).stay ?_
  case' sty =>
    simp only [Machine.execute, hy rfl]
    refine (h.writeOperand _ _).stay ?_
  case' clc | sec =>
    simp only [Machine.execute]
    refine (h.mapRegs (hregs.setCarry _)).narrow ?_
  case' cli | sei | cld | sed | clv =>
    simp only [Machine.execute]
    refine (h.mapRegs (hregs.setFlag _ _)).stay ?_
  case' bcc | bcs =>
    simp only [Machine.execute]
    refine (h.branchIf (by rw [hcarry rfl]) t).stay ?_
  case' beq | bne =>
    simp only [Machine.execute]
    refine (h.branchIf (by rw [(hnz rfl).2]) t).stay ?_
  case' bmi | bpl =>
    simp only [Machine.execute]
    refine (h.branchIf (by rw [(hnz rfl).1]) t).stay ?_
  case' bvc | bvs =>
    simp only [Machine.execute]
    refine (h.branchIf (by rw [hother .v (by decide) (by decide) (by decide)]) t).stay ?_
  case' jmp => refine (h.goTo _).stay ?_
  case' nop => refine h.stay ?_
  case' jsr =>
    simp only [Machine.execute, hregs.pc]
    refine ((h.pushWord _).goTo _).stay ?_
  case' rts =>
    obtain ⟨hw, hrest⟩ := h.pullWord
    simp only [Machine.execute, hw]
    refine (hrest.goTo _).stay ?_
  case' pha =>
    simp only [Machine.execute, ha rfl]
    refine (h.push _).stay ?_
  case' php =>
    have hstatus : m.regs.pushedStatus = m'.regs.pushedStatus := pushedStatus_eq fun f _ => by
      cases f <;> first
        | exact hcarry rfl
        | exact (hnz rfl).1
        | exact (hnz rfl).2
        | exact hother _ (by decide) (by decide) (by decide)
    simp only [Machine.execute, hstatus]
    refine (h.push _).stay ?_
  case' pla =>
    obtain ⟨hbyte, hrest⟩ := h.pull
    simp only [Machine.execute, hbyte]
    refine (hrest.mapRegs (hrest.regs.load .a _)).narrow ?_
  case' plp =>
    obtain ⟨hbyte, hrest⟩ := h.pull
    simp only [Machine.execute, hbyte]
    refine (hrest.mapRegs (hrest.regs.withP _)).narrow ?_
  all_goals
    rintro ((_ | _ | _) | _ | _) hd hw
    all_goals first
      | exact absurd rfl hw.2
      | exact Bool.noConfusion hw
      | exact Bool.noConfusion hw.1
      | exact absurd hw (hread _ hd)
      | simp

/-! ### What an instruction leaves alone -/

namespace Part

variable {p : Part}

theorem Same.trans {u : Registers} (h : p.Same r s) (h' : p.Same s u) : p.Same r u := by
  cases p with
  | reg q => exact Eq.trans h h'
  | nz => exact ⟨h.1.trans h'.1, h.2.trans h'.2⟩
  | carry => exact Eq.trans h h'

theorem same_withPc (r : Registers) (pc : UInt16) : p.Same r { r with pc } := by
  rcases p with (_ | _ | _) | _ | _ <;> first | rfl | exact ⟨rfl, rfl⟩

theorem same_withSp (r : Registers) (sp : UInt8) : p.Same r { r with sp } := by
  rcases p with (_ | _ | _) | _ | _ <;> first | rfl | exact ⟨rfl, rfl⟩

theorem same_withP (r : Registers) (status : UInt8) (hnz : p ≠ .nz) (hcarry : p ≠ .carry) :
    p.Same r { r with p := status } := by
  rcases p with (_ | _ | _) | _ | _ <;> first | rfl | contradiction

theorem same_setReg (r : Registers) {q : Register} (value : UInt8) (hq : p ≠ .reg q) :
    p.Same r (setReg r q value) := by
  cases p with
  | reg q' =>
    have hne : q' ≠ q := fun heq => hq (congrArg _ heq)
    simp [Same, hne]
  | nz | carry => simp [Same]

theorem same_setFlag (r : Registers) (f : Flag) (on : Bool) (hf : f ≠ .n ∧ f ≠ .z ∧ f ≠ .c) :
    p.Same r (r.setFlag f on) := by
  cases p <;> simp [Same, hf]

theorem same_setCarry (r : Registers) (on : Bool) (hcarry : p ≠ .carry) :
    p.Same r (r.setFlag .c on) := by
  cases p with
  | carry => exact absurd rfl hcarry
  | reg q | nz => simp [Same]

theorem same_setZN (r : Registers) (zero negative : Bool) (hnz : p ≠ .nz) :
    p.Same r ((r.setFlag .z zero).setFlag .n negative) := by
  cases p with
  | nz => exact absurd rfl hnz
  | reg q | carry => simp [Same]

theorem same_load (r : Registers) (q : Register) (value : UInt8) (hq : p ≠ .reg q)
    (hnz : p ≠ .nz) : p.Same r ((setReg r q value).setNZ value) :=
  (same_setReg r value hq).trans (same_setZN _ _ _ hnz)

theorem same_setCZN (r : Registers) (carry : Bool) (value : UInt8) (hcarry : p ≠ .carry)
    (hnz : p ≠ .nz) : p.Same r ((r.setFlag .c carry).setNZ value) :=
  (same_setCarry r carry hcarry).trans (same_setZN _ _ _ hnz)

theorem same_add (r : Registers) (value : UInt8) (ha : p ≠ .reg .a) (hcarry : p ≠ .carry)
    (hnz : p ≠ .nz) : p.Same r (r.add value) := by
  unfold Registers.add
  dsimp only
  rw [loadA_eq]
  refine Same.trans ?_ (same_load _ .a _ ha hnz)
  refine Same.trans ?_ (same_setFlag _ .v _ (by decide))
  exact same_setCarry r _ hcarry

theorem same_branchIf (m : Machine) (taken : Bool) (t : EffectiveOperand) :
    p.Same m.regs (m.branchIf taken t).regs := by
  cases taken with
  | true => exact same_withPc _ _
  | false => exact same_withPc _ m.regs.pc

theorem same_writeOperand (h : p.Same r m.regs) (value : UInt8)
    (ht : t = .accumulator → p ≠ .reg .a) : p.Same r (m.writeOperand t value).regs := by
  cases t with
  | accumulator => exact h.trans (same_setReg _ _ (ht rfl))
  | none | value byte | address a => exact h

end Part

/-- **A part that an instruction does not overwrite** is as before. -/
theorem keeps_execute (hop : op ≠ .brk ∧ op ≠ .rti) (m : Machine)
    (ht : t = .accumulator → operand = .accumulator ∧ isShift op = true) {p : Part}
    (hp : p ∉ overwritten op operand) : p.Same m.regs (m.execute op t).regs := by
  obtain rfl | hjsr := eq_or_ne op .jsr
  · exact (Part.same_withSp _ _).trans (Part.same_withPc _ _)
  have hkept : ∀ q : Part, q.IsWritten (op.effects operand) → p ≠ q :=
    fun q hq heq => hp (heq ▸ ⟨hq, hjsr⟩)
  have hself : p.Same m.regs m.regs := Part.same_withPc _ _
  cases op
  case brk => exact absurd rfl hop.1
  case rti => exact absurd rfl hop.2
  case jsr => exact absurd rfl hjsr
  case adc | sbc =>
    simp only [Machine.execute, Machine.mapRegs]
    exact Part.same_add _ _ (hkept (.reg .a) rfl) (hkept .carry rfl) (hkept .nz rfl)
  case and | ora | eor | lda | txa | tya =>
    simp only [Machine.execute, Machine.mapRegs, loadA_eq]
    exact Part.same_load _ .a _ (hkept (.reg .a) rfl) (hkept .nz rfl)
  case ldx | inx | dex | tax | tsx =>
    simp only [Machine.execute, Machine.mapRegs, loadX_eq]
    exact Part.same_load _ .x _ (hkept (.reg .x) rfl) (hkept .nz rfl)
  case ldy | iny | dey | tay =>
    simp only [Machine.execute, Machine.mapRegs, loadY_eq]
    exact Part.same_load _ .y _ (hkept (.reg .y) rfl) (hkept .nz rfl)
  case cmp | cpx | cpy =>
    simp only [Machine.execute, Machine.mapRegs, Registers.compare]
    exact Part.same_setCZN _ _ _ (hkept .carry rfl) (hkept .nz rfl)
  case bit =>
    simp only [Machine.execute, Machine.mapRegs]
    exact (Part.same_setZN _ _ _ (hkept .nz rfl)).trans
      (Part.same_setFlag _ .v _ (by decide))
  case asl | lsr | rol | ror =>
    simp only [Machine.execute, Machine.shifted]
    refine Part.same_writeOperand ?_ _ fun hacc => ?_
    · exact Part.same_setCZN _ _ _ (hkept .carry rfl) (hkept .nz rfl)
    · refine hkept (.reg .a) ?_
      rw [(ht hacc).1]
      rfl
  case inc | dec =>
    simp only [Machine.execute]
    refine Part.same_writeOperand ?_ _ fun hacc => ?_
    · exact Part.same_setZN _ _ _ (hkept .nz rfl)
    · cases (ht hacc).2
  case sta | stx | sty =>
    refine Part.same_writeOperand hself _ fun hacc => ?_
    cases (ht hacc).2
  case clc | sec => exact Part.same_setCarry _ _ (hkept .carry rfl)
  case cli | sei => exact Part.same_setFlag _ .i _ (by decide)
  case cld | sed => exact Part.same_setFlag _ .d _ (by decide)
  case clv => exact Part.same_setFlag _ .v _ (by decide)
  case bcc | bcs | beq | bne | bmi | bpl | bvc | bvs => exact Part.same_branchIf _ _ _
  case jmp => exact Part.same_withPc _ _
  case nop => exact hself
  case txs | pha | php => exact Part.same_withSp _ _
  case rts => exact (Part.same_withSp _ _).trans (Part.same_withPc _ _)
  case pla =>
    exact (Part.same_withSp _ _).trans
      (Part.same_load _ .a _ (hkept (.reg .a) rfl) (hkept .nz rfl))
  case plp =>
    exact (Part.same_withSp _ _).trans
      (Part.same_withP _ _ (hkept .nz rfl) (hkept .carry rfl))

theorem execute_sp (hop : op ≠ .brk ∧ op ≠ .rti) (m : Machine) (t : EffectiveOperand)
    (hsp : (op.effects operand).movesSP = false) : (m.execute op t).regs.sp = m.regs.sp := by
  cases op <;> simp only [Machine.execute, Machine.mapRegs, sp_loadA, sp_loadX, sp_loadY, sp_add,
    sp_writeOperand, Registers.compare, Registers.setNZ, Registers.setFlag]
  case bcc | bcs | beq | bne | bmi | bpl | bvc | bvs =>
    unfold Machine.branchIf
    split <;> rfl
  all_goals exact Bool.noConfusion (show true = false from hsp)

/-- An instruction that does not write its operand and leaves the stack alone writes no memory. -/
theorem execute_bus (hwrites : op.writesMemory = false) (hsp : (op.effects operand).movesSP = false)
    (m : Machine) (t : EffectiveOperand) : (m.execute op t).bus = m.bus := by
  cases op <;> first
    | exact Bool.noConfusion (show true = false from hsp)
    | exact Bool.noConfusion (show true = false from hwrites)
    | rfl
    | (unfold Machine.execute Machine.branchIf; dsimp only; split <;> rfl)

/-! ### Steps -/

/-- The index register that a mode uses. -/
def indexOf : Mode → RegSet
  | .absoluteX => { x := true }
  | .absoluteY | .indirectY => { y := true }
  | _ => {}

theorem index_eq (hplaced : operand.isPreAllocation = false) :
    operand.index = indexOf operand.mode := by
  cases operand <;> first | rfl | cases hplaced

/-- The machine that has fetched an instruction. -/
def fetched (m : Machine) (mode : Mode) : EffectiveOperand × Machine := m.fetch.2.operand mode

theorem step_of_encode {mode : Mode} (hencode : op.encode mode = some (m.bus.read m.regs.pc)) :
    m.step = (none, { (fetched m mode).2 with steps := (fetched m mode).2.steps + 1 }.execute op
      (fetched m mode).1) := by
  have hdecode := decodeTable_get hencode
  unfold Machine.step
  simp only [Machine.fetch, hdecode]
  rfl

theorem fetched_moved (m : Machine) (mode : Mode) :
    ∃ pc, (fetched m mode).2 = { m with regs := { m.regs with pc } } := by
  cases mode <;> exact ⟨_, rfl⟩

theorem fetched_accumulator {mode : Mode} (h : (fetched m mode).1 = .accumulator) :
    mode = .accumulator := by
  cases mode <;> first | rfl | cases h

/-- An instruction that is encoded works on the accumulator only if it is a shift. -/
theorem isShift_of_encode (h : (op.encode .accumulator).isSome) : isShift op = true := by
  cases op <;> first | rfl | cases h

theorem SameMachineBut.fetched (h : SameMachineBut differ m m') {mode : Mode}
    (hindex : ∀ q, (indexOf mode).contains q = true → .reg q ∉ differ) :
    (fetched m mode).1 = (fetched m' mode).1 ∧
      SameMachineBut differ (fetched m mode).2 (fetched m' mode).2 := by
  obtain ⟨-, hstart⟩ := h.fetch
  unfold EffectsTable.fetched
  generalize m.fetch.2 = n at *
  generalize m'.fetch.2 = n' at *
  obtain ⟨hbyte, hrest⟩ := hstart.fetch
  obtain ⟨hword, hrest'⟩ := hstart.fetchWord
  cases mode with
  | implied | accumulator => exact ⟨rfl, hstart⟩
  | immediate | zeroPage =>
    simp only [Machine.operand]
    rw [hbyte]
    exact ⟨rfl, hrest⟩
  | absolute =>
    simp only [Machine.operand]
    rw [hword]
    exact ⟨rfl, hrest'⟩
  | absoluteX =>
    have hx : n.fetchWord.2.regs.x = n'.fetchWord.2.regs.x := hrest'.regs.part (.reg .x) (hindex .x rfl)
    simp only [Machine.operand]
    rw [hword, hx]
    exact ⟨rfl, hrest'⟩
  | absoluteY =>
    have hy : n.fetchWord.2.regs.y = n'.fetchWord.2.regs.y := hrest'.regs.part (.reg .y) (hindex .y rfl)
    simp only [Machine.operand]
    rw [hword, hy]
    exact ⟨rfl, hrest'⟩
  | indirectY =>
    have hy : n.fetch.2.regs.y = n'.fetch.2.regs.y := hrest.regs.part (.reg .y) (hindex .y rfl)
    simp only [Machine.operand]
    rw [hbyte, hy, hrest.bus]
    exact ⟨rfl, hrest⟩
  | indirect =>
    simp only [Machine.operand]
    rw [hword, hrest'.bus]
    exact ⟨rfl, hrest'⟩
  | relative =>
    simp only [Machine.operand]
    rw [hbyte, hrest.regs.pc]
    exact ⟨rfl, hrest⟩

/-- What the table of effects says of an instruction that the machine comes to. -/
structure Sound (op : Opcode) (operand : Operand) (m : Machine) : Prop where
  runs : m.step.1 = none
  /-- What the instruction does not overwrite is as before. -/
  keeps : ∀ p, p ∉ overwritten op operand → p.Same m.regs m.step.2.regs
  keepsStack : (Line.op op operand).effects.movesSP = false → m.step.2.regs.sp = m.regs.sp
  /-- The instruction does the same on a machine that is the same but in parts that it does not
  read; what it overwrites of them is then the same, and what it does not is as before in both. -/
  agrees : ∀ differ m', (∀ p ∈ differ, ¬ p.IsRead (Line.op op operand).effects) →
    SameMachineBut differ m m' →
    m'.step.1 = none ∧ SameMachineBut (differ \ overwritten op operand) m.step.2 m'.step.2
  keepsMemory : op.writesMemory = false → (Line.op op operand).effects.movesSP = false →
    m.step.2.bus = m.bus

/-- **The table of effects is right.**  It holds of every allocated instruction at the program
counter, the two apart that push or pull the status register along with a return address. -/
theorem step_sound (hplaced : operand.isPreAllocation = false)
    (hencode : op.encode operand.mode = some (m.bus.read m.regs.pc))
    (hop : op ≠ .brk ∧ op ≠ .rti) : Sound op operand m := by
  have hstep := step_of_encode hencode
  obtain ⟨pc, hmoved⟩ := fetched_moved m operand.mode
  have hshift : ∀ n : Machine, (fetched n operand.mode).1 = .accumulator →
      operand = .accumulator ∧ isShift op = true := by
    intro n hacc
    have hmode := fetched_accumulator hacc
    refine ⟨?_, isShift_of_encode (by rw [← hmode, hencode]; rfl)⟩
    cases operand <;> first | rfl | cases hmode
  have hnext : m.step.2 = (moved m pc (m.steps + 1)).execute op (fetched m operand.mode).1 := by
    rw [hstep, hmoved]
    rfl
  refine ⟨by rw [hstep], fun p hp => ?_, fun hsp => ?_, fun differ m' hread h => ?_, fun hw hsp => ?_⟩
  · rw [hnext]
    exact (Part.same_withPc m.regs pc).trans (keeps_execute hop (moved m pc (m.steps + 1)) (hshift m) hp)
  · rw [hnext]
    exact execute_sp hop _ _ hsp
  · have hreads : ∀ p ∈ differ, ¬ p.IsRead (op.effects operand) := by
      intro p hp hr
      refine hread p hp ?_
      rcases p with (_ | _ | _) | _ | _ <;>
        simp_all [Part.IsRead, Line.effects, RegSet.contains, RegSet.union]
    have hindex : ∀ q, (indexOf operand.mode).contains q = true → .reg q ∉ differ := by
      intro q hq hmem
      refine hread _ hmem ?_
      rw [← index_eq hplaced] at hq
      cases q <;> simp_all [Part.IsRead, Line.effects, RegSet.contains, RegSet.union]
    obtain ⟨htarget, hfetched⟩ := h.fetched hindex
    have hencode' : op.encode operand.mode = some (m'.bus.read m'.regs.pc) := by
      rw [h.bus, ← h.regs.pc]
      exact hencode
    rw [hstep, step_of_encode hencode', ← htarget]
    refine ⟨rfl, same_execute hop hreads (hshift m) ?_⟩
    obtain ⟨s, hs, heq⟩ := hfetched
    exact ⟨s, hs, by rw [heq]⟩
  · rw [hnext]
    exact execute_bus hw hsp _ _

/-- A machine that comes to the instruction `INX`. -/
def incrementing : Machine := (Machine.create 0xA000 0x2000 0xD500).poke 0 0xE8

/-- What `INX` does is the same whatever the accumulator holds, and it leaves it alone. -/
theorem sound_inx :
    Opcode.inx.encode Operand.implied.mode =
      some (incrementing.bus.read incrementing.regs.pc) ∧
    (Opcode.inx ≠ .brk ∧ Opcode.inx ≠ .rti) ∧
    SameMachineBut {.reg .a} incrementing.step.2
      ({ incrementing with regs := { incrementing.regs with a := 7 } } : Machine).step.2 := by
  have hencode : Opcode.inx.encode Operand.implied.mode =
      some (incrementing.bus.read incrementing.regs.pc) :=
    congrArg some (read_write_self (by decide) 0xE8).symm
  have hop : Opcode.inx ≠ .brk ∧ Opcode.inx ≠ .rti := by decide
  have hsound : Sound .inx .implied incrementing := step_sound rfl hencode hop
  have hdiffer : SameMachineBut {.reg .a} incrementing
      { incrementing with regs := { incrementing.regs with a := 7 } } :=
    ⟨_, ⟨fun p hp => Part.same_setReg (q := .a) _ 7 hp, fun _ _ _ _ => rfl, rfl, rfl⟩, rfl⟩
  obtain ⟨-, hsame⟩ := hsound.agrees {.reg .a} _ (by rintro p rfl; exact Bool.noConfusion) hdiffer
  exact ⟨hencode, hop, hsame.mono Set.sdiff_subset⟩

end Codegen6502.Proofs.Processor.EffectsTable
