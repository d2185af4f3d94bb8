import Codegen6502.Proofs.Allocating.Blocks
import Codegen6502.Proofs.Allocating.Housing
import Codegen6502.Proofs.Processor.Stack
import Codegen6502.Proofs.Processor.Stepping
import Codegen6502.Proofs.Selecting.Tracking

/-!
# What drafts know is true wherever they are run

`Truth` is what the knowledge of a draft says about a store, that of the flags included.
`truth_exec`: an instruction keeps it true, whatever it computes, as long as it does not write to
the scratch pointer through an address that is only known when it is executed.

Control does not only go from line to line: branches and jumps come to labels, and calls may come
back more than once.  An `Outline` has an assertion between any two lines, and asks of a line that
the assertion behind it follows from the one in front of it, or, at labels and behind calls, from
nothing.  `Upholds.run` carries the assertions through whole runs.  Every operation on drafts
appends an outline between what was known and what is known (`Grown.appends`), and `knowledge_true`
puts this together: wherever a run comes to the end of a draft, what the draft knows there is true,
and the loads, tests and set-ups that it leaves out would change nothing.
-/

namespace Codegen6502.Proofs.Selecting.Knowing

open Processor.Memory Processor.LineRun Processor.Straight Processor.Fetching Processor.Stack
open Processor.Agreement Processor.Stepping Tracking

variable {k : Linkage} {cell : UInt8} {known : Knowledge} {s t : Store} {op : Opcode} {operand : Operand}

/-! ### What is known of a store -/

/-- N and Z describe a byte. -/
def Describes (r : Registers) (byte : UInt8) : Prop :=
  r.flag .n = (byte &&& 0x80 != 0) ∧ r.flag .z = decide (byte = 0)

/-- Everything that is known is true of the store, that of the flags included. -/
structure Truth (k : Linkage) (cell : UInt8) (known : Knowledge) (s : Store) : Prop
    extends Knows k cell known s where
  nz : ∀ operand, known.nz = some operand →
    Knowledge.isTracked operand = true ∧ Describes s.regs (value k s operand)

theorem truth_nothing : Truth k cell {} s where
  toKnows := knows_nothing
  nz _ h := by cases h

theorem describes_setNZ (r : Registers) (byte : UInt8) : Describes (r.setNZ byte) byte :=
  ⟨by simp, by simp⟩

/-! ### What an instruction keeps -/

/-- The registers behind an instruction do not depend on where its operand lives. -/
theorem regs_exec (k : Linkage) (op : Opcode) (operand : Operand) (s : Store) :
    ∃ (m : Machine) (t : EffectiveOperand), m.regs = s.regs ∧
      (s.exec k op operand).regs = (m.execute op t).regs ∧
      (t = .accumulator → operand = .accumulator) := by
  cases operand with
  | virtual v => exact ⟨alone s.regs (s.cells v), .address 0, rfl, rfl, nofun⟩
  | frame o => exact ⟨alone s.regs (s.frame o), .address 0, rfl, rfl, nofun⟩
  | accumulator => exact ⟨s.machine, _, rfl, rfl, fun _ => rfl⟩
  | _ => exact ⟨s.machine, _, rfl, rfl, nofun⟩

/-- Only shifts and rotations have the accumulator for an operand. -/
theorem writes_of_accumulator (h : (op.encode .accumulator).isSome) :
    (op.effects .accumulator).writes.a = true := by
  cases op <;> first | rfl | cases h

/-- A register that is not among the effects is not written. -/
theorem exec_keeps (hdata : isData op = true) (hencode : (op.encode operand.mode).isSome) {r : Register}
    (hr : (op.effects operand).writes.contains r = false) :
    regValue (s.exec k op operand).regs r = regValue s.regs r := by
  obtain ⟨m, t, hm, hexec, haccumulator⟩ := regs_exec k op operand s
  rw [hexec, ← hm]
  refine execute_keeps operand hdata m (fun ht hra => ?_) hr
  obtain rfl := haccumulator ht
  subst hra
  exact absurd hr (by simp [RegSet.contains, writes_of_accumulator hencode])

/-- Flags that are not among the effects are not written. -/
theorem execute_keepsNZ (hdata : isData op = true) (h : (op.effects operand).writesNZ = false)
    (m : Machine) (t : EffectiveOperand) {f : Flag} (hf : f = .n ∨ f = .z) :
    (m.execute op t).regs.flag f = m.regs.flag f := by
  cases op <;> first
    | (cases hdata; done)
    | exact Bool.noConfusion (show true = false from h)
    | rfl
    | (cases t <;> rfl)
    | (rcases hf with rfl | rfl <;> simp [Machine.execute, Machine.mapRegs])

/-- The stack is not in the zero page. -/
theorem stack_ne_low (sp : UInt8) {c : UInt16} (hc : c.toNat < 0x100) : Machine.stackAddress sp ≠ c := by
  rintro rfl
  rw [toNat_stackAddress] at hc
  omega

/-- A virtual register that is not written is as before. -/
theorem cells_exec (hdata : isData op = true) {v : VReg}
    (h : op.writesMemory = true → operand ≠ .virtual v) :
    (s.exec k op operand).cells v = s.cells v := by
  cases operand with
  | virtual w =>
    by_cases hvw : v = w
    · subst hvw
      have hwrites : op.writesMemory = false := by
        by_contra hnot
        exact h (by simpa using hnot) rfl
      have hkept : (cellOp op s.regs (s.cells v)).2 = s.cells v := by
        unfold cellOp
        dsimp only
        rcases bus_execute hdata (alone s.regs (s.cells v)) (.address 0) with
          hbus | ⟨value, hbus⟩ | ⟨a, value, -, hw, -⟩
        · rw [hbus]
          exact read_alone ..
        · rw [hbus, read_write_outside (by rfl) (stack_ne_low _ (by decide))]
          exact read_alone ..
        · rw [hwrites] at hw
          cases hw
      exact (Function.update_self ..).trans hkept
    · exact Function.update_of_ne hvw _ _
  | _ => rfl

/-- The scratch pointer is outside the window of the banks. -/
structure Outside (cell : UInt8) (s : Store) : Prop where
  lo : s.machine.bus.inWindow cell.toUInt16 = false
  hi : s.machine.bus.inWindow (cell + 1).toUInt16 = false

theorem Outside.of_scratch (h : Outside cell s) {c : UInt16} (hc : IsScratch cell c) :
    s.machine.bus.inWindow c = false := by
  rcases hc with rfl | rfl
  · exact h.lo
  · exact h.hi

theorem low_scratch {c : UInt16} (hc : IsScratch cell c) : c.toNat < 0x100 := by
  rcases hc with rfl | rfl
  · rw [UInt8.toNat_toUInt16]
    exact cell.toNat_lt
  · rw [UInt8.toNat_toUInt16]
    exact (cell + 1).toNat_lt

/-- Whether an operand is reached through a full address. -/
def isFar : Operand → Bool
  | .absolute _ | .absoluteX _ | .absoluteY _ | .indirectY _ => true
  | _ => false

/-- An instruction does not write to the scratch pointer through a full address. -/
def Clear (k : Linkage) (cell : UInt8) (op : Opcode) (operand : Operand) (s : Store) : Prop :=
  op.writesMemory = true → isFar operand = true →
    ∀ a, k.effective s.machine operand = .address a → ¬ IsScratch cell a

theorem scratch_cell {z : UInt8} (h : IsScratch cell z.toUInt16) : z = cell ∨ z = cell + 1 :=
  h.imp UInt8.toUInt16_inj.mp UInt8.toUInt16_inj.mp

/-- A write to the scratch pointer names one of its cells. -/
theorem not_scratch (hclear : Clear k cell op operand s) (hwrites : op.writesMemory = true)
    (hcell : operand ≠ .zeroPage cell ∧ operand ≠ .zeroPage (cell + 1)) {a : UInt16}
    (ha : k.effective s.machine operand = .address a) : ¬ IsScratch cell a := by
  cases operand with
  | zeroPage z =>
    cases ha
    intro hscratch
    rcases scratch_cell hscratch with rfl | rfl
    · exact hcell.1 rfl
    · exact hcell.2 rfl
  | absolute address | absoluteX address | absoluteY address | indirectY z => exact hclear hwrites rfl a ha
  | _ => cases ha

/-- The scratch pointer is as before, if it is not named. -/
theorem bus_exec (hdata : isData op = true) (houtside : Outside cell s)
    (hclear : Clear k cell op operand s)
    (hcell : op.writesMemory = true → operand ≠ .zeroPage cell ∧ operand ≠ .zeroPage (cell + 1))
    {c : UInt16} (hc : IsScratch cell c) :
    (s.exec k op operand).machine.bus.read c = s.machine.bus.read c := by
  have hwindow := houtside.of_scratch hc
  have hmemory : (s.machine.execute op (k.effective s.machine operand)).bus.read c =
      s.machine.bus.read c := by
    rcases bus_execute hdata s.machine (k.effective s.machine operand) with
      hbus | ⟨value, hbus⟩ | ⟨a, value, ha, hwrites, hbus⟩
    · rw [hbus]
    · rw [hbus, read_write_outside hwindow (stack_ne_low _ (low_scratch hc))]
    · rw [hbus, read_write_outside hwindow]
      rintro rfl
      exact not_scratch hclear hwrites (hcell hwrites) ha hc
  cases operand with
  | virtual v => rfl
  | frame o => rfl
  | _ => exact hmemory

/-! ### What is known behind an instruction -/

/-- Whether an instruction writes to the memory that its operand names. -/
def isWrite (op : Opcode) (operand : Operand) : Bool := op.writesMemory && operand.isMemory

/-- What a write leaves of the knowledge. -/
def written (known : Knowledge) (cell : UInt8) (op : Opcode) (operand : Operand) : Knowledge :=
  if isWrite op operand then known.afterWrite cell operand else known

theorem after_eq (hdata : isData op = true) : known.after cell (.op op operand) =
    (written known cell op operand).afterRegisters op operand := by
  have hjsr : ¬ (op = .jsr ∨ op = .brk) := by
    rintro (rfl | rfl) <;> cases hdata
  rw [Knowledge.after, if_neg hjsr]
  rfl

/-- What is still known after a write was known before, and is not about what has been written. -/
theorem written_subset (known : Knowledge) (cell : UInt8) (op : Opcode) (operand : Operand) :
    (written known cell op operand).y = known.y ∧
    (∀ o ∈ (written known cell op operand).a, o ∈ known.a ∧ (isWrite op operand = true → operand ≠ o)) ∧
    (∀ o, (written known cell op operand).nz = some o →
      known.nz = some o ∧ (isWrite op operand = true → operand ≠ o)) ∧
    ∀ p, (written known cell op operand).pointer = some p → known.pointer = some p ∧
      (isWrite op operand = true → Knowledge.touchesPointer (some p) cell operand = false) := by
  unfold written
  split
  · simp only [Knowledge.afterWrite, List.mem_filter, decide_eq_true_eq]
    refine ⟨trivial, fun o ho => ⟨ho.1, fun _ => Ne.symm ho.2⟩, fun o ho => ?_, fun p hp => ?_⟩
    · split at ho
      · cases ho
      · rename_i hne
        refine ⟨ho, fun _ heq => hne ?_⟩
        rw [heq, ho]
    · split at hp
      · cases hp
      · rename_i hnot
        rw [hp] at hnot
        exact ⟨hp, fun _ => by simpa using hnot⟩
  · rename_i hnot
    exact ⟨rfl, fun o ho => ⟨ho, fun hw => absurd hw hnot⟩, fun o ho => ⟨ho, fun hw => absurd hw hnot⟩,
      fun p hp => ⟨hp, fun hw => absurd hw hnot⟩⟩

/-- What a write leaves of the knowledge is true with the registers as they were. -/
theorem truth_written (hdata : isData op = true) (houtside : Outside cell s)
    (hclear : Clear k cell op operand s) (h : Truth k cell known s) :
    Truth k cell (written known cell op operand) ((s.exec k op operand).setRegs s.regs) := by
  obtain ⟨hy, ha, hnz, hpointer⟩ :=
    written_subset known cell op operand
  have hvalue : ∀ o, Knowledge.isTracked o = true → (isWrite op operand = true → operand ≠ o) →
      value k ((s.exec k op operand).setRegs s.regs) o = value k s o := by
    intro o ho hother
    obtain ⟨v, rfl⟩ | ⟨byte, rfl⟩ := tracked_cases ho
    · refine cells_exec hdata fun hwrites heq => hother ?_ heq
      rw [isWrite, hwrites, heq]
      rfl
    · rfl
  refine { a := fun o ho => ?_, pointer := fun lo hi hp => ?_, y := ?_, nz := fun o ho => ?_ }
  · obtain ⟨hmem, hother⟩ := ha o ho
    obtain ⟨htracked, hheld⟩ := h.a o hmem
    exact ⟨htracked, (hvalue o htracked hother).trans hheld⟩
  · obtain ⟨hp, htouch⟩ := hpointer _ hp
    obtain ⟨hlo, hhi⟩ := h.pointer lo hi hp
    have hcell : op.writesMemory = true → operand ≠ .zeroPage cell ∧ operand ≠ .zeroPage (cell + 1) := by
      intro hwrites
      constructor <;>
      · rintro rfl
        simp [isWrite, hwrites, Operand.isMemory, Knowledge.touchesPointer] at htouch
    have hkept : ∀ v, v = lo ∨ v = hi → (s.exec k op operand).cells v = s.cells v := by
      intro v hv
      refine cells_exec hdata fun hwrites heq => ?_
      subst heq
      rcases hv with rfl | rfl <;>
        simp [isWrite, hwrites, Operand.isMemory, Knowledge.touchesPointer] at htouch
    change (s.exec k op operand).machine.bus.read _ = (s.exec k op operand).cells _ ∧
      (s.exec k op operand).machine.bus.read _ = (s.exec k op operand).cells _
    rw [bus_exec hdata houtside hclear hcell (Or.inl rfl),
      bus_exec hdata houtside hclear hcell (Or.inr rfl), hkept lo (Or.inl rfl), hkept hi (Or.inr rfl)]
    exact ⟨hlo, hhi⟩
  · rw [hy]
    exact h.y
  · obtain ⟨hmem, hother⟩ := hnz o ho
    obtain ⟨htracked, hheld⟩ := h.nz o hmem
    rw [hvalue o htracked hother]
    exact ⟨htracked, hheld⟩

/-- Knowledge that does not go beyond what was known, of a store with other registers. -/
theorem Truth.restrict {known' : Knowledge} {r : Registers} (h : Truth k cell known (t.setRegs r))
    (ha : ∀ o ∈ known'.a, o ∈ known.a ∧ t.regs.a = r.a)
    (hnz : ∀ o, known'.nz = some o → known.nz = some o ∧ ∀ f, f = .n ∨ f = .z → t.regs.flag f = r.flag f)
    (hpointer : known'.pointer = known.pointer)
    (hy : ∀ byte, known'.y = some byte → known.y = some byte ∧ t.regs.y = r.y) :
    Truth k cell known' t := by
  refine { a := fun o ho => ?_, pointer := ?_, y := fun byte hbyte => ?_, nz := fun o ho => ?_ }
  · obtain ⟨hmem, hsame⟩ := ha o ho
    obtain ⟨htracked, hheld⟩ := h.a o hmem
    exact ⟨htracked, (value_setRegs htracked r).symm.trans (hheld.trans hsame.symm)⟩
  · rw [hpointer]
    exact h.pointer
  · obtain ⟨hbyte, hsame⟩ := hy byte hbyte
    exact hsame.trans (h.y byte hbyte)
  · obtain ⟨hmem, hsame⟩ := hnz o ho
    obtain ⟨htracked, hn, hz⟩ := h.nz o hmem
    rw [value_setRegs htracked] at hn hz
    exact ⟨htracked, (hsame .n (Or.inl rfl)).trans hn, (hsame .z (Or.inr rfl)).trans hz⟩

/-- What the effects of an instruction leave of the knowledge. -/
def unaffected (known : Knowledge) (op : Opcode) (operand : Operand) : Knowledge :=
  { known with
    a := if (op.effects operand).writes.a then [] else known.a
    nz := if (op.effects operand).writesNZ then none else known.nz
    y := if (op.effects operand).writes.y then none else known.y }

theorem truth_unaffected (hdata : isData op = true) (hencode : (op.encode operand.mode).isSome)
    (h : Truth k cell known ((s.exec k op operand).setRegs s.regs)) :
    Truth k cell (unaffected known op operand) (s.exec k op operand) := by
  refine h.restrict (fun o ho => ?_) (fun o ho => ?_) rfl fun byte hbyte => ?_
  · simp only [unaffected] at ho
    split at ho
    · cases ho
    · rename_i hnot
      exact ⟨ho, exec_keeps (r := .a) hdata hencode (by simpa [RegSet.contains] using hnot)⟩
  · simp only [unaffected] at ho
    split at ho
    · cases ho
    · rename_i hnot
      obtain ⟨m, t, hm, hexec, -⟩ := regs_exec k op operand s
      refine ⟨ho, fun f hf => ?_⟩
      rw [hexec, execute_keepsNZ hdata (by simpa using hnot) m t hf, hm]
  · simp only [unaffected] at hbyte
    split at hbyte
    · cases hbyte
    · rename_i hnot
      exact ⟨hbyte, exec_keeps (r := .y) hdata hencode (by simpa [RegSet.contains] using hnot)⟩

theorem Truth.withFlags (h : Truth k cell known s) (htracked : Knowledge.isTracked operand = true)
    (hflags : Describes s.regs (value k s operand)) :
    Truth k cell { known with nz := some operand } s :=
  { h with nz := fun o ho => by cases ho; exact ⟨htracked, hflags⟩ }

theorem Truth.holding (h : Truth k cell known s) (htracked : Knowledge.isTracked operand = true)
    (ha : value k s operand = s.regs.a) : Truth k cell { known with a := known.a ++ [operand] } s := by
  refine { h with a := fun o ho => ?_ }
  rcases List.mem_append.mp ho with ho | ho
  · exact h.a o ho
  · rw [List.mem_singleton.mp ho]
    exact ⟨htracked, ha⟩

/-- Shifts and increments leave N and Z as their result has them. -/
theorem describes_cellOp (h : op.isReadModifyWrite = true) (r : Registers) (byte : UInt8) :
    Describes (cellOp op r byte).1 (cellOp op r byte).2 := by
  have hregs : (alone r byte).regs = r := rfl
  cases op <;> first
    | (cases h; done)
    | simp [cellOp, Machine.execute, Machine.writeOperand, Machine.mapRegs, Machine.readOperand,
        read_alone, read_alone_write, describes_setNZ]

/-- **What is known behind an instruction** of what its registers, flags and operand are then. -/
theorem truth_registers (hdata : isData op = true) (hencode : (op.encode operand.mode).isSome)
    (h : Truth k cell known ((s.exec k op operand).setRegs s.regs)) :
    Truth k cell (known.afterRegisters op operand) (s.exec k op operand) := by
  have hrest := truth_unaffected hdata hencode h
  cases op
  case lda =>
    have hlda : known.afterRegisters .lda operand =
        if Knowledge.isTracked operand then { known with a := [operand], nz := some operand }
        else unaffected known .lda operand := rfl
    rw [hlda]
    split_ifs with htracked
    · refine Truth.withFlags (Truth.holding hrest htracked ?_) htracked ?_
      · rw [exec_lda]
        exact value_setRegs htracked _
      · rw [exec_lda, value_setRegs htracked]
        exact describes_setNZ _ _
    · exact hrest
  case sta =>
    cases operand with
    | virtual v =>
      refine Truth.holding hrest rfl ?_
      simp only [@exec_sta k s (.virtual v) trivial]
      exact Function.update_self ..
    | _ => exact hrest
  case ldy =>
    cases operand with
    | immediate i =>
      cases i with
      | byte b => exact { hrest with y := fun byte hbyte => by cases hbyte; rfl }
      | symbol name addend half => exact hrest
    | _ => exact hrest
  case inc | dec | asl | lsr | rol | ror =>
    cases operand with
    | virtual v =>
      have hcell : ∀ op, (s.exec k op (.virtual v)).cells v = (cellOp op s.regs (s.cells v)).2 :=
        fun _ => Function.update_self ..
      have hflags := @Truth.withFlags k cell _ _ (.virtual v) hrest rfl (by
        rw [value, hcell]
        exact describes_cellOp rfl s.regs (s.cells v))
      exact hflags
    | _ => exact hrest
  all_goals first
    | (cases hdata; done)
    | exact hrest

/-- **An instruction keeps the knowledge true**, if it does not write to the scratch pointer
unnoticed. -/
theorem truth_exec (hdata : isData op = true) (hencode : (op.encode operand.mode).isSome)
    (houtside : Outside cell s) (hclear : Clear k cell op operand s) (h : Truth k cell known s) :
    Truth k cell (known.after cell (.op op operand)) (s.exec k op operand) := by
  rw [after_eq hdata]
  exact truth_registers hdata hencode (truth_written hdata houtside hclear h)

/-- What is known of A, Y and the scratch pointer does not depend on what is known of the flags. -/
theorem after_flags (known : Knowledge) (cell : UInt8) (operand : Operand) (hdata : isData op = true)
    (nz : Option Operand) :
    ({ known with nz := nz }.after cell (.op op operand)).a = (known.after cell (.op op operand)).a ∧
    ({ known with nz := nz }.after cell (.op op operand)).pointer =
      (known.after cell (.op op operand)).pointer ∧
    ({ known with nz := nz }.after cell (.op op operand)).y = (known.after cell (.op op operand)).y := by
  rw [after_eq hdata, after_eq hdata]
  unfold written
  split <;> cases op <;> first
    | (cases hdata; done)
    | exact ⟨rfl, rfl, rfl⟩
    | (unfold Knowledge.afterRegisters; split <;> exact ⟨rfl, rfl, rfl⟩)
    | (cases operand <;> exact ⟨rfl, rfl, rfl⟩)

/-- An instruction keeps what is known of A, Y and the scratch pointer true, whatever the flags
are. -/
theorem knows_exec (hdata : isData op = true) (hencode : (op.encode operand.mode).isSome)
    (houtside : Outside cell s) (hclear : Clear k cell op operand s) (h : Knows k cell known s) :
    Knows k cell (known.after cell (.op op operand)) (s.exec k op operand) := by
  have htruth : Truth k cell { known with nz := none } s := ⟨⟨h.a, h.pointer, h.y⟩, nofun⟩
  obtain ⟨ha, hpointer, hy⟩ := after_flags known cell operand hdata none
  have hafter := (truth_exec hdata hencode houtside hclear htruth).toKnows
  refine ⟨fun o ho => hafter.a o ?_, fun lo hi hp => hafter.pointer lo hi ?_,
    fun byte hb => hafter.y byte ?_⟩
  · rwa [ha]
  · rwa [hpointer]
  · rwa [hy]

/-! ### Code with what holds in it -/

/-- What holds at a point of the code. -/
abbrev Assertion := Store → Prop

/-- What holds behind a line, if control comes there by going on: nothing is left at a label, where
control comes from elsewhere too, and behind a call. -/
def Follows (k : Linkage) (cell : UInt8) (line : Line) (P R : Assertion) : Prop :=
  match line with
  | .label _ => ∀ s, R s
  | .comment _ => ∀ s, P s → R s
  | .op op operand =>
    (op = .jsr → ∀ s, R s) ∧ (op.isBranch = true → ∀ s, P s → R s) ∧
      (isData op = true → (op.encode operand.mode).isSome → ∀ s, Outside cell s →
        Clear k cell op operand s → P s → R (s.exec k op operand))

/-- Lines that lead from one assertion to another. -/
inductive Outline (k : Linkage) (cell : UInt8) : Assertion → List Line → Assertion → Prop
  | nil {P Q : Assertion} (h : ∀ s, P s → Q s) : Outline k cell P [] Q
  | cons {line : Line} {lines : List Line} {P R Q : Assertion} (first : Follows k cell line P R)
    (rest : Outline k cell R lines Q) : Outline k cell P (line :: lines) Q

section Outlines

variable {line : Line} {front back lines : List Line} {P P' Q R : Assertion}

theorem Follows.strengthen (h : Follows k cell line P R) (hP : ∀ s, P' s → P s) :
    Follows k cell line P' R := by
  cases line with
  | label name => exact h
  | comment text => exact fun s hs => h s (hP s hs)
  | op op operand =>
    exact ⟨h.1, fun hbranch s hs => h.2.1 hbranch s (hP s hs), fun hdata hencode s houtside hclear hs =>
      h.2.2 hdata hencode s houtside hclear (hP s hs)⟩

theorem Outline.strengthen (h : Outline k cell P lines Q) (hP : ∀ s, P' s → P s) :
    Outline k cell P' lines Q := by
  cases h with
  | nil h => exact .nil fun s hs => h s (hP s hs)
  | cons first rest => exact .cons (first.strengthen hP) rest

theorem Outline.weaken {Q' : Assertion} (h : Outline k cell P lines Q) (hQ : ∀ s, Q s → Q' s) :
    Outline k cell P lines Q' := by
  induction h with
  | nil h => exact .nil fun s hs => hQ s (h s hs)
  | cons first _ ih => exact .cons first (ih hQ)

theorem Outline.append (h : Outline k cell P front R) (h' : Outline k cell R back Q) :
    Outline k cell P (front ++ back) Q := by
  induction h with
  | nil h => exact h'.strengthen h
  | cons first _ ih => exact .cons first (ih h')

theorem Outline.single (h : Follows k cell line P Q) : Outline k cell P [line] Q :=
  .cons h (.nil fun _ hs => hs)

/-- Assertions at the points of the code that hold one behind the other. -/
def Marks (k : Linkage) (cell : UInt8) (code : List Line) (I : ℕ → Assertion) : Prop :=
  ∀ i line, code[i]? = some line → Follows k cell line (I i) (I (i + 1))

/-- One more assertion in front. -/
def inFront (P : Assertion) (I : ℕ → Assertion) : ℕ → Assertion
  | 0 => P
  | i + 1 => I i

theorem Marks.cons {I : ℕ → Assertion} (first : Follows k cell line P (I 0)) (h : Marks k cell lines I) :
    Marks k cell (line :: lines) (inFront P I) := by
  intro i l hl
  cases i with
  | zero =>
    cases hl
    exact first
  | succ i => exact h i l hl

theorem Outline.marks (h : Outline k cell P lines Q) : ∃ I, I 0 = P ∧ Marks k cell lines I := by
  induction h with
  | @nil P Q h => exact ⟨fun _ => P, rfl, fun _ _ hl => by cases hl⟩
  | @cons line lines P R Q first _ ih =>
    obtain ⟨I, rfl, hmarks⟩ := ih
    exact ⟨inFront P I, rfl, hmarks.cons first⟩

/-- The assertion between two parts of the code implies what is known there. -/
theorem Outline.marks_append (h : Outline k cell P front R) (h' : Outline k cell R back Q) :
    ∃ I, I 0 = P ∧ (∀ s, I front.length s → R s) ∧ Marks k cell (front ++ back) I := by
  induction h with
  | @nil P R h =>
    obtain ⟨I, rfl, hmarks⟩ := (h'.strengthen h).marks
    exact ⟨I, rfl, h, hmarks⟩
  | @cons line lines P R Q first _ ih =>
    obtain ⟨I, rfl, hmiddle, hmarks⟩ := ih h'
    exact ⟨inFront P I, rfl, hmiddle, hmarks.cons first⟩

end Outlines

/-! ### Runs -/

section Runs

variable {e : Environment} {code : List Line} {calls : Std.TreeMap ℕ CallTarget} {I : ℕ → Assertion}
  {c c' : Config}

/-- The next instruction does not write to the scratch pointer through a full address. -/
def ClearAt (e : Environment) (cell : UInt8) (code : List Line) (c : Config) : Prop :=
  ∀ op operand, code[c.line]? = some (.op op operand) → Clear e.linkage cell op operand c.store

/-- Whether a line writes nothing through a full address. -/
def isNear : Line → Bool
  | .op op operand => !(op.writesMemory && isFar operand)
  | _ => true

/-- Code in which nothing is written through a full address keeps the scratch pointer clear. -/
theorem clearAt_of_near (h : ∀ line ∈ code, isNear line = true) : ClearAt e cell code c := by
  intro op operand hline hwrites hfar
  have hnear := h _ (List.mem_of_getElem? hline)
  simp [isNear, hwrites, hfar] at hnear

/-- What holds at a point of a run: the assertion of that point, but perhaps at a label. -/
structure Upholds (cell : UInt8) (code : List Line) (I : ℕ → Assertion) (c : Config) : Prop where
  here : (∃ name, code[c.line]? = some (.label name)) ∨ I c.line c.store
  captured : ∀ p ∈ c.captures, ∀ s, I p.1 s
  outside : Outside cell c.store

theorem outside_bus {b : Bus} (h : Outside cell s) (hbus : t.machine.bus = b)
    (hwindow : ∀ a, b.inWindow a = s.machine.bus.inWindow a) : Outside cell t :=
  ⟨by rw [hbus, hwindow, h.lo], by rw [hbus, hwindow, h.hi]⟩

theorem outside_exec (hdata : isData op = true) (h : Outside cell s) :
    Outside cell (s.exec k op operand) := by
  have hmemory : Outside cell
      { s with machine := s.machine.execute op (k.effective s.machine operand) } := by
    rcases bus_execute hdata s.machine (k.effective s.machine operand) with
      hbus | ⟨value, hbus⟩ | ⟨a, value, -, -, hbus⟩
    · exact outside_bus h hbus fun _ => rfl
    · exact outside_bus h hbus fun _ => inWindow_write ..
    · exact outside_bus h hbus fun _ => inWindow_write ..
  cases operand with
  | virtual v => exact ⟨h.lo, h.hi⟩
  | frame o => exact ⟨h.lo, h.hi⟩
  | _ => exact hmemory

/-- The environment does not move the window of the banks. -/
theorem outside_answered (h : Outside cell c.store) (event : Event) :
    Outside cell (c.answered e event).store := by
  obtain ⟨ram, hbus, -⟩ := Allocating.Housing.bus_answered (e.answer (c.trace ++ [event])) c.store.machine
  simp only [Config.answered]
  generalize (e.answer (c.trace ++ [event])).apply c.store.machine = m at hbus ⊢
  exact outside_bus h hbus fun _ => rfl

/-- **One line** leads from one assertion to the next. -/
theorem Upholds.step (h : Upholds cell code I c) (hmarks : Marks e.linkage cell code I)
    (hclear : ClearAt e cell code c) (hstep : step e code calls c = some c') : Upholds cell code I c' := by
  -- In front of anything but a label, the assertion holds.
  have hhere : ∀ line, code[c.line]? = some line → (∀ name, line ≠ .label name) →
      I c.line c.store := fun line hline hlabel => h.here.resolve_left fun ⟨name, hname⟩ => by
    rw [hline] at hname
    exact hlabel name (Option.some.inj hname)
  cases goes_of_step hstep with
  | @pseudo line hline hpseudo =>
    have hfollows := hmarks _ _ hline
    refine ⟨Or.inr ?_, h.captured, h.outside⟩
    cases line with
    | label name => exact hfollows _
    | comment text => exact hfollows _ (hhere _ hline nofun)
    | op op operand => cases hpseudo
  | data hline hencode hdata =>
    refine ⟨Or.inr ?_, h.captured, outside_exec hdata h.outside⟩
    exact (hmarks _ _ hline).2.2 hdata hencode _ h.outside (hclear _ _ hline) (hhere _ hline nofun)
  | stay hline hop =>
    exact ⟨Or.inr ((hmarks _ _ hline).2.1 hop _ (hhere _ hline nofun)), h.captured, h.outside⟩
  | goto hline hgoes hi => exact ⟨Or.inl ⟨_, hi⟩, h.captured, h.outside⟩
  | behind hline hafter =>
    have hnext := (hmarks _ _ hline).1 rfl
    refine ⟨Or.inr (hnext _), fun p hp => ?_, by rw [hafter]; exact outside_answered h.outside _⟩
    dsimp only at hp
    split at hp
    · rcases List.mem_append.mp hp with hp | hp
      · exact h.captured p hp
      · rw [List.mem_singleton.mp hp]
        exact hnext
    · exact h.captured p hp
  | back hafter hcapture hat =>
    obtain rfl := hat
    have houtside := outside_answered (e := e) h.outside
    refine ⟨Or.inr (h.captured _ hcapture _), ?_, ?_⟩
    · rw [hafter, captures_answered]
      exact h.captured
    · rw [hafter]
      exact ⟨(houtside _).lo, (houtside _).hi⟩

/-- **A run** upholds the assertions, if it never writes to the scratch pointer through a full
address. -/
theorem Upholds.run (hmarks : Marks e.linkage cell code I) {n : ℕ} (h : Upholds cell code I c)
    (hclear : ∀ j < n, ∀ c', run e code calls j c = some c' → ClearAt e cell code c')
    (hrun : run e code calls n c = some c') : Upholds cell code I c' :=
  run_invariant h (fun j hj c₁ _ hc₁ hstep hupholds => hupholds.step hmarks (hclear j hj c₁ hc₁) hstep)
    hrun

end Runs

/-! ### Steps of a draft -/

/-- Any line keeps the knowledge true. -/
theorem follows_after (line : Line) :
    Follows k cell line (Truth k cell known) (Truth k cell (known.after cell line)) := by
  cases line with
  | label name => exact fun s => truth_nothing
  | comment text => exact fun s hs => hs
  | op op operand =>
    refine ⟨?_, fun hbranch s hs => ?_, fun hdata hencode s houtside hclear hs =>
      truth_exec hdata hencode houtside hclear hs⟩
    · rintro rfl s
      exact truth_nothing
    · have hsame : known.after cell (.op op operand) = known := by
        cases op <;> first | (cases hbranch; done) | rfl
      rwa [hsame]

/-- A draft goes on from another one; what it knows at the end is true if that of the other one
is. -/
structure Appends (k : Linkage) (d d' : Draft) : Prop where
  cell : d'.pointerCell = d.pointerCell
  lines : ∃ lines, d'.code = d.code ++ lines ∧
    Outline k d.pointerCell (Truth k d.pointerCell d.known) lines (Truth k d.pointerCell d'.known)

namespace Appends

variable {d d' d'' : Draft}

/-- Nothing is appended. -/
theorem of_eq (hcell : d'.pointerCell = d.pointerCell) (hcode : d'.code = d.code)
    (hknown : d'.known = d.known) : Appends k d d' :=
  ⟨hcell, [], by rw [hcode, List.append_nil], .nil fun s hs => by rwa [hknown]⟩

theorem refl (d : Draft) : Appends k d d := of_eq rfl rfl rfl

theorem trans (h : Appends k d d') (h' : Appends k d' d'') : Appends k d d'' := by
  obtain ⟨front, hfront, hthere⟩ := h.lines
  obtain ⟨back, hback, hon⟩ := h'.lines
  rw [h.cell] at hon
  exact ⟨h'.cell.trans h.cell, front ++ back, by rw [hback, hfront, List.append_assoc], hthere.append hon⟩

theorem push (d : Draft) (line : Line) : Appends k d (d.push line) :=
  ⟨rfl, [line], rfl, .single (follows_after line)⟩

theorem pushOp (d : Draft) (opcode : Opcode) (operand : Operand) : Appends k d (d.op opcode operand) :=
  push d _

theorem newVReg (d : Draft) : Appends k d d.newVReg.2 := of_eq rfl rfl rfl

theorem setY (d : Draft) (byte : UInt8) : Appends k d (d.setY byte) := by
  unfold Draft.setY
  split
  · exact refl d
  · exact pushOp d _ _

theorem loadOperand (d : Draft) (operand : Operand) : Appends k d (d.loadOperand operand) := by
  unfold Draft.loadOperand
  split
  · exact refl d
  · exact pushOp d _ _

end Appends

/-! ### The scratch pointer -/

section Pointers

variable {F G : Assertion} {d : Draft}

/-- A register is in A behind its load, whatever else holds that does not depend on the
registers. -/
theorem outline_loadOperand (hcell : d.pointerCell = cell) (v : VReg) (hF : ∀ s r, F s → F (s.setRegs r)) :
    ∃ lines, (d.loadOperand (.virtual v)).code = d.code ++ lines ∧
      Outline k cell (fun s => Truth k cell d.known s ∧ F s) lines fun s =>
        Truth k cell (d.loadOperand (.virtual v)).known s ∧ F s ∧ s.regs.a = s.cells v := by
  subst hcell
  unfold Draft.loadOperand
  split
  · rename_i hheld
    refine ⟨[], (List.append_nil _).symm, .nil fun s hs => ⟨hs.1, hs.2, ?_⟩⟩
    exact (hs.1.a _ (List.contains_iff_mem.mp hheld)).2.symm
  · refine ⟨_, rfl, .single ⟨nofun, nofun, fun hdata hencode s houtside hclear hs => ⟨?_, ?_, ?_⟩⟩⟩
    · exact truth_exec hdata hencode houtside hclear hs.1
    · rw [exec_lda]
      exact hF s _ hs.2
    · rw [exec_lda]
      rfl

/-- The store with A in a cell of the zero page. -/
def storedIn (z : UInt8) (s : Store) : Store :=
  { s with machine := { s.machine with bus := s.machine.bus.write z.toUInt16 s.regs.a } }

/-- What holds behind a store to the zero page. -/
theorem outline_sta (hcell : d.pointerCell = cell) (z : UInt8)
    (hG : ∀ s, Outside cell s → F s → G (storedIn z s)) :
    ∃ lines, (d.op .sta (.zeroPage z)).code = d.code ++ lines ∧
      Outline k cell (fun s => Truth k cell d.known s ∧ F s) lines fun s =>
        Truth k cell (d.op .sta (.zeroPage z)).known s ∧ G s := by
  subst hcell
  exact ⟨_, rfl, .single ⟨nofun, nofun, fun hdata hencode s houtside hclear hs =>
    ⟨truth_exec hdata hencode houtside hclear hs.1, hG s houtside hs.2⟩⟩⟩

/-- **The scratch pointer** holds the pointer behind its set-up. -/
theorem Appends.setPointer (d : Draft) (pointer : PointerPair) : Appends k d (d.setPointer pointer) := by
  unfold Draft.setPointer
  split
  · exact .refl d
  obtain ⟨lo, hi⟩ := pointer
  set d₁ := d.loadOperand (.virtual lo)
  have hcell₁ : d₁.pointerCell = d.pointerCell := (Appends.loadOperand (k := k) d _).cell
  set d₂ := d₁.op .sta (.zeroPage d.pointerCell)
  have hcell₂ : d₂.pointerCell = d.pointerCell := hcell₁
  set d₃ := d₂.loadOperand (.virtual hi)
  have hcell₃ : d₃.pointerCell = d.pointerCell := (Appends.loadOperand (k := k) d₂ _).cell.trans hcell₂
  -- The low byte first.
  obtain ⟨lines₁, hcode₁, h₁⟩ := outline_loadOperand (k := k) (F := fun _ => True) (d := d) rfl lo
    fun _ _ h => h
  obtain ⟨lines₂, hcode₂, h₂⟩ := outline_sta (k := k) hcell₁ d.pointerCell
    (F := fun s => s.regs.a = s.cells lo)
    (G := fun s => s.machine.bus.read d.pointerCell.toUInt16 = s.cells lo)
    fun s houtside ha => (read_write_self houtside.lo _).trans ha
  -- The high byte leaves it where it is.
  obtain ⟨lines₃, hcode₃, h₃⟩ := outline_loadOperand (k := k)
    (F := fun s => s.machine.bus.read d.pointerCell.toUInt16 = s.cells lo) hcell₂ hi fun _ _ h => h
  obtain ⟨lines₄, hcode₄, h₄⟩ := outline_sta (k := k) hcell₃ (d.pointerCell + 1)
    (F := fun s => s.machine.bus.read d.pointerCell.toUInt16 = s.cells lo ∧ s.regs.a = s.cells hi)
    (G := fun s => s.machine.bus.read d.pointerCell.toUInt16 = s.cells lo ∧
      s.machine.bus.read (d.pointerCell + 1).toUInt16 = s.cells hi)
    fun s houtside hs => ⟨(read_write_outside houtside.lo (scratch_ne _).symm _).trans hs.1,
      (read_write_self houtside.hi _).trans hs.2⟩
  have hfront := h₁.append (h₂.strengthen fun _ hs => ⟨hs.1, hs.2.2⟩)
  have hback := h₃.append (h₄.strengthen fun _ hs => hs)
  refine ⟨hcell₃, (lines₁ ++ lines₂) ++ (lines₃ ++ lines₄), ?_, ?_⟩
  · change (d₃.op .sta (.zeroPage (d₂.pointerCell + 1))).code = _
    rw [hcell₂, hcode₄, show d₃.code = d₂.code ++ lines₃ from hcode₃,
      show d₂.code = d₁.code ++ lines₂ from hcode₂, show d₁.code = d.code ++ lines₁ from hcode₁]
    simp only [List.append_assoc]
  · refine ((hfront.append hback).strengthen fun _ hs => ⟨hs, trivial⟩).weaken fun s hs => ?_
    change Truth k d.pointerCell
      { (d₃.op .sta (.zeroPage (d₂.pointerCell + 1))).known with pointer := some (lo, hi) } s
    rw [hcell₂]
    exact { hs.1 with pointer := fun _ _ hp => by cases hp; exact hs.2 }

end Pointers

/-! ### Everything that is done with drafts -/

/-- **A draft grows** by the operations on drafts.  A candidate grows from a fork and is committed
to the draft that it was forked from. -/
inductive Grown : Draft → Draft → Prop
  | start (d : Draft) : Grown d d
  | op {d₀ d : Draft} (h : Grown d₀ d) (opcode : Opcode) (operand : Operand) :
    Grown d₀ (d.op opcode operand)
  | bare {d₀ d : Draft} (h : Grown d₀ d) (opcode : Opcode) : Grown d₀ (d.bare opcode)
  | label {d₀ d : Draft} (h : Grown d₀ d) (name : String) : Grown d₀ (d.label name)
  | branch {d₀ d : Draft} (h : Grown d₀ d) (opcode : Opcode) (target : String) :
    Grown d₀ (d.branch opcode target)
  | jmp {d₀ d : Draft} (h : Grown d₀ d) (target : String) : Grown d₀ (d.jmp target)
  | call {d₀ d : Draft} (h : Grown d₀ d) (name : String) (target : CallTarget) :
    Grown d₀ (d.call name target)
  | callAddress {d₀ d : Draft} (h : Grown d₀ d) (address : UInt16) (target : CallTarget) :
    Grown d₀ (d.callAddress address target)
  | uses {d₀ d : Draft} (h : Grown d₀ d) (routine : Routine) : Grown d₀ (d.uses routine)
  | newVReg {d₀ d : Draft} (h : Grown d₀ d) : Grown d₀ d.newVReg.2
  | loadA {d₀ d : Draft} (h : Grown d₀ d) (loc : ByteLoc) : Grown d₀ (d.loadA loc)
  | storeA {d₀ d d' : Draft} {loc : ByteLoc} (h : Grown d₀ d) (step : d.storeA loc = .ok d') : Grown d₀ d'
  | compute {d₀ d d' : Draft} {opcode : Opcode} {loc : ByteLoc} (h : Grown d₀ d)
    (step : d.compute opcode loc = .ok d') : Grown d₀ d'
  | test {d₀ d : Draft} (h : Grown d₀ d) (loc : ByteLoc) : Grown d₀ (d.test loc)
  | materialize {d₀ d d' : Draft} {loc loc' : ByteLoc} (h : Grown d₀ d)
    (step : d.materialize loc = .ok (loc', d')) : Grown d₀ d'
  | commit {d₀ d f : Draft} (h : Grown d₀ d) (candidate : Grown d.fork f) : Grown d₀ (d.commit f)

section Growing

variable {d d' d₀ f : Draft}

theorem Appends.loadA (d : Draft) (loc : ByteLoc) : Appends k d (d.loadA loc) := by
  cases loc with
  | direct operand => exact .loadOperand d operand
  | indirect pointer offset =>
    exact ((Appends.setPointer d pointer).trans (.setY _ offset)).trans (.pushOp _ _ _)

theorem Appends.aim (d : Draft) (pointer : PointerPair) : Appends k d (aim d pointer) := by
  unfold Tracking.aim
  split
  · exact .refl d
  · exact (((Appends.newVReg d).trans (.pushOp _ _ _)).trans (.setPointer _ pointer)).trans (.pushOp _ _ _)

theorem Appends.storeA {loc : ByteLoc} (h : d.storeA loc = .ok d') : Appends k d d' := by
  cases loc with
  | direct operand =>
    simp only [Draft.storeA] at h
    split at h
    · cases h
      exact .pushOp d _ _
    · cases h
  | indirect pointer offset =>
    have hd' : ((Tracking.aim d pointer).setY offset).op .sta
        (.indirectY (Tracking.aim d pointer).pointerCell) = d' := Except.ok.inj h
    rw [← hd']
    exact ((Appends.aim d pointer).trans (.setY _ offset)).trans (.pushOp _ _ _)

theorem Appends.compute {opcode : Opcode} {loc : ByteLoc} (h : d.compute opcode loc = .ok d') :
    Appends k d d' := by
  cases loc with
  | direct operand =>
    cases h
    exact .pushOp d _ _
  | indirect pointer offset =>
    simp only [Draft.compute] at h
    split at h
    · cases h
      exact (Appends.setY d offset).trans (.pushOp _ _ _)
    · cases h

theorem Appends.test (d : Draft) (loc : ByteLoc) : Appends k d (d.test loc) := by
  cases loc with
  | direct operand =>
    unfold Draft.test
    dsimp only
    split
    · exact .refl d
    · exact .pushOp d _ _
  | indirect pointer offset => exact Appends.loadA d (.indirect pointer offset)

theorem Appends.materialize {loc loc' : ByteLoc} (h : d.materialize loc = .ok (loc', d')) :
    Appends k d d' := by
  unfold Draft.materialize at h
  split at h
  · dsimp only at h
    split at h
    · rename_i hstore
      cases h
      exact ((Appends.newVReg d).trans (.loadA _ loc)).trans (.storeA hstore)
    · cases h
  · cases h
    exact .refl d

theorem Appends.of_calls (d : Draft) (calls : List (ℕ × CallTarget)) :
    Appends k d { d with calls := calls } :=
  .of_eq rfl rfl rfl

theorem Appends.call (d : Draft) (name : String) (target : CallTarget) :
    Appends k d (d.call name target) :=
  .trans (.of_calls d _) (.push _ _)

theorem Appends.callAddress (d : Draft) (address : UInt16) (target : CallTarget) :
    Appends k d (d.callAddress address target) :=
  .trans (.of_calls d _) (.push _ _)

/-- Committing a candidate does what it does. -/
theorem Appends.commit (h : Appends k d.fork f) : Appends k d (d.commit f) := by
  obtain ⟨lines, hcode, houtline⟩ := h.lines
  exact ⟨rfl, lines, congrArg (d.code ++ ·) hcode, houtline⟩

/-- **Whatever a draft knows is true** behind its code, if it was in front. -/
theorem Grown.appends (h : Grown d₀ d) : Appends k d₀ d := by
  induction h with
  | start d => exact .refl d
  | op _ opcode operand ih => exact ih.trans (.pushOp _ _ _)
  | bare _ opcode ih => exact ih.trans (.push _ _)
  | label _ name ih => exact ih.trans (.push _ _)
  | branch _ opcode target ih => exact ih.trans (.push _ _)
  | jmp _ target ih => exact ih.trans (.push _ _)
  | call _ name target ih => exact ih.trans (.call _ name target)
  | callAddress _ address target ih => exact ih.trans (.callAddress _ address target)
  | uses _ routine ih => exact ih.trans (.of_eq rfl rfl rfl)
  | newVReg _ ih => exact ih.trans (.newVReg _)
  | loadA _ loc ih => exact ih.trans (.loadA _ loc)
  | storeA _ step ih => exact ih.trans (.storeA step)
  | compute _ step ih => exact ih.trans (.compute step)
  | test _ loc ih => exact ih.trans (.test _ loc)
  | materialize _ step ih => exact ih.trans (.materialize step)
  | commit _ _ ih ihf => exact ih.trans (.commit ihf)

end Growing

/-! ### What is left out -/

/-- What a draft leaves out would change nothing. -/
structure Spared (k : Linkage) (d : Draft) (s : Store) : Prop where
  load : ∀ operand, d.loadOperand operand = d → (s.exec k .lda operand).regs.a = s.regs.a
  test : ∀ operand, d.test (.direct operand) = d → ∀ f, f = .n ∨ f = .z →
    (s.exec k .lda operand).regs.flag f = s.regs.flag f
  pointer : ∀ lo hi, d.setPointer (lo, hi) = d →
    s.machine.bus.read d.pointerCell.toUInt16 = s.cells lo ∧
      s.machine.bus.read (d.pointerCell + 1).toUInt16 = s.cells hi
  y : ∀ byte, d.setY byte = d → (s.exec k .ldy (.byte byte)).regs.y = s.regs.y

section Sparing

variable {d d' : Draft}

/-- A line makes the code longer. -/
theorem op_ne_self (d : Draft) (opcode : Opcode) (operand : Operand) : d.op opcode operand ≠ d := by
  intro h
  have hlength := congrArg (·.code.length) h
  simp [Draft.op, Draft.push] at hlength

theorem loadOperand_skipped (h : d.loadOperand operand = d) : operand ∈ d.known.a := by
  unfold Draft.loadOperand at h
  split at h
  · rename_i hheld
    exact List.contains_iff_mem.mp hheld
  · exact (op_ne_self _ _ _ h).elim

theorem test_skipped (h : d.test (.direct operand) = d) : d.known.nz = some operand := by
  unfold Draft.test at h
  dsimp only at h
  split at h
  · rename_i hdescribed
    simpa [Knowledge.flagsDescribe] using hdescribed
  · exact (op_ne_self _ _ _ h).elim

theorem setY_skipped {byte : UInt8} (h : d.setY byte = d) : d.known.y = some byte := by
  unfold Draft.setY at h
  split at h
  · assumption
  · exact (op_ne_self _ _ _ h).elim

theorem length_le_loadOperand (d : Draft) (operand : Operand) :
    d.code.length ≤ (d.loadOperand operand).code.length := by
  obtain ⟨-, lines, hcode, -⟩ := Appends.loadOperand (k := ⟨fun _ => 0, 0⟩) d operand
  rw [hcode, List.length_append]
  exact Nat.le_add_right ..

theorem setPointer_skipped {pointer : PointerPair} (h : d.setPointer pointer = d) :
    d.known.pointer = some pointer := by
  unfold Draft.setPointer at h
  split at h
  · assumption
  · have hlength := congrArg (·.code.length) h
    have hlo := length_le_loadOperand d (.virtual pointer.1)
    have hhi := length_le_loadOperand
      ((d.loadOperand (.virtual pointer.1)).op .sta (.zeroPage d.pointerCell)) (.virtual pointer.2)
    simp only [Draft.op, Draft.push, List.length_append, List.length_singleton] at hlength hhi
    omega

/-- Where what is known is true, what is left out would change nothing. -/
theorem Truth.spared (h : Truth k d.pointerCell d.known s) : Spared k d s where
  load operand hskip := by
    rw [exec_lda]
    exact (h.a _ (loadOperand_skipped hskip)).2
  test operand hskip f hf := by
    obtain ⟨-, hn, hz⟩ := h.nz _ (test_skipped hskip)
    rw [exec_lda]
    obtain ⟨hn', hz'⟩ := describes_setNZ { s.regs with a := value k s operand } (value k s operand)
    rcases hf with rfl | rfl
    · exact hn'.trans hn.symm
    · exact hz'.trans hz.symm
  pointer lo hi hskip := h.pointer _ _ (setPointer_skipped hskip)
  y byte hskip := (h.y _ (setY_skipped hskip)).symm

end Sparing

/-- **What a draft knows is true** whenever a run of the code comes to its end, be it there that the
code ends or that more has been appended since; and what the draft leaves out there would change
nothing. -/
theorem knowledge_true {d d' : Draft} {next : UInt32} {e : Environment}
    {calls : Std.TreeMap ℕ CallTarget} {n : ℕ} {c₀ c : Config} (hgrown : Grown (.create cell next) d)
    (hgrows : Grown d d') (hline : c₀.line = 0) (hcaptures : c₀.captures = [])
    (houtside : Outside cell c₀.store)
    (hclear : ∀ j < n, ∀ c', run e d'.code calls j c₀ = some c' → ClearAt e cell d'.code c')
    (hrun : run e d'.code calls n c₀ = some c) (hend : c.line = d.code.length)
    (hlabel : ∀ name, d'.code[c.line]? ≠ some (.label name)) :
    Truth e.linkage cell d.known c.store ∧ Spared e.linkage d c.store := by
  obtain ⟨hcell, lines, hcode, hthere⟩ := hgrown.appends (k := e.linkage)
  obtain ⟨-, rest, hcode', hon⟩ := hgrows.appends (k := e.linkage)
  have hcode : d.code = lines := hcode
  have hcell : d.pointerCell = cell := hcell
  rw [hcell] at hon
  -- The assertion at the end of the draft implies what the draft knows.
  obtain ⟨I, hfirst, hknown, hmarks⟩ := hthere.marks_append hon
  rw [← hcode, ← hcode'] at hmarks
  have hstart : Upholds cell d'.code I c₀ := by
    refine ⟨Or.inr ?_, fun p hp => ?_, houtside⟩
    · rw [hline, hfirst]
      exact truth_nothing
    · rw [hcaptures] at hp
      cases hp
  have htrue : Truth e.linkage cell d.known c.store := by
    refine hknown _ ?_
    rw [← hcode, ← hend]
    exact (hstart.run hmarks hclear hrun).here.resolve_left fun ⟨name, hname⟩ => hlabel name hname
  refine ⟨htrue, Truth.spared ?_⟩
  rw [hcell]
  exact htrue

/-! #### A load through a pointer -/

/-- A byte is read through a pointer and kept. -/
def fetching : Draft := (Draft.create 0x90 3).loadA (.indirect (⟨0⟩, ⟨1⟩) 5)

/-- It goes on with a store. -/
def fetched : Draft := fetching.op .sta (.virtual ⟨2⟩)

/-- Nothing is called. -/
def quiet : Environment where
  linkage := ⟨fun _ => 0, 0xA000⟩
  watched _ := false
  answer _ := ⟨0, 0, 0, 0, fun _ => none, 0, none⟩

def fetchingStart : Config where
  line := 0
  store := ⟨Machine.create 0xA000 0x2000 0xD500, fun v => if v = ⟨0⟩ then 0x34 else 0x12, fun _ => 0⟩

theorem fetching_runs : ∃ c, run quiet fetched.code ∅ 6 fetchingStart = some c ∧
    c.line = fetching.code.length := by
  have hstraight : ∀ line ∈ fetching.code, IsStraight line := by
    have hcode : fetching.code = [.op .lda (.virtual ⟨0⟩), .op .sta (.zeroPage 0x90),
      .op .lda (.virtual ⟨1⟩), .op .sta (.zeroPage 0x91), .op .ldy (.byte 5),
      .op .lda (.indirectY 0x90)] := by decide
    rw [hcode]
    simp only [List.forall_mem_cons, List.not_mem_nil, false_imp_iff, implies_true, and_true]
    refine ⟨?_, ?_, ?_, ?_, ?_, ?_⟩ <;> exact ⟨_, _, rfl, rfl, rfl⟩
  obtain ⟨trace, hrun⟩ := run_straight quiet ∅ fetching.code [] [.op .sta (.virtual ⟨2⟩)] fetchingStart
    hstraight rfl
  exact ⟨_, hrun, by simp⟩

theorem fetching_spared : ∃ c, run quiet fetched.code ∅ 6 fetchingStart = some c ∧
    Truth quiet.linkage 0x90 fetching.known c.store ∧ Spared quiet.linkage fetching c.store := by
  obtain ⟨c, hrun, hend⟩ := fetching_runs
  refine ⟨c, hrun, knowledge_true (.loadA (.start _) _) (.op (.start _) _ _) rfl rfl
    ⟨by decide, by decide⟩ (fun _ _ _ _ => clearAt_of_near ?_) hrun hend fun name => ?_⟩
  · decide
  · rw [hend]
    exact fun h => by cases h

end Codegen6502.Proofs.Selecting.Knowing
