import Codegen6502.Selection.Draft
import Codegen6502.Proofs.Processor.Straight

/-!
# What drafts know is true

A draft leaves out loads of what it knows to be loaded.  `Knows` says that its knowledge is true of
a store; every line that is pushed keeps it true (`knows_lda`, `knows_ldy`, `knows_sta`,
`knows_arithmetic`).

`Emits k fresh d d' pre post` is what a step of a draft does: it appends straight lines, takes at
most `fresh` new registers, and from a store of which the knowledge holds and `pre`, the lines lead
to one of which the new knowledge holds and `post`.  `emits_loadA` and `emits_storeA` give it for
the two halves of a move of one byte.
-/

namespace Codegen6502.Proofs.Selecting.Tracking

open Processor.Memory Processor.LineRun Processor.Straight

variable {k : Linkage} {cell : UInt8} {known : Knowledge} {s t u : Store}

/-! ### Stores that look the same -/

/-- The two addresses of the scratch pointer. -/
def IsScratch (cell : UInt8) (a : UInt16) : Prop :=
  a = cell.toUInt16 ∨ a = (cell + 1).toUInt16

instance (cell : UInt8) (a : UInt16) : Decidable (IsScratch cell a) := by
  unfold IsScratch; infer_instance

theorem scratch_ne (cell : UInt8) : cell.toUInt16 ≠ (cell + 1).toUInt16 := by
  intro h
  have h2 := congrArg UInt16.toUInt8 h
  simp only [UInt8.toUInt8_toUInt16] at h2
  have h3 := congrArg UInt8.toNat h2
  simp only [UInt8.toNat_add] at h3
  have := cell.toNat_lt
  have h1 : (1 : UInt8).toNat = 1 := rfl
  omega

/-- The spots that moves must account for: all but the scratch pointer and the virtual registers
from `n` on. -/
def Visible (cell : UInt8) (n : ℕ) : Spot → Prop
  | .cell v => v.index.toNat < n
  | .memory a => ¬IsScratch cell a
  | _ => True

/-- Two stores agree on everything visible. -/
structure Same (cell : UInt8) (n : ℕ) (s t : Store) : Prop where
  get : ∀ spot, Visible cell n spot → get t spot = get s spot
  plain : ∀ a, Plain t.machine.bus a ↔ Plain s.machine.bus a

namespace Same

variable {n : ℕ}

theorem refl (s : Store) : Same cell n s s := ⟨fun _ _ => rfl, fun _ => Iff.rfl⟩

theorem trans (h : Same cell n s t) (h' : Same cell n t u) : Same cell n s u :=
  ⟨fun spot hv => (h'.get spot hv).trans (h.get spot hv), fun a => (h'.plain a).trans (h.plain a)⟩

theorem mono {less : ℕ} (h : Same cell n s t) (hle : less ≤ n) : Same cell less s t := by
  refine ⟨fun spot hv => h.get spot ?_, h.plain⟩
  cases spot with
  | cell v => exact lt_of_lt_of_le hv hle
  | _ => exact hv

theorem keeps (h : Same cell n s t) (spot : Spot) : Keeps t spot ↔ Keeps s spot := by
  cases spot with
  | memory a => exact h.plain a
  | _ => rfl

theorem put (h : Same cell n s t) {spot : Spot} (hk : Keeps s spot) (byte : UInt8) :
    Same cell n (put s spot byte) (put t spot byte) := by
  refine ⟨fun other hv => ?_, fun a => ?_⟩
  · rw [get_put ((h.keeps spot).mpr hk), get_put hk, h.get other hv]
  · rw [plain_put, plain_put, h.plain]

/-- Registers are not looked at. -/
theorem setRegs (s : Store) (r : Registers) : Same cell n s (s.setRegs r) := by
  refine ⟨fun spot _ => ?_, fun _ => Iff.rfl⟩
  cases spot <;> rfl

/-- A write to what is not visible is not seen. -/
theorem put_hidden {spot : Spot} (hk : Keeps s spot) (hv : ¬Visible cell n spot) (byte : UInt8) :
    Same cell n s (Processor.Straight.put s spot byte) := by
  refine ⟨fun other ho => ?_, plain_put spot byte⟩
  rw [get_put hk, if_neg]
  rintro rfl
  exact hv ho

/-- Writing what is there already changes nothing. -/
theorem put_get {spot : Spot} (hk : Keeps s spot) :
    Same cell n (Processor.Straight.put s spot (Processor.Straight.get s spot)) s := by
  refine ⟨fun other _ => ?_, fun a => (plain_put spot _ a).symm⟩
  rw [get_put hk]
  split
  · rename_i heq
    rw [heq]
  · rfl

end Same

/-! ### Knowledge -/

/-- The knowledge is true of the store. -/
structure Knows (k : Linkage) (cell : UInt8) (known : Knowledge) (s : Store) : Prop where
  a : ∀ operand ∈ known.a, Knowledge.isTracked operand = true ∧ value k s operand = s.regs.a
  pointer : ∀ lo hi, known.pointer = some (lo, hi) →
    s.machine.bus.read cell.toUInt16 = s.cells lo ∧
      s.machine.bus.read (cell + 1).toUInt16 = s.cells hi
  y : ∀ byte, known.y = some byte → s.regs.y = byte

theorem knows_nothing : Knows k cell {} s where
  a _ h := (List.not_mem_nil h).elim
  pointer _ _ h := by cases h
  y _ h := by cases h

theorem tracked_cases {operand : Operand} (h : Knowledge.isTracked operand = true) :
    (∃ v, operand = .virtual v) ∨ ∃ byte, operand = .byte byte := by
  cases operand with
  | virtual v => exact Or.inl ⟨v, rfl⟩
  | immediate i =>
    cases i with
    | byte b => exact Or.inr ⟨b, rfl⟩
    | symbol name addend half => cases h
  | _ => cases h

@[simp] theorem setNZ_a (r : Registers) (byte : UInt8) : (r.setNZ byte).a = r.a := rfl
@[simp] theorem setNZ_y (r : Registers) (byte : UInt8) : (r.setNZ byte).y = r.y := rfl
@[simp] theorem loadA_a (r : Registers) (byte : UInt8) : (r.loadA byte).a = byte := rfl
@[simp] theorem loadA_y (r : Registers) (byte : UInt8) : (r.loadA byte).y = r.y := rfl
@[simp] theorem loadY_a (r : Registers) (byte : UInt8) : (r.loadY byte).a = r.a := rfl
@[simp] theorem loadY_y (r : Registers) (byte : UInt8) : (r.loadY byte).y = byte := rfl

/-- The value of a constant or a virtual register is the same whatever the registers hold. -/
theorem value_setRegs {operand : Operand} (h : Knowledge.isTracked operand = true)
    (r : Registers) : value k (s.setRegs r) operand = value k s operand := by
  obtain ⟨v, rfl⟩ | ⟨byte, rfl⟩ := tracked_cases h <;> rfl

theorem knows_lda (h : Knows k cell known s) (operand : Operand) :
    Knows k cell (known.after cell (.op .lda operand)) (s.exec k .lda operand) := by
  rw [exec_lda]
  have hafter : known.after cell (.op .lda operand) = known.afterRegisters .lda operand := by
    simp [Knowledge.after, Opcode.writesMemory, Opcode.isReadModifyWrite]
  rw [hafter]
  unfold Knowledge.afterRegisters
  by_cases htracked : Knowledge.isTracked operand = true
  · simp only [htracked, ↓reduceIte]
    refine ⟨fun o ho => ?_, h.pointer, h.y⟩
    obtain rfl : o = operand := by simpa using ho
    exact ⟨htracked, value_setRegs htracked _⟩
  · simp only [htracked]
    exact ⟨fun o ho => (List.not_mem_nil ho).elim, h.pointer, h.y⟩

theorem exec_ldy (byte : UInt8) :
    s.exec k .ldy (.byte byte) = s.setRegs (s.regs.loadY byte) := rfl

theorem knows_ldy (h : Knows k cell known s) (byte : UInt8) :
    Knows k cell (known.after cell (.op .ldy (.byte byte))) (s.exec k .ldy (.byte byte)) := by
  rw [exec_ldy]
  refine ⟨fun o ho => ?_, h.pointer, fun b hb => ?_⟩
  · obtain ⟨htracked, hvalue⟩ := h.a o ho
    exact ⟨htracked, (value_setRegs htracked _).trans hvalue⟩
  · have : byte = b := Option.some.inj hb
    exact this

/-- An instruction that computes in A forgets what A holds and keeps the rest. -/
theorem knows_arithmetic (h : Knows k cell known s) {op : Opcode} {operand : Operand}
    (hop : (op = .adc ∨ op = .eor) ∧ (∃ byte, operand = .byte byte) ∨
      op = .asl ∧ operand = .accumulator) :
    Knows k cell (known.after cell (.op op operand)) (s.exec k op operand) := by
  obtain ⟨rfl | rfl, byte, rfl⟩ | ⟨rfl, rfl⟩ := hop <;>
    exact ⟨fun o ho => (List.not_mem_nil ho).elim, h.pointer, h.y⟩

/-! ### Stores to operands -/

/-- Where an operand of a move lives. -/
def operandSpot (k : Linkage) : Operand → Spot
  | .immediate (.byte byte) => .constant byte
  | .virtual v => .cell v
  | .frame offset => .frame offset
  | .zeroPage z => .memory z.toUInt16
  | .absolute a => .memory (k.address a)
  | _ => .constant 0

/-- The operands of moves. -/
def IsSimple : Operand → Prop
  | .immediate (.byte _) | .virtual _ | .frame _ | .zeroPage _ | .absolute _ => True
  | _ => False

theorem value_eq {operand : Operand} (h : IsSimple operand) :
    value k s operand = get s (operandSpot k operand) := by
  cases operand with
  | immediate i =>
    cases i with
    | byte b => rfl
    | symbol name addend half => exact h.elim
  | virtual v => rfl
  | frame o => rfl
  | zeroPage z => rfl
  | absolute a => rfl
  | _ => exact h.elim

theorem exec_sta {operand : Operand} (h : IsSimple operand) :
    s.exec k .sta operand = put s (operandSpot k operand) s.regs.a := by
  cases operand with
  | immediate i =>
    cases i with
    | byte b => rfl
    | symbol name addend half => exact h.elim
  | virtual v => simp only [Store.exec, cellOp_sta]; rfl
  | frame o => simp only [Store.exec, cellOp_sta]; rfl
  | zeroPage z => rfl
  | absolute a => rfl
  | _ => exact h.elim

/-- The operands of moves that can be written. -/
theorem writable_cases {operand : Operand} (h : IsSimple operand) (hm : operand.isMemory = true) :
    (∃ v, operand = .virtual v) ∨ (∃ offset, operand = .frame offset) ∨
      (∃ z, operand = .zeroPage z) ∨ ∃ a, operand = .absolute a := by
  cases operand with
  | virtual v => exact Or.inl ⟨v, rfl⟩
  | frame o => exact Or.inr (Or.inl ⟨o, rfl⟩)
  | zeroPage z => exact Or.inr (Or.inr (Or.inl ⟨z, rfl⟩))
  | absolute a => exact Or.inr (Or.inr (Or.inr ⟨a, rfl⟩))
  | immediate i => cases hm
  | _ => exact h.elim

/-- The value of a tracked operand after a write elsewhere. -/
theorem value_put {operand : Operand} (h : Knowledge.isTracked operand = true) {spot : Spot}
    (hne : spot ≠ operandSpot k operand) (byte : UInt8) :
    value k (put s spot byte) operand = value k s operand := by
  obtain ⟨v, rfl⟩ | ⟨b, rfl⟩ := tracked_cases h
  · cases spot with
    | cell w =>
      have hwv : v ≠ w := fun hvw => hne (by rw [hvw]; rfl)
      exact Function.update_of_ne hwv _ _
    | _ => rfl
  · cases spot <;> rfl

/-- What is still known after a byte has been written.  A write to the scratch pointer that does not
name its cell would go unnoticed. -/
theorem knows_put (h : Knows k cell known s) (hscratch : Plain s.machine.bus cell.toUInt16 ∧
      Plain s.machine.bus (cell + 1).toUInt16) {operand : Operand} (hsimple : IsSimple operand)
    (hmemory : operand.isMemory = true)
    (hclear : ∀ a, operandSpot k operand = .memory a → IsScratch cell a →
      operand = .zeroPage cell ∨ operand = .zeroPage (cell + 1)) (byte : UInt8) :
    Knows k cell (known.afterWrite cell operand) (put s (operandSpot k operand) byte) := by
  refine ⟨fun o ho => ?_, fun lo hi hsome => ?_, fun y hy => ?_⟩
  · -- What was held by A before and is not the operand is still held.
    obtain ⟨hmem, hne⟩ := List.mem_filter.mp ho
    obtain ⟨htracked, hvalue⟩ := h.a o hmem
    rw [regs_put]
    refine ⟨htracked, (value_put htracked ?_ _).trans hvalue⟩
    intro heq
    refine of_decide_eq_true hne ?_
    obtain ⟨w, rfl⟩ | ⟨b, rfl⟩ := tracked_cases htracked <;>
      obtain ⟨v, rfl⟩ | ⟨z, rfl⟩ | ⟨z, rfl⟩ | ⟨a, rfl⟩ := writable_cases hsimple hmemory <;>
      cases heq
    rfl
  · simp only [Knowledge.afterWrite] at hsome
    split at hsome
    · cases hsome
    rename_i htouch
    obtain ⟨hlo, hhi⟩ := h.pointer lo hi hsome
    rw [hsome] at htouch
    have hkept : ∀ a, operandSpot k operand = .memory a → ¬IsScratch cell a := by
      intro a ha hbad
      rcases hclear a ha hbad with rfl | rfl <;> simp [Knowledge.touchesPointer] at htouch
    obtain ⟨v, rfl⟩ | ⟨o, rfl⟩ | ⟨z, rfl⟩ | ⟨a, rfl⟩ := writable_cases hsimple hmemory
    · simp only [Knowledge.touchesPointer, Bool.or_eq_true, decide_eq_true_eq, not_or] at htouch
      exact ⟨hlo.trans (Function.update_of_ne (Ne.symm htouch.1) _ _).symm,
        hhi.trans (Function.update_of_ne (Ne.symm htouch.2) _ _).symm⟩
    · exact ⟨hlo, hhi⟩
    · have hz := not_or.mp (hkept _ rfl)
      exact ⟨(read_write_of_ne hscratch.1 hz.1 _).trans hlo,
        (read_write_of_ne hscratch.2 hz.2 _).trans hhi⟩
    · have ha := not_or.mp (hkept _ rfl)
      exact ⟨(read_write_of_ne hscratch.1 ha.1 _).trans hlo,
        (read_write_of_ne hscratch.2 ha.2 _).trans hhi⟩
  · rw [regs_put]
    exact h.y y hy

/-- The knowledge after a store. -/
theorem knows_sta (h : Knows k cell known s) (hscratch : Plain s.machine.bus cell.toUInt16 ∧
      Plain s.machine.bus (cell + 1).toUInt16) {operand : Operand} (hsimple : IsSimple operand)
    (hmemory : operand.isMemory = true)
    (hclear : ∀ a, operandSpot k operand = .memory a → IsScratch cell a →
      operand = .zeroPage cell ∨ operand = .zeroPage (cell + 1)) :
    Knows k cell (known.after cell (.op .sta operand)) (s.exec k .sta operand) := by
  rw [exec_sta hsimple]
  have hafter : known.after cell (.op .sta operand) =
      (known.afterWrite cell operand).afterRegisters .sta operand := by
    simp [Knowledge.after, Opcode.writesMemory, hmemory]
  have hput := knows_put h hscratch hsimple hmemory hclear s.regs.a
  rw [hafter]
  refine ⟨fun o ho => ?_, fun lo hi hsome => ?_, fun byte hbyte => ?_⟩
  · cases operand with
    | virtual v =>
      rcases List.mem_append.mp ho with hmem | hmem
      · exact hput.a o hmem
      · obtain rfl : o = .virtual v := by simpa using hmem
        exact ⟨rfl, (Function.update_self ..).trans (congrArg _ (regs_put _ _)).symm⟩
    | _ => exact hput.a o ho
  · refine hput.pointer lo hi ?_
    cases operand <;> exact hsome
  · refine hput.y byte ?_
    cases operand <;> exact hbyte

/-! ### Steps of a draft -/

/-- The scratch pointer is in plain memory. -/
def PlainScratch (cell : UInt8) (s : Store) : Prop :=
  Plain s.machine.bus cell.toUInt16 ∧ Plain s.machine.bus (cell + 1).toUInt16

theorem Same.plainScratch {n : ℕ} (h : Same cell n s t) (hs : PlainScratch cell s) :
    PlainScratch cell t := ⟨(h.plain _).mpr hs.1, (h.plain _).mpr hs.2⟩

/-- The draft goes on from the store. -/
def Ready (k : Linkage) (d : Draft) (s : Store) : Prop :=
  Knows k d.pointerCell d.known s ∧ PlainScratch d.pointerCell s

structure Emits (k : Linkage) (fresh : ℕ) (d d' : Draft) (pre : Store → Prop)
    (post : Store → Store → Prop) : Prop where
  cell : d'.pointerCell = d.pointerCell
  grows : d.nextVReg.toNat ≤ d'.nextVReg.toNat
  bounded : d'.nextVReg.toNat ≤ d.nextVReg.toNat + fresh
  lines : ∃ lines, d'.code = d.code ++ lines ∧ (∀ line ∈ lines, IsStraight line) ∧
    ∀ s, Ready k d s → pre s →
      Ready k d' (execAll k lines s) ∧ post s (execAll k lines s)

namespace Emits

variable {d d' d'' : Draft} {m n : ℕ} {pre pre' : Store → Prop} {post post' : Store → Store → Prop}

theorem refl (h : ∀ s, Ready k d s → pre s → post s s) : Emits k 0 d d pre post where
  cell := rfl
  grows := le_rfl
  bounded := le_rfl
  lines := ⟨[], by simp, by simp, fun s hr hp => ⟨hr, h s hr hp⟩⟩

/-- One step after the other. -/
theorem trans (h : Emits k m d d' pre post) (h' : Emits k n d' d'' pre' post')
    (link : ∀ s t, pre s → post s t → pre' t) :
    Emits k (m + n) d d'' pre fun s u => ∃ t, post s t ∧ post' t u where
  cell := h'.cell.trans h.cell
  grows := h.grows.trans h'.grows
  bounded := by have := h.bounded; have := h'.bounded; omega
  lines := by
    obtain ⟨front, hfront, hstraight, hrun⟩ := h.lines
    obtain ⟨back, hback, hstraight', hrun'⟩ := h'.lines
    refine ⟨front ++ back, by rw [hback, hfront, List.append_assoc], fun line hl => ?_,
      fun s hr hp => ?_⟩
    · exact (List.mem_append.mp hl).elim (hstraight line) (hstraight' line)
    · obtain ⟨hr', hpost⟩ := hrun s hr hp
      obtain ⟨hr'', hpost'⟩ := hrun' _ hr' (link s _ hp hpost)
      rw [execAll_append]
      exact ⟨hr'', _, hpost, hpost'⟩

theorem imp (h : Emits k m d d' pre post) (hmn : m ≤ n) (hpre : ∀ s, pre' s → pre s)
    (hpost : ∀ s t, Ready k d s → pre' s → post s t → post' s t) : Emits k n d d' pre' post' where
  cell := h.cell
  grows := h.grows
  bounded := h.bounded.trans (by omega)
  lines := by
    obtain ⟨lines, hcode, hstraight, hrun⟩ := h.lines
    refine ⟨lines, hcode, hstraight, fun s hr hp => ?_⟩
    obtain ⟨hr', hq⟩ := hrun s hr (hpre s hp)
    exact ⟨hr', hpost s _ hr hp hq⟩

/-- A line by itself. -/
theorem op (d : Draft) {opcode : Opcode} {operand : Operand} (hdata : isData opcode = true)
    (hencode : (opcode.encode operand.mode).isSome)
    (h : ∀ s, Ready k d s → pre s →
      Knows k d.pointerCell (d.known.after d.pointerCell (.op opcode operand))
        (s.exec k opcode operand) ∧
      PlainScratch d.pointerCell (s.exec k opcode operand) ∧ post s (s.exec k opcode operand)) :
    Emits k 0 d (d.op opcode operand) pre post where
  cell := rfl
  grows := le_rfl
  bounded := le_rfl
  lines := by
    refine ⟨[.op opcode operand], rfl, fun line hl => ?_, fun s hr hp => ?_⟩
    · obtain rfl := List.mem_singleton.mp hl
      exact ⟨opcode, operand, rfl, hdata, hencode⟩
    · obtain ⟨hknows, hplain, hpost⟩ := h s hr hp
      exact ⟨⟨hknows, hplain⟩, hpost⟩

/-- **A run through code that has been built on a fork** does what it has been built for. -/
theorem run {base : Draft} {e : Environment} {front back : List Line} {x : Config}
    (h : Emits e.linkage m base.fork d pre post) (calls : Std.TreeMap ℕ CallTarget)
    (hx : x.line = front.length) (hs : Ready e.linkage base x.store) (hp : pre x.store) :
    ∃ y, Processor.LineRun.run e (front ++ d.code ++ back) calls d.code.length x = some y ∧
      y.line = front.length + d.code.length ∧ post x.store y.store := by
  obtain ⟨lines, hlines, hstraight, hrun⟩ := h.lines
  obtain rfl : d.code = lines := hlines
  obtain ⟨trace, hlast⟩ := run_straight e calls d.code front back x hstraight hx
  exact ⟨_, hlast, rfl, (hrun x.store hs hp).2⟩

end Emits

variable {d : Draft}

/-- All virtual registers are looked at. -/
abbrev everything : ℕ := 2 ^ 32

theorem isSome_encode_lda {operand : Operand} (h : IsSimple operand) :
    (Opcode.encode .lda operand.mode).isSome := by
  cases operand with
  | immediate i => rfl
  | virtual v => rfl
  | frame o => rfl
  | zeroPage z => rfl
  | absolute a => rfl
  | _ => exact h.elim

theorem emits_lda (d : Draft) (operand : Operand)
    (hencode : (Opcode.encode .lda operand.mode).isSome) :
    Emits k 0 d (d.op .lda operand) (fun _ => True) fun s t =>
      t = s.setRegs (s.regs.loadA (value k s operand)) := by
  refine Emits.op d rfl hencode fun s hr _ => ⟨knows_lda hr.1 operand, ?_⟩
  rw [exec_lda]
  exact ⟨(Same.setRegs (n := 0) s _).plainScratch hr.2, rfl⟩

/-- A load that is left out leaves the value in A all the same. -/
theorem emits_loadOperand (d : Draft) (operand : Operand)
    (hencode : (Opcode.encode .lda operand.mode).isSome) :
    Emits k 0 d (d.loadOperand operand) (fun _ => True) fun s t =>
      t = s.setRegs t.regs ∧ t.regs.a = value k s operand := by
  unfold Draft.loadOperand
  split
  · rename_i hholds
    refine Emits.refl fun s hr _ => ⟨rfl, ?_⟩
    exact ((hr.1.a operand (by simpa [Knowledge.aHolds] using hholds)).2).symm
  · refine (emits_lda d operand hencode).imp le_rfl (fun _ h => h) ?_
    rintro s t - - rfl
    exact ⟨rfl, rfl⟩

theorem isSome_encode_sta {operand : Operand} (h : IsSimple operand)
    (hm : operand.isMemory = true) : (Opcode.encode .sta operand.mode).isSome := by
  obtain ⟨v, rfl⟩ | ⟨o, rfl⟩ | ⟨z, rfl⟩ | ⟨a, rfl⟩ := writable_cases h hm <;> rfl

theorem emits_sta (d : Draft) (operand : Operand) (hsimple : IsSimple operand)
    (hmemory : operand.isMemory = true) :
    Emits k 0 d (d.op .sta operand)
      (fun _ => ∀ a, operandSpot k operand = .memory a → IsScratch d.pointerCell a →
        operand = .zeroPage d.pointerCell ∨ operand = .zeroPage (d.pointerCell + 1))
      fun s t => t = put s (operandSpot k operand) s.regs.a := by
  refine Emits.op d rfl (isSome_encode_sta hsimple hmemory) fun s hr hclear =>
    ⟨knows_sta hr.1 hr.2 hsimple hmemory hclear, ?_⟩
  rw [exec_sta hsimple]
  exact ⟨⟨(plain_put _ _ _).mpr hr.2.1, (plain_put _ _ _).mpr hr.2.2⟩, rfl⟩

theorem emits_setY (d : Draft) (byte : UInt8) :
    Emits k 0 d (d.setY byte) (fun _ => True) fun s t =>
      t = s.setRegs t.regs ∧ t.regs.a = s.regs.a ∧ t.regs.y = byte := by
  unfold Draft.setY
  split
  · rename_i hknown
    exact Emits.refl fun s hr _ => ⟨rfl, rfl, hr.1.y byte hknown⟩
  · refine Emits.op d rfl rfl fun s hr _ => ⟨knows_ldy hr.1 byte, ?_⟩
    rw [exec_ldy]
    exact ⟨(Same.setRegs (n := 0) s _).plainScratch hr.2, rfl, rfl, rfl⟩

/-! ### The scratch pointer -/

/-- A draft may take down what has become true. -/
theorem Emits.learn {d d' : Draft} {m : ℕ} {pre : Store → Prop} {post : Store → Store → Prop}
    (h : Emits k m d d' pre post) {pointer : PointerPair}
    (hknows : ∀ s t, Ready k d s → pre s → post s t →
      t.machine.bus.read d.pointerCell.toUInt16 = t.cells pointer.1 ∧
        t.machine.bus.read (d.pointerCell + 1).toUInt16 = t.cells pointer.2) :
    Emits k m d { d' with known := { d'.known with pointer := some pointer } } pre post where
  cell := h.cell
  grows := h.grows
  bounded := h.bounded
  lines := by
    obtain ⟨lines, hcode, hstraight, hrun⟩ := h.lines
    refine ⟨lines, hcode, hstraight, fun s hr hp => ?_⟩
    obtain ⟨⟨hknown, hplain⟩, hq⟩ := hrun s hr hp
    refine ⟨⟨⟨hknown.a, fun lo hi hsome => ?_, hknown.y⟩, hplain⟩, hq⟩
    obtain rfl : pointer = (lo, hi) := Option.some.inj hsome
    have hcell : d'.pointerCell = d.pointerCell := h.cell
    rw [hcell]
    exact hknows s _ hr hp hq

theorem pointer_setPointer (d : Draft) (pointer : PointerPair) :
    (d.setPointer pointer).known.pointer = some pointer := by
  unfold Draft.setPointer
  split
  · assumption
  · rfl

/-- Copying one byte of a pointer. -/
theorem emits_copyHalf (d : Draft) (v : VReg) {z : UInt8}
    (hz : z = d.pointerCell ∨ z = d.pointerCell + 1) :
    Emits k 0 d ((d.loadOperand (.virtual v)).op .sta (.zeroPage z)) (fun _ => True) fun s t =>
      ∃ r, t = put (s.setRegs r) (.memory z.toUInt16) (s.cells v) := by
  have hload := emits_loadOperand (k := k) d (.virtual v) rfl
  have hstore := emits_sta (k := k) (d.loadOperand (.virtual v)) (.zeroPage z) trivial rfl
  refine (hload.trans hstore fun _ _ _ _ _ _ _ => ?_).imp le_rfl (fun _ h => h) ?_
  · rw [hload.cell]
    exact hz.imp (congrArg _) (congrArg _)
  rintro s u - - ⟨t, ⟨ht, ha⟩, rfl⟩
  exact ⟨t.regs, by rw [ha]; nth_rewrite 1 [ht]; rfl⟩

/-- The store after both halves have been copied. -/
theorem aimed (hs : PlainScratch cell s) (r r' : Registers) (lo hi : UInt8)
    (hu : u = put ((put (s.setRegs r) (.memory cell.toUInt16) lo).setRegs r')
      (.memory (cell + 1).toUInt16) hi) :
    Same cell everything s u ∧ u.machine.bus.read cell.toUInt16 = lo ∧
      u.machine.bus.read (cell + 1).toUInt16 = hi := by
  have hk : Keeps (s.setRegs r) (.memory cell.toUInt16) := hs.1
  have hk' : Keeps ((put (s.setRegs r) (.memory cell.toUInt16) lo).setRegs r')
      (.memory (cell + 1).toUInt16) := (keeps_put _ (.memory _) _).mpr hs.2
  have hne : Spot.memory (cell + 1).toUInt16 ≠ .memory cell.toUInt16 :=
    fun h => scratch_ne cell (by injection h with h; exact h.symm)
  have hlo := get_put hk (.memory cell.toUInt16) lo
  have hlo' := get_put hk' (.memory cell.toUInt16) hi
  have hhi := get_put hk' (.memory (cell + 1).toUInt16) hi
  rw [if_pos rfl] at hlo hhi
  rw [if_neg hne] at hlo'
  subst hu
  refine ⟨?_, hlo'.trans hlo, hhi⟩
  exact (((Same.setRegs s r).trans (Same.put_hidden hk (fun h => h (Or.inl rfl)) _)).trans
    (Same.setRegs _ r')).trans (Same.put_hidden hk' (fun h => h (Or.inr rfl)) _)

/-- Setting up the scratch pointer changes nothing visible. -/
theorem emits_setPointer (d : Draft) (pointer : PointerPair) :
    Emits k 0 d (d.setPointer pointer) (fun _ => True) fun s t =>
      Same d.pointerCell everything s t := by
  unfold Draft.setPointer
  split
  · exact Emits.refl fun s _ _ => Same.refl s
  have hlo := emits_copyHalf (k := k) d pointer.1 (Or.inl rfl)
  have hhi := emits_copyHalf (k := k) ((d.loadOperand (.virtual pointer.1)).op .sta
    (.zeroPage d.pointerCell)) pointer.2 (Or.inr rfl)
  have hcell : ((d.loadOperand (.virtual pointer.1)).op .sta
    (.zeroPage d.pointerCell)).pointerCell = d.pointerCell := hlo.cell
  dsimp only
  rw [hcell] at hhi ⊢
  refine ((hlo.trans hhi fun _ _ _ _ => trivial).learn ?_).imp le_rfl (fun _ h => h) ?_
  · rintro s u hr - ⟨t, ⟨r, rfl⟩, r', hu⟩
    obtain ⟨-, hread, hread'⟩ := aimed hr.2 r r' _ _ hu
    rw [hread, hread', hu]
    exact ⟨rfl, rfl⟩
  · rintro s u hr - ⟨t, ⟨r, rfl⟩, r', hu⟩
    exact (aimed hr.2 r r' _ _ hu).1

/-! ### Bytes -/

/-- Where a byte lives. -/
def spotOf (k : Linkage) (s : Store) : ByteLoc → Spot
  | .direct operand => operandSpot k operand
  | .indirect (lo, hi) offset => .memory (word (s.cells lo) (s.cells hi) + offset.toUInt16)

/-- The bytes of moves: those behind a pointer, and those that a simple operand names. -/
def IsByte : ByteLoc → Prop
  | .direct operand => IsSimple operand
  | .indirect .. => True

/-- The virtual registers that a byte is in or is reached through are below a bound. -/
def Below (n : ℕ) : ByteLoc → Prop
  | .direct (.virtual v) => v.index.toNat < n
  | .direct _ => True
  | .indirect (lo, hi) _ => lo.index.toNat < n ∧ hi.index.toNat < n

theorem Same.spotOf {n : ℕ} (h : Same cell n s t) {loc : ByteLoc} (hb : Below n loc) :
    spotOf k t loc = spotOf k s loc := by
  cases loc with
  | direct operand => rfl
  | indirect pointer offset =>
    have hlo : t.cells pointer.1 = s.cells pointer.1 := h.get (.cell pointer.1) hb.1
    have hhi : t.cells pointer.2 = s.cells pointer.2 := h.get (.cell pointer.2) hb.2
    simp only [Tracking.spotOf, hlo, hhi]

/-- The address that the scratch pointer and Y give. -/
theorem effective_indirectY {pointer : PointerPair} {offset : UInt8} (hr : Ready k d s)
    (hp : d.known.pointer = some pointer) (hy : s.regs.y = offset) :
    k.effective s.machine (.indirectY d.pointerCell) =
      .address (word (s.cells pointer.1) (s.cells pointer.2) + offset.toUInt16) := by
  obtain ⟨hlo, hhi⟩ := hr.1.pointer pointer.1 pointer.2 hp
  simp only [Linkage.effective, hlo, hhi, ← hy]
  rfl

theorem emits_ldaThrough (d : Draft) {pointer : PointerPair}
    (hp : d.known.pointer = some pointer) (offset : UInt8) :
    Emits k 0 d (d.op .lda (.indirectY d.pointerCell)) (fun s => s.regs.y = offset) fun s t =>
      t = s.setRegs t.regs ∧ t.regs.a = get s (spotOf k s (.indirect pointer offset)) := by
  refine (emits_lda d _ rfl).imp le_rfl (fun _ _ => trivial) ?_
  rintro s t hr hy rfl
  refine ⟨rfl, ?_⟩
  change value k s (.indirectY d.pointerCell) = _
  simp only [value, effective_indirectY hr hp hy]
  rfl

theorem exec_staThrough {a : UInt16} (ha : k.effective s.machine (.indirectY cell) = .address a) :
    s.exec k .sta (.indirectY cell) = put s (.memory a) s.regs.a := by
  simp only [Store.exec, Machine.execute, ha]
  rfl

/-- The knowledge after a store through the scratch pointer. -/
theorem knows_staThrough (h : Knows k cell known s) (hs : PlainScratch cell s) {a : UInt16}
    (ha : k.effective s.machine (.indirectY cell) = .address a) (hclear : ¬IsScratch cell a) :
    Knows k cell (known.after cell (.op .sta (.indirectY cell)))
      (s.exec k .sta (.indirectY cell)) := by
  rw [exec_staThrough ha]
  obtain ⟨hlo, hhi⟩ := not_or.mp hclear
  refine ⟨fun o ho => ?_, fun lo hi hsome => ?_, h.y⟩
  · obtain ⟨htracked, hvalue⟩ := h.a o (List.mem_filter.mp ho).1
    refine ⟨htracked, (value_put htracked ?_ _).trans hvalue⟩
    obtain ⟨v, rfl⟩ | ⟨b, rfl⟩ := tracked_cases htracked <;> exact Spot.noConfusion
  · obtain ⟨hread, hread'⟩ := h.pointer lo hi hsome
    exact ⟨(read_write_of_ne hs.1 hlo _).trans hread, (read_write_of_ne hs.2 hhi _).trans hread'⟩

theorem emits_staThrough (d : Draft) {pointer : PointerPair}
    (hp : d.known.pointer = some pointer) (offset : UInt8) :
    Emits k 0 d (d.op .sta (.indirectY d.pointerCell))
      (fun s => s.regs.y = offset ∧
        ∀ a, spotOf k s (.indirect pointer offset) = .memory a → ¬IsScratch d.pointerCell a)
      fun s t => t = put s (spotOf k s (.indirect pointer offset)) s.regs.a := by
  refine Emits.op d rfl rfl fun s hr hpre => ?_
  have ha := effective_indirectY hr hp hpre.1
  refine ⟨knows_staThrough hr.1 hr.2 ha (hpre.2 _ rfl), ?_⟩
  rw [exec_staThrough ha]
  exact ⟨⟨(plain_put _ _ _).mpr hr.2.1, (plain_put _ _ _).mpr hr.2.2⟩, rfl⟩

theorem pointer_setY (d : Draft) (byte : UInt8) :
    (d.setY byte).known.pointer = d.known.pointer := by
  unfold Draft.setY
  split <;> rfl

/-- **Loading a byte into A.** -/
theorem emits_loadA (d : Draft) {loc : ByteLoc} (hloc : IsByte loc) :
    Emits k 0 d (d.loadA loc)
      (fun s => ∀ a, spotOf k s loc = .memory a → ¬IsScratch d.pointerCell a) fun s t =>
      Same d.pointerCell everything s t ∧ t.regs.a = get s (spotOf k s loc) := by
  cases loc with
  | direct operand =>
    refine (emits_loadOperand d operand (isSome_encode_lda hloc)).imp le_rfl (fun _ _ => trivial) ?_
    rintro s t - - ⟨ht, ha⟩
    refine ⟨?_, ha.trans (value_eq hloc)⟩
    rw [ht]
    exact Same.setRegs s _
  | indirect pointer offset =>
    have hset := emits_setPointer (k := k) d pointer
    have hy := emits_setY (k := k) (d.setPointer pointer) offset
    have hlda := emits_ldaThrough (k := k) ((d.setPointer pointer).setY offset)
      ((pointer_setY _ _).trans (pointer_setPointer d pointer)) offset
    rw [hy.cell, hset.cell] at hlda
    refine ((hset.trans hy fun _ _ _ _ => trivial).trans hlda ?_).imp le_rfl (fun _ _ => trivial) ?_
    · rintro s u - ⟨t, -, -, -, hoffset⟩
      exact hoffset
    · rintro s w - hclear ⟨u, ⟨t, hsame, hu, -⟩, hw, ha⟩
      have hsu : Same d.pointerCell everything s u := hsame.trans (hu ▸ Same.setRegs t _)
      have hbelow : Below everything (.indirect pointer offset) :=
        ⟨pointer.1.index.toNat_lt, pointer.2.index.toNat_lt⟩
      refine ⟨hsu.trans (hw ▸ Same.setRegs u _), ?_⟩
      rw [ha, hsu.spotOf hbelow]
      exact hsu.get _ (hclear _ rfl)

theorem emits_newVReg {d : Draft} (hroom : d.nextVReg.toNat + 1 < everything) :
    Emits k 1 d d.newVReg.2 (fun _ => True) fun s t => t = s where
  cell := rfl
  grows := by
    have h1 : (1 : UInt32).toNat = 1 := rfl
    simp only [Draft.newVReg, UInt32.toNat_add, h1, Nat.mod_eq_of_lt hroom]
    omega
  bounded := by
    have h1 : (1 : UInt32).toNat = 1 := rfl
    simp only [Draft.newVReg, UInt32.toNat_add, h1, Nat.mod_eq_of_lt hroom]
    omega
  lines := ⟨[], by simp [Draft.newVReg], by simp, fun s hr _ => ⟨hr, rfl⟩⟩

/-- The draft with which a store through a pointer begins: the scratch pointer is set up, and A is
what it was. -/
def aim (d : Draft) (pointer : PointerPair) : Draft :=
  if d.known.pointer = some pointer then d
  else
    ((d.newVReg.2.op .sta (.virtual d.newVReg.1)).setPointer pointer).op .lda
      (.virtual d.newVReg.1)

theorem pointer_aim (d : Draft) (pointer : PointerPair) :
    (aim d pointer).known.pointer = some pointer := by
  unfold aim
  split
  · assumption
  · exact pointer_setPointer _ pointer

/-- While the scratch pointer is set up, A waits in a new register. -/
theorem emits_aim {d : Draft} (pointer : PointerPair) {n : ℕ} (hn : n ≤ d.nextVReg.toNat)
    (hroom : d.nextVReg.toNat + 1 < everything) :
    Emits k 1 d (aim d pointer) (fun _ => True) fun s t =>
      Same d.pointerCell n s t ∧ t.regs.a = s.regs.a := by
  unfold aim
  split
  · exact (Emits.refl fun s _ _ => ⟨Same.refl s, rfl⟩).imp (Nat.zero_le 1) (fun _ h => h)
      fun _ _ _ _ h => h
  have hnew := emits_newVReg (k := k) hroom
  have hsave := emits_sta (k := k) d.newVReg.2 (.virtual d.newVReg.1) trivial rfl
  have hset := emits_setPointer (k := k) (d.newVReg.2.op .sta (.virtual d.newVReg.1)) pointer
  have hback := emits_lda (k := k) ((d.newVReg.2.op .sta (.virtual d.newVReg.1)).setPointer pointer)
    (.virtual d.newVReg.1) rfl
  refine (((hnew.trans hsave ?_).trans hset fun _ _ _ _ => trivial).trans hback
    fun _ _ _ _ => trivial).imp le_rfl (fun _ h => h) ?_
  · intro s t _ _ a ha
    cases ha
  · rintro s w - - ⟨v, ⟨u, ⟨t, rfl, rfl⟩, hsame⟩, rfl⟩
    have hhidden : ¬Visible d.pointerCell n (.cell d.newVReg.1) := not_lt.mpr hn
    have hsaved : Same d.pointerCell n t (put t (.cell d.newVReg.1) t.regs.a) :=
      Same.put_hidden (show Keeps t (.cell d.newVReg.1) from trivial) hhidden _
    refine ⟨(hsaved.trans (hsame.mono ?_)).trans (Same.setRegs v _), ?_⟩
    · exact hn.trans (by omega)
    · have hcell := hsame.get (.cell d.newVReg.1) d.newVReg.1.index.toNat_lt
      exact hcell.trans (Function.update_self ..)

/-- **Storing A to a byte.** -/
theorem emits_storeA {d d' : Draft} {loc : ByteLoc} (hloc : IsByte loc) {n : ℕ}
    (hn : n ≤ d.nextVReg.toNat) (hroom : d.nextVReg.toNat + 1 < everything) (hbelow : Below n loc)
    (h : d.storeA loc = .ok d') :
    Emits k 1 d d'
      (fun s => Keeps s (spotOf k s loc) ∧
        ∀ a, spotOf k s loc = .memory a → ¬IsScratch d.pointerCell a) fun s t =>
      Same d.pointerCell n (put s (spotOf k s loc) s.regs.a) t := by
  cases loc with
  | direct operand =>
    simp only [Draft.storeA] at h
    split at h
    · rename_i hmemory
      cases h
      refine (emits_sta d operand hloc hmemory).imp (Nat.zero_le 1) ?_ ?_
      · intro s hpre a ha hscratch
        exact absurd hscratch (hpre.2 a ha)
      · rintro s t - - rfl
        exact Same.refl _
    · cases h
  | indirect pointer offset =>
    have hd' : ((aim d pointer).setY offset).op .sta (.indirectY (aim d pointer).pointerCell) = d' :=
      Except.ok.inj h
    have haim := emits_aim (k := k) pointer hn hroom
    have hy := emits_setY (k := k) (aim d pointer) offset
    have hsta := emits_staThrough (k := k) ((aim d pointer).setY offset)
      ((pointer_setY _ _).trans (pointer_aim d pointer)) offset
    rw [hy.cell, hd', haim.cell] at hsta
    have hready : Emits k 1 d ((aim d pointer).setY offset)
        (fun s => Keeps s (spotOf k s (.indirect pointer offset)) ∧
          ∀ a, spotOf k s (.indirect pointer offset) = .memory a → ¬IsScratch d.pointerCell a)
        fun s t => Same d.pointerCell n s t ∧ t.regs.a = s.regs.a ∧ t.regs.y = offset := by
      refine (haim.trans hy fun _ _ _ _ => trivial).imp le_rfl (fun _ _ => trivial) ?_
      rintro s u - - ⟨t, ⟨hsame, ha⟩, hu, ha', hoffset⟩
      exact ⟨hsame.trans (hu ▸ Same.setRegs t _), ha'.trans ha, hoffset⟩
    refine (hready.trans hsta ?_).imp le_rfl (fun _ h => h) ?_
    · rintro s t ⟨-, hclear⟩ ⟨hsame, -, hoffset⟩
      exact ⟨hoffset, by rw [hsame.spotOf hbelow]; exact hclear⟩
    · rintro s u - ⟨hkeeps, -⟩ ⟨t, ⟨hsame, ha, -⟩, rfl⟩
      rw [hsame.spotOf hbelow, ha]
      exact hsame.put hkeeps _

end Codegen6502.Proofs.Selecting.Tracking
