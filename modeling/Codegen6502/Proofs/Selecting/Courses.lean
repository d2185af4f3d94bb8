import Codegen6502.Proofs.Processor.Arithmetic
import Codegen6502.Proofs.Processor.Passages
import Codegen6502.Proofs.Selecting.Moves
import Codegen6502.Proofs.Selecting.Growth

/-!
# The courses of drafts

What lines do of which the flags matter.  `Tells` says that N and Z describe the operand that a
draft takes them to describe; every plain line keeps it true (`tells_line`).

`Passes` is what straight lines do, with the flags followed; `Leads` what lines do that branch
forwards.  One part after the other: `Passes.trans` and `Leads.trans`.  `passes_combine` and
`leads_test` are the two steps that arithmetic and comparisons are made of.
-/

namespace Codegen6502.Proofs.Selecting.Courses

open Selection Growth
open Processor.Memory Processor.LineRun Processor.Straight Processor.Arithmetic Processor.Passages
open Tracking Places Moves

variable {k : Linkage} {s t u : Store} {d d' d'' : Draft}

/-! ### What the flags describe -/

/-- N and Z describe the operand that they are known to describe. -/
def Tells (k : Linkage) (nz : Option Operand) (s : Store) : Prop :=
  ∀ operand, nz = some operand → Knowledge.isTracked operand = true ∧
    s.regs.flag .z = decide (value k s operand = 0) ∧
    s.regs.flag .n = isNegative (value k s operand)

theorem tells_none : Tells k none s := fun _ h => by cases h

/-- The flags of a value that has just been set. -/
theorem tells_some {operand : Operand} (htracked : Knowledge.isTracked operand = true)
    {r : Registers} (h : s.regs = r.setNZ (value k s operand)) : Tells k (some operand) s := by
  intro o ho
  obtain rfl := Option.some.inj ho
  rw [h, flag_setNZ, flag_setNZ]
  exact ⟨htracked, rfl, rfl⟩

/-- A line that changes neither what is described nor N and Z. -/
theorem Tells.kept {nz : Option Operand} (h : Tells k nz s) (hz : t.regs.flag .z = s.regs.flag .z)
    (hn : t.regs.flag .n = s.regs.flag .n)
    (hvalue : ∀ operand, nz = some operand → value k t operand = value k s operand) :
    Tells k nz t := by
  intro operand ho
  obtain ⟨htracked, hz', hn'⟩ := h operand ho
  rw [hz, hn, hvalue operand ho]
  exact ⟨htracked, hz', hn'⟩

/-- What a store does to a tracked operand that it does not write. -/
theorem value_exec_sta {operand other : Operand} (htracked : Knowledge.isTracked other = true)
    (h : operand.isMemory = true → other ≠ operand) :
    value k (s.exec k .sta operand) other = value k s other := by
  obtain ⟨v, rfl⟩ | ⟨byte, rfl⟩ := tracked_cases htracked
  · cases operand with
    | virtual w =>
      have hvw : v ≠ w := fun heq => h rfl (by rw [heq])
      exact Function.update_of_ne hvw _ _
    | _ => rfl
  · rfl

theorem regs_exec_sta (operand : Operand) : (s.exec k .sta operand).regs = s.regs := by
  cases operand with
  | virtual v => simp only [Store.exec, cellOp_sta]; rfl
  | frame o => simp only [Store.exec, cellOp_sta]; rfl
  | _ => rfl

/-- The instructions that read a byte, change it and write it back set N and Z by it. -/
theorem cellOp_modify {op : Opcode} (h : op.isReadModifyWrite = true) (r : Registers) (byte : UInt8) :
    ∃ r' : Registers, (cellOp op r byte).1 = r'.setNZ (cellOp op r byte).2 := by
  cases op
  case inc => exact ⟨r, by rw [cellOp_inc]⟩
  case dec => exact ⟨r, by rw [cellOp_dec]⟩
  case asl | lsr | rol | ror =>
    simp only [cellOp, Machine.execute, Machine.readOperand, Machine.mapRegs, Machine.writeOperand,
      read_alone]
    exact ⟨_, by rw [read_alone_write]⟩
  all_goals cases h

theorem tells_modify {op : Opcode} (h : op.isReadModifyWrite = true) (nz : Option Operand)
    (operand : Operand) : Tells k (nzAfter nz (.op op operand)) (s.exec k op operand) := by
  by_cases hvirtual : ∃ v, operand = .virtual v
  · obtain ⟨v, rfl⟩ := hvirtual
    have hafter : nzAfter nz (.op op (.virtual v)) = some (.virtual v) := by
      cases op <;> first | rfl | cases h
    obtain ⟨r, hr⟩ := cellOp_modify h s.regs (s.cells v)
    have hvalue : value k (s.exec k op (.virtual v)) (.virtual v) =
        (cellOp op s.regs (s.cells v)).2 := Function.update_self ..
    rw [hafter]
    exact tells_some rfl (hr.trans (by rw [hvalue]))
  · have hafter : nzAfter nz (.op op operand) = none := by
      cases op
      case inc | dec | asl | lsr | rol | ror =>
        cases operand <;> first | rfl | exact absurd ⟨_, rfl⟩ hvirtual
      all_goals cases h
    rw [hafter]
    exact tells_none

/-- The instructions that set the carry. -/
theorem exec_setCarry {op : Opcode} (h : op = .clc ∨ op = .sec) {operand : Operand}
    (hpre : operand.isPreAllocation = false) :
    s.exec k op operand = s.setRegs (s.regs.setFlag .c (op = .sec)) := by
  obtain rfl | rfl := h <;> cases operand <;> first | rfl | cases hpre

theorem tells_setCarry {op : Opcode} {nz : Option Operand} {operand : Operand}
    (hop : op = .clc ∨ op = .sec) (hpre : operand.isPreAllocation = false) (h : Tells k nz s) :
    Tells k (nzAfter nz (.op op operand)) (s.exec k op operand) := by
  have hafter : nzAfter nz (.op op operand) = nz := by obtain rfl | rfl := hop <;> rfl
  rw [hafter, exec_setCarry hop hpre]
  refine h.kept ?_ ?_ fun other hother => value_setRegs (h other hother).1 _
  · rw [regs_setRegs, flag_setFlag, if_neg (by decide)]
  · rw [regs_setRegs, flag_setFlag, if_neg (by decide)]

/-- **Every plain line** keeps what is known about the flags true. -/
theorem tells_line {reach : UInt8 → Prop} {nz : Option Operand} {line : Line}
    (hline : Growth.Plain reach (line, none)) (h : Tells k nz s) :
    Tells k (nzAfter nz line) (execLine k s line) := by
  obtain ⟨op, operand, heq, hplain, hwithin, haccess⟩ := hline
  obtain rfl : line = .op op operand := congrArg Prod.fst heq
  cases op
  case lda =>
    by_cases htracked : Knowledge.isTracked operand = true
    · have hafter : nzAfter nz (.op .lda operand) = some operand := by
        simp [nzAfter, Knowledge.after, Knowledge.afterRegisters, Opcode.writesMemory,
          Opcode.isReadModifyWrite, htracked]
      rw [hafter, execLine, exec_lda]
      exact tells_some htracked (by rw [value_setRegs htracked]; rfl)
    · have hafter : nzAfter nz (.op .lda operand) = none := by
        simp [nzAfter, Knowledge.after, Knowledge.afterRegisters, Opcode.writesMemory,
          Opcode.isReadModifyWrite, htracked]
      rw [hafter]
      exact tells_none
  case sta =>
    -- What is described is given up if it is written.
    have hafter : nzAfter nz (.op .sta operand) =
        if operand.isMemory = true ∧ nz = some operand then none else nz := by
      cases operand <;> simp [nzAfter, Knowledge.after, Opcode.writesMemory, Operand.isMemory,
        Knowledge.afterWrite, Knowledge.afterRegisters]
    rw [hafter]
    split
    · exact tells_none
    · rename_i hkept
      refine h.kept ?_ ?_ fun other hother => value_exec_sta (h other hother).1 fun hmemory heq => ?_
      · rw [execLine, regs_exec_sta]
      · rw [execLine, regs_exec_sta]
      · exact hkept ⟨hmemory, by rw [hother, heq]⟩
  case inc | dec | asl | lsr | rol | ror => exact tells_modify rfl nz operand
  case clc => exact tells_setCarry (Or.inl rfl) (Bool.eq_false_iff.mpr fun hpre => by cases haccess hpre) h
  case sec => exact tells_setCarry (Or.inr rfl) (Bool.eq_false_iff.mpr fun hpre => by cases haccess hpre) h
  case adc | sbc | and | ora | eor | cmp | ldy | tay | tya => exact tells_none
  all_goals cases hplain

/-! ### Straight lines -/

/-- Every frame byte is as good as any other. -/
def anywhere : UInt8 → Prop := fun _ => True

theorem sited_of_isByte {loc : ByteLoc} (h : IsByte loc) : Sited anywhere loc := by
  cases loc with
  | indirect pointer offset => trivial
  | direct operand => cases operand <;> trivial

/-- All that is known at the end of a draft is true. -/
def Alert (k : Linkage) (d : Draft) (s : Store) : Prop := Ready k d s ∧ Tells k d.known.nz s

/-- What straight lines do to which the flags are followed. -/
structure Passes (k : Linkage) (fresh : ℕ) (d d' : Draft) (pre : Store → Prop)
    (post : Store → Store → Prop) : Prop extends Emits k fresh d d' pre post where
  plain : GrownBy (Growth.Plain anywhere) d d'

namespace Passes

variable {m n : ℕ} {pre pre' : Store → Prop} {post post' : Store → Store → Prop}

theorem refl (h : ∀ s, Ready k d s → pre s → post s s) : Passes k 0 d d pre post :=
  ⟨.refl h, .refl d⟩

theorem trans (h : Passes k m d d' pre post) (h' : Passes k n d' d'' pre' post')
    (link : ∀ s t, pre s → post s t → pre' t) :
    Passes k (m + n) d d'' pre fun s u => ∃ t, post s t ∧ post' t u :=
  ⟨h.toEmits.trans h'.toEmits link, h.plain.trans h'.plain⟩

theorem imp (h : Passes k m d d' pre post) (hmn : m ≤ n) (hpre : ∀ s, pre' s → pre s)
    (hpost : ∀ s t, Ready k d s → pre' s → post s t → post' s t) : Passes k n d d' pre' post' :=
  ⟨h.toEmits.imp hmn hpre hpost, h.plain⟩

theorem tells_entries {es : List Entry} (hplain : Each (Growth.Plain anywhere) es) :
    ∀ {nz : Option Operand} {s : Store}, Tells k nz s →
      Tells k ((es.map Prod.fst).foldl nzAfter nz) (execAll k (es.map Prod.fst) s) := by
  induction es with
  | nil => exact fun h => h
  | cons e rest ih =>
    intro nz s h
    obtain ⟨op, operand, rfl, hrest⟩ := hplain e (List.mem_cons_self ..)
    exact ih (fun e' he' => hplain e' (List.mem_cons_of_mem _ he'))
      (tells_line ⟨op, operand, rfl, hrest⟩ h)

theorem alert (h : Passes k m d d' pre post) : ∃ lines, d'.code = d.code ++ lines ∧
    (∀ line ∈ lines, IsStraight line) ∧ ∀ s, Alert k d s → pre s →
      Alert k d' (execAll k lines s) ∧ post s (execAll k lines s) := by
  obtain ⟨lines, hcode, hstraight, hrun⟩ := h.lines
  obtain ⟨es, hes, hplain⟩ := h.plain
  have hlines : lines = es.map Prod.fst := List.append_cancel_left (hcode.symm.trans hes.code)
  refine ⟨lines, hcode, hstraight, fun s hs hp => ?_⟩
  obtain ⟨hready, hpost⟩ := hrun s hs.1 hp
  refine ⟨⟨hready, ?_⟩, hpost⟩
  rw [hes.nz, hlines]
  exact tells_entries hplain hs.2

end Passes

/-! ### The carry -/

theorem flag_c_move {op : Opcode} (h : isMove op = true) (operand : Operand) :
    (s.exec k op operand).regs.flag .c = s.regs.flag .c := by
  cases op
  case lda =>
    rw [exec_lda, regs_setRegs, Processor.Arithmetic.flag_loadA, if_neg (by decide),
      if_neg (by decide)]
  case sta => rw [regs_exec_sta]
  case ldy =>
    have hload : ∀ (r : Registers) (byte : UInt8), (r.loadY byte).flag .c = r.flag .c := fun r byte => by
      unfold Registers.loadY
      rw [flag_setNZ]
      rfl
    cases operand <;> exact hload _ _
  all_goals cases h

/-- Moves leave the carry alone. -/
theorem passes_of_moving {m : ℕ} {pre : Store → Prop} {post : Store → Store → Prop}
    (h : Emits k m d d' pre post) (hmoving : GrownBy (Moving anywhere) d d') :
    Passes k m d d' pre fun s t => post s t ∧ t.regs.flag .c = s.regs.flag .c := by
  refine ⟨⟨h.cell, h.grows, h.bounded, ?_⟩, hmoving.imp fun _ => plain_of_moving⟩
  obtain ⟨lines, hcode, hstraight, hrun⟩ := h.lines
  obtain ⟨es, hes, hmove⟩ := hmoving
  have hlines : lines = es.map Prod.fst := List.append_cancel_left (hcode.symm.trans hes.code)
  have hcarry : ∀ s, (execAll k lines s).regs.flag .c = s.regs.flag .c := by
    rw [hlines]
    clear hes hlines hrun
    induction es with
    | nil => exact fun s => rfl
    | cons e rest ih =>
      intro s
      obtain ⟨op, operand, rfl, hop, -⟩ := hmove e (List.mem_cons_self ..)
      exact (ih (fun e' he' => hmove e' (List.mem_cons_of_mem _ he')) _).trans
        (flag_c_move hop operand)
  refine ⟨lines, hcode, hstraight, fun s hs hp => ?_⟩
  obtain ⟨hready, hpost⟩ := hrun s hs hp
  exact ⟨hready, hpost, hcarry s⟩

/-! ### Bytes -/

theorem passes_loadA (d : Draft) {loc : ByteLoc} (hloc : IsByte loc) :
    Passes k 0 d (d.loadA loc) (fun s => Outside d.pointerCell (spotOf k s loc)) fun s t =>
      (Same d.pointerCell everything s t ∧ t.regs.a = get s (spotOf k s loc)) ∧
        t.regs.flag .c = s.regs.flag .c :=
  passes_of_moving (emits_loadA d hloc) (grown_loadA d (sited_of_isByte hloc))

theorem passes_setY (d : Draft) (byte : UInt8) :
    Passes k 0 d (d.setY byte) (fun _ => True) fun s t =>
      (t = s.setRegs t.regs ∧ t.regs.a = s.regs.a ∧ t.regs.y = byte) ∧
        t.regs.flag .c = s.regs.flag .c :=
  passes_of_moving (emits_setY d byte) (grown_setY d byte)

/-- Keeping A in a virtual register. -/
theorem passes_keep (d : Draft) (v : VReg) :
    Passes k 0 d (d.op .sta (.virtual v)) (fun _ => True) fun s t =>
      t = put s (.cell v) s.regs.a :=
  ⟨(emits_sta d (.virtual v) trivial rfl).imp le_rfl (fun _ _ _ h => by cases h) fun _ _ _ _ h => h,
    .op d rfl trivial rfl⟩

theorem passes_newVReg (hroom : d.nextVReg.toNat + 1 < everything) :
    Passes k 1 d d.newVReg.2 (fun _ => True) fun s t => t = s :=
  ⟨emits_newVReg hroom, (GrownBy.refl d).congr rfl rfl rfl rfl⟩

theorem passes_setCarry (d : Draft) {op : Opcode} (h : op = .clc ∨ op = .sec) :
    Passes k 0 d (d.bare op) (fun _ => True) fun s t =>
      t = s.setRegs (s.regs.setFlag .c (op = .sec)) := by
  have hbare : Line.bare op = .op op .implied := by obtain rfl | rfl := h <;> rfl
  have hdraft : d.bare op = d.op op .implied := by unfold Draft.bare Draft.op; rw [hbare]
  have hafter : ∀ (known : Knowledge) (cell : UInt8), known.after cell (.op op .implied) = known := by
    intro known cell
    obtain rfl | rfl := h <;> rfl
  rw [hdraft]
  refine ⟨Emits.op d ?_ ?_ fun s hr _ => ?_, _, .op d op .implied, each_single
    ⟨op, .implied, rfl, ?_, trivial, fun hpre => by cases hpre⟩⟩
  · obtain rfl | rfl := h <;> rfl
  · obtain rfl | rfl := h <;> rfl
  · rw [hafter, exec_setCarry h rfl]
    refine ⟨⟨fun o ho => ?_, hr.1.pointer, hr.1.y⟩, hr.2, rfl⟩
    obtain ⟨htracked, hvalue⟩ := hr.1.a o ho
    exact ⟨htracked, (value_setRegs htracked _).trans hvalue⟩
  · obtain rfl | rfl := h <;> rfl

/-- What is known after an instruction that computes in A: A may have changed, Y and the scratch
pointer have not. -/
theorem knows_alu {cell : UInt8} {known : Knowledge} {op : Opcode} (hop : isAlu op = true)
    (h : Knows k cell known s) (operand : Operand) :
    Knows k cell (known.after cell (.op op operand)) (s.exec k op operand) := by
  have hregs : (s.exec k op operand) = s.setRegs (alu op s.regs (value k s operand)) :=
    exec_alu hop operand
  have hy : (alu op s.regs (value k s operand)).y = s.regs.y := by
    obtain rfl | rfl | rfl | rfl | rfl | rfl := isAlu_cases hop <;> rfl
  have hpointer : (known.after cell (.op op operand)).pointer = known.pointer := by
    obtain rfl | rfl | rfl | rfl | rfl | rfl := isAlu_cases hop <;> rfl
  have hknown : (known.after cell (.op op operand)).y = known.y := by
    obtain rfl | rfl | rfl | rfl | rfl | rfl := isAlu_cases hop <;> rfl
  have ha : (known.after cell (.op op operand)).a = [] ∨
      (known.after cell (.op op operand)).a = known.a ∧
        (alu op s.regs (value k s operand)).a = s.regs.a := by
    obtain rfl | rfl | rfl | rfl | rfl | rfl := isAlu_cases hop
    case inr.inr.inr.inr.inr => exact Or.inr ⟨rfl, rfl⟩
    all_goals exact Or.inl rfl
  rw [hregs]
  refine ⟨fun o ho => ?_, fun lo hi hsome => ?_, fun byte hbyte => ?_⟩
  · obtain hnil | ⟨hsame, hkept⟩ := ha
    · rw [hnil] at ho
      exact (List.not_mem_nil ho).elim
    · rw [hsame] at ho
      obtain ⟨htracked, hvalue⟩ := h.a o ho
      exact ⟨htracked, (value_setRegs htracked _).trans (hvalue.trans hkept.symm)⟩
  · rw [hpointer] at hsome
    exact h.pointer lo hi hsome
  · rw [hknown] at hbyte
    exact hy.trans (h.y byte hbyte)

theorem passes_alu (d : Draft) {op : Opcode} (hop : isAlu op = true) {operand : Operand}
    (hencode : (op.encode operand.mode).isSome) (hwithin : Within anywhere operand) :
    Passes k 0 d (d.op op operand) (fun _ => True) fun s t =>
      t = s.setRegs (alu op s.regs (value k s operand)) := by
  refine ⟨Emits.op d ?_ hencode fun s hr _ => ⟨knows_alu hop hr.1 operand, ?_⟩,
    .op d ?_ hwithin ?_⟩
  · obtain rfl | rfl | rfl | rfl | rfl | rfl := isAlu_cases hop <;> rfl
  · rw [exec_alu hop]
    exact ⟨hr.2, rfl⟩
  · obtain rfl | rfl | rfl | rfl | rfl | rfl := isAlu_cases hop <;> rfl
  · obtain rfl | rfl | rfl | rfl | rfl | rfl := isAlu_cases hop <;> rfl

theorem isSome_encode_alu {op : Opcode} (hop : isAlu op = true) {operand : Operand}
    (h : IsSimple operand) : (op.encode operand.mode).isSome := by
  obtain rfl | rfl | rfl | rfl | rfl | rfl := isAlu_cases hop
  all_goals cases operand <;> first | rfl | exact h.elim

theorem passes_through {op : Opcode} (hop : isAlu op = true) {pointer : PointerPair}
    (hp : d.known.pointer = some pointer) (offset : UInt8) :
    Passes k 0 d (d.op op (.indirectY d.pointerCell)) (fun s => s.regs.y = offset) fun s t =>
      t = s.setRegs (alu op s.regs (get s (spotOf k s (.indirect pointer offset)))) := by
  have hencode : (op.encode (Operand.indirectY d.pointerCell).mode).isSome := by
    obtain rfl | rfl | rfl | rfl | rfl | rfl := isAlu_cases hop <;> rfl
  refine (passes_alu d hop hencode trivial).imp le_rfl (fun _ _ => trivial) ?_
  rintro s t hr hy rfl
  simp only [value, effective_indirectY hr hp hy]
  rfl

/-- **Computing with a byte.** -/
theorem passes_compute {op : Opcode} (hop : isAlu op = true) {loc : ByteLoc} (hloc : IsByte loc)
    (h : d.compute op loc = .ok d') :
    Passes k 0 d d' (fun s => Outside d.pointerCell (spotOf k s loc)) fun s t =>
      Same d.pointerCell everything s t ∧ ∃ r : Registers, r.a = s.regs.a ∧
        r.flag .c = s.regs.flag .c ∧ t.regs = alu op r (get s (spotOf k s loc)) := by
  cases loc with
  | direct operand =>
    obtain rfl := Except.ok.inj h
    refine (passes_alu d hop (isSome_encode_alu hop hloc) (sited_of_isByte hloc)).imp le_rfl
      (fun _ _ => trivial) ?_
    rintro s t - - rfl
    exact ⟨Same.setRegs s _, s.regs, rfl, rfl, by rw [value_eq hloc]; rfl⟩
  | indirect pointer offset =>
    simp only [Draft.compute] at h
    split at h
    · rename_i hknown
      obtain rfl := Except.ok.inj h
      have hy := passes_setY (k := k) d offset
      have hcell : (d.setY offset).pointerCell = d.pointerCell := hy.cell
      have hpointer : (d.setY offset).known.pointer = some pointer :=
        (pointer_setY d offset).trans hknown
      have halu := passes_through (k := k) hop hpointer offset
      rw [hcell] at halu
      refine (hy.trans halu fun s t _ ht => ht.1.2.2).imp le_rfl (fun _ _ => trivial) ?_
      rintro s u - - ⟨t, ⟨⟨ht, ha, -⟩, hc⟩, rfl⟩
      have hsame : Same d.pointerCell everything s t := ht ▸ Same.setRegs s _
      have hspot : spotOf k t (.indirect pointer offset) = spotOf k s (.indirect pointer offset) := by
        rw [ht]
        rfl
      refine ⟨hsame.trans (Same.setRegs t _), t.regs, ha, hc, ?_⟩
      rw [regs_setRegs, hspot]
      congr 1
      rw [ht]
      rfl
    · cases h

/-- The byte at a location. -/
abbrev held (k : Linkage) (s : Store) (loc : ByteLoc) : UInt8 := get s (spotOf k s loc)

/-- No location is in the scratch pointer. -/
def Away (k : Linkage) (cell : UInt8) (s : Store) (locs : List ByteLoc) : Prop :=
  ∀ loc ∈ locs, Outside cell (spotOf k s loc)

theorem below_everything (loc : ByteLoc) : Below everything loc := by
  cases loc with
  | direct operand =>
    cases operand with
    | virtual v => exact v.index.toNat_lt
    | _ => trivial
  | indirect pointer offset => exact ⟨pointer.1.index.toNat_lt, pointer.2.index.toNat_lt⟩

section Everything

variable {cell : UInt8} {loc : ByteLoc} {locs : List ByteLoc}

/-- What the registers and the scratch pointer hold does not matter for a byte elsewhere. -/
theorem Same.held (h : Same cell everything s t) (hloc : IsByte loc)
    (hout : Outside cell (spotOf k s loc)) : held k t loc = held k s loc := by
  rw [Courses.held, h.spotOf (below_everything loc)]
  exact h.get _ (visible_of_clear ⟨hloc, below_everything loc⟩ hout)

theorem Away.same (h : Away k cell s locs) (hsame : Same cell everything s t) :
    Away k cell t locs := by
  intro loc hloc
  rw [hsame.spotOf (below_everything loc)]
  exact h loc hloc

end Everything

/-- **Loading a byte and computing with another one.** -/
theorem passes_combine {op : Opcode} (hop : isAlu op = true) {l r : ByteLoc} (hl : IsByte l)
    (hr : IsByte r) (h : (d.loadA l).compute op r = .ok d') :
    Passes k 0 d d' (fun s => Away k d.pointerCell s [l, r]) fun s t =>
      Same d.pointerCell everything s t ∧ ∃ q : Registers, q.a = held k s l ∧
        q.flag .c = s.regs.flag .c ∧ t.regs = alu op q (held k s r) := by
  have hload : Passes k 0 d (d.loadA l) (fun s => Away k d.pointerCell s [l, r]) _ :=
    (passes_loadA d hl).imp le_rfl (fun s hs => hs l (by simp)) fun _ _ _ _ h => h
  have hcompute := passes_compute (k := k) hop hr h
  rw [hload.cell] at hcompute
  refine (hload.trans hcompute ?_).imp le_rfl (fun _ hs => hs) ?_
  · rintro s t hs ⟨⟨hsame, -⟩, -⟩
    exact hs.same hsame r (by simp)
  · rintro s u - hs ⟨t, ⟨⟨hsame, ha⟩, hc⟩, hsame', q, hqa, hqc, hregs⟩
    refine ⟨hsame.trans hsame', q, hqa.trans ha, hqc.trans hc, ?_⟩
    rw [hregs]
    exact congrArg _ (Same.held hsame hr (hs r (by simp)))

/-! ### Lines that branch -/

/-- The labels among lines. -/
def labelsIn (lines : List Line) : List String :=
  lines.filterMap fun
    | .label name => some name
    | _ => none

theorem mem_labelsIn {lines : List Line} {name : String} :
    name ∈ labelsIn lines ↔ .label name ∈ lines := by
  refine List.mem_filterMap.trans ⟨?_, fun h => ⟨_, h, rfl⟩⟩
  rintro ⟨line, hline, hname⟩
  cases line with
  | label other =>
    obtain rfl := Option.some.inj hname
    exact hline
  | _ => cases hname

theorem labelsIn_append (front back : List Line) :
    labelsIn (front ++ back) = labelsIn front ++ labelsIn back := List.filterMap_append

theorem labelsIn_straight {lines : List Line} (h : ∀ line ∈ lines, IsStraight line) :
    labelsIn lines = [] := by
  refine List.filterMap_eq_nil_iff.mpr fun line hline => ?_
  obtain ⟨op, operand, rfl, -⟩ := h line hline
  rfl

theorem exit?_straight {line : Line} (h : IsStraight line) : exit? line = none := by
  obtain ⟨op, operand, rfl, hdata, -⟩ := h
  simp [exit?, hdata]

/-- Control can only be on its way to a label that a line names. -/
theorem exists_exit_of_seeking {target : String} : ∀ {lines : List Line} {p : Passage},
    (follow k lines p).seeking = some target →
      p.seeking = some target ∨ ∃ line ∈ lines, exit? line = some target
  | [], p, h => Or.inl h
  | line :: rest, p, h => by
    rcases exists_exit_of_seeking (p := advance k p line) h with hseeking | ⟨l, hl, hexit⟩
    · unfold advance at hseeking
      split at hseeking
      · split at hseeking
        · cases hseeking
        · exact Or.inl hseeking
      · split at hseeking
        · rename_i other hother
          refine Or.inr ⟨line, List.mem_cons_self .., hother.trans ?_⟩
          simp only at hseeking
          split at hseeking
          · exact hseeking
          · cases hseeking
        · cases hseeking
    · exact Or.inr ⟨l, List.mem_cons_of_mem _ hl, hexit⟩

/-- What lines do that branch forwards: they have the labels `names`, and control may go from them
to `goals`. -/
structure Leads (k : Linkage) (names goals : List String) (d d' : Draft) (pre : Store → Prop)
    (post : Store → Passage → Prop) : Prop where
  cell : d'.pointerCell = d.pointerCell
  lines : ∃ lines, d'.code = d.code ++ lines ∧ (∀ line ∈ lines, IsForward line) ∧
    labelsIn lines = names ∧
    (∀ line ∈ lines, ∀ target, exit? line = some target → target ∈ goals) ∧
    ∀ s, Alert k d s → pre s → PlainScratch d.pointerCell (follow k lines { store := s }).store ∧
      ((follow k lines { store := s }).seeking = none →
        Alert k d' (follow k lines { store := s }).store) ∧
      post s (follow k lines { store := s })

/-- Control passes a label. -/
def land (name : String) (p : Passage) : Passage :=
  if p.seeking = some name then { store := p.store } else p

namespace Leads

variable {names names' goals goals' : List String} {m : ℕ} {pre pre' : Store → Prop}
  {post post' : Store → Passage → Prop}

theorem of_passes {post : Store → Store → Prop} (h : Passes k m d d' pre post) :
    Leads k [] [] d d' pre fun s p => ∃ t, p = { store := t } ∧ post s t := by
  obtain ⟨lines, hcode, hstraight, hrun⟩ := h.alert
  refine ⟨h.cell, lines, hcode, fun line hl => .straight (hstraight line hl),
    labelsIn_straight hstraight, fun line hl target hexit => ?_, fun s hs hp => ?_⟩
  · rw [exit?_straight (hstraight line hl)] at hexit
    cases hexit
  · obtain ⟨halert, hpost⟩ := hrun s hs hp
    rw [follow_straight hstraight]
    refine ⟨?_, fun _ => halert, _, rfl, hpost⟩
    have hplain := halert.1.2
    rwa [h.cell] at hplain

theorem imp (h : Leads k names goals d d' pre post) (hpre : ∀ s, pre' s → pre s)
    (hpost : ∀ s p, Alert k d s → pre' s → post s p → post' s p) :
    Leads k names goals d d' pre' post' := by
  obtain ⟨hcell, lines, hcode, hforward, hnames, hgoals, hrun⟩ := h
  refine ⟨hcell, lines, hcode, hforward, hnames, hgoals, fun s hs hp => ?_⟩
  obtain ⟨hplain, halert, hq⟩ := hrun s hs (hpre s hp)
  exact ⟨hplain, halert, hpost s _ hs hp hq⟩

/-- More labels may be gone to. -/
theorem widen (h : Leads k names goals d d' pre post) (hsub : ∀ g ∈ goals, g ∈ goals') :
    Leads k names goals' d d' pre post := by
  obtain ⟨hcell, lines, hcode, hforward, hnames, hgoals, hrun⟩ := h
  exact ⟨hcell, lines, hcode, hforward, hnames, fun line hl g hg => hsub g (hgoals line hl g hg),
    hrun⟩

/-- **One part after the other.**  Control that is on its way out of the first passes the second
by. -/
theorem trans (h : Leads k names goals d d' pre post)
    (h' : Leads k names' goals' d' d'' pre' post') (hfree : ∀ g ∈ goals, g ∉ names')
    (link : ∀ s t, Alert k d' t → pre s → post s { store := t } → pre' t) :
    Leads k (names ++ names') (goals ++ goals') d d'' pre fun s q =>
      (∃ t, post s { store := t } ∧ post' t q) ∨
        ∃ t target, q = { store := t, seeking := some target } ∧ post s q := by
  obtain ⟨hcell, front, hcode, hforward, hnames, hgoals, hrun⟩ := h
  obtain ⟨hcell', back, hcode', hforward', hnames', hgoals', hrun'⟩ := h'
  refine ⟨hcell'.trans hcell, front ++ back, by rw [hcode', hcode, List.append_assoc], ?_,
    by rw [labelsIn_append, hnames, hnames'], ?_, fun s hs hp => ?_⟩
  · exact fun line hl => (List.mem_append.mp hl).elim (hforward line) (hforward' line)
  · exact fun line hl g hg => List.mem_append.mpr ((List.mem_append.mp hl).imp
      (hgoals line · g hg) (hgoals' line · g hg))
  · obtain ⟨hplain, halert, hpost⟩ := hrun s hs hp
    rw [follow_append]
    generalize hmid : follow k front { store := s } = p at hplain halert hpost
    obtain ⟨t, _ | target⟩ := p
    · have halert := halert rfl
      obtain ⟨hplain', halert', hpost'⟩ := hrun' t halert (link s t halert hp hpost)
      rw [hcell] at hplain'
      exact ⟨hplain', halert', Or.inl ⟨t, hpost, hpost'⟩⟩
    · have hexit := (exists_exit_of_seeking (p := { store := s }) (by rw [hmid])).resolve_left
        (by simp)
      obtain ⟨line, hline, htarget⟩ := hexit
      have hnot : .label target ∉ back := fun hmem =>
        hfree target (hgoals line hline target htarget) (hnames' ▸ mem_labelsIn.mpr hmem)
      rw [follow_seeking hnot]
      exact ⟨hplain, (fun h => by cases h), Or.inr ⟨t, target, rfl, hpost⟩⟩

/-- Straight lines in front. -/
theorem after {front : Store → Store → Prop} (h : Leads k names goals d' d'' pre' post)
    (h' : Passes k m d d' pre front)
    (link : ∀ s t, Alert k d' t → pre s → front s t → pre' t) :
    Leads k names goals d d'' pre fun s q => ∃ t, front s t ∧ post t q := by
  refine ((of_passes h').trans h (fun g hg => (List.not_mem_nil hg).elim) ?_).imp (fun _ hp => hp) ?_
  · rintro s t halert hp ⟨u, hu, hfront⟩
    obtain rfl : t = u := congrArg Passage.store hu
    exact link s t halert hp hfront
  · rintro s q - - (⟨t, ⟨u, hu, hfront⟩, hq⟩ | ⟨t, target, rfl, u, hu, -⟩)
    · obtain rfl : t = u := congrArg Passage.store hu
      exact ⟨t, hfront, hq⟩
    · cases congrArg Passage.seeking hu

/-- A candidate goes on from the code so far. -/
theorem commit (h : Leads k names goals d.fork d' pre post) :
    Leads k names goals d (d.commit d') pre post := by
  obtain ⟨hcell, lines, hcode, hforward, hnames, hgoals, hrun⟩ := h
  refine ⟨rfl, lines, ?_, hforward, hnames, hgoals, fun s hs hp => ?_⟩
  · change d.code ++ d'.code = _
    rw [hcode]
    rfl
  · obtain ⟨hplain, halert, hpost⟩ := hrun s hs hp
    refine ⟨hplain, fun h => ⟨⟨?_, hplain⟩, (halert h).2⟩, hpost⟩
    have hknows := (halert h).1.1
    rw [hcell] at hknows
    exact hknows

/-- A label behind. -/
theorem landed (h : Leads k names goals d d' pre post) (name : String) :
    Leads k (names ++ [name]) goals d (d'.label name) pre fun s q =>
      ∃ p, post s p ∧ q = land name p := by
  obtain ⟨hcell, lines, hcode, hforward, hnames, hgoals, hrun⟩ := h
  have hfollow : ∀ p, advance k p (.label name) = land name p := by
    intro p
    obtain ⟨t, _ | target⟩ := p
    · rfl
    · simp only [advance, land, Line.label.injEq, Option.some.injEq, eq_comm]
  refine ⟨hcell, lines ++ [Line.label name], ?_, fun line hl => ?_, by rw [labelsIn_append, hnames]; rfl,
    fun line hl g hg => ?_, fun s hs hp => ?_⟩
  · change d'.code ++ [Line.label name] = _
    rw [hcode, List.append_assoc]
  · rcases List.mem_append.mp hl with hl | hl
    · exact hforward line hl
    · obtain rfl := List.mem_singleton.mp hl
      exact .label name
  · rcases List.mem_append.mp hl with hl | hl
    · exact hgoals line hl g hg
    · obtain rfl := List.mem_singleton.mp hl
      cases hg
  · obtain ⟨hplain, halert, hpost⟩ := hrun s hs hp
    rw [follow_append, follow_cons, follow_nil, hfollow]
    have hstore : (land name (follow k lines { store := s })).store =
        (follow k lines { store := s }).store := by
      unfold land
      split <;> rfl
    rw [hstore]
    refine ⟨hplain, fun _ => ⟨⟨knows_nothing, ?_⟩, tells_none⟩, _, hpost, rfl⟩
    change PlainScratch d'.pointerCell _
    rw [hcell]
    exact hplain

end Leads

theorem after_branch {op : Opcode} (h : op.isBranch = true) (known : Knowledge) (cell : UInt8)
    (target : String) : known.after cell (.branch op target) = known := by
  cases op <;> first | rfl | cases h

theorem leads_branch (d : Draft) {op : Opcode} (h : op.isBranch = true) (target : String) :
    Leads k [] [target] d (d.branch op target) (fun _ => True) fun s p =>
      p = { store := s, seeking := if isTaken op s.regs then some target else none } := by
  refine ⟨rfl, [.branch op target], rfl, fun line hl => ?_, rfl, fun line hl g hg => ?_,
    fun s hs _ => ?_⟩
  · obtain rfl := List.mem_singleton.mp hl
    exact .branch target h
  · obtain rfl := List.mem_singleton.mp hl
    rw [exit?_branch h] at hg
    exact List.mem_singleton.mpr (Option.some.inj hg).symm
  · have hfollow : follow k [.branch op target] { store := s } =
        { store := s, seeking := if isTaken op s.regs then some target else none } := by
      simp only [follow_cons, follow_nil, advance, exit?_branch h, leaves_branch h]
    have hknown : (d.branch op target).known = d.known := after_branch h _ _ target
    rw [hfollow]
    refine ⟨hs.1.2, fun _ => ⟨⟨?_, hs.1.2⟩, ?_⟩, rfl⟩
    · rw [hknown]
      exact hs.1.1
    · rw [hknown]
      exact hs.2

theorem leads_jmp (d : Draft) (target : String) :
    Leads k [] [target] d (d.jmp target) (fun _ => True) fun s p =>
      p = { store := s, seeking := some target } := by
  refine ⟨rfl, [.jmp target], rfl, fun line hl => ?_, rfl, fun line hl g hg => ?_,
    fun s hs _ => ⟨hs.1.2, (fun h => by cases h), rfl⟩⟩
  · obtain rfl := List.mem_singleton.mp hl
    exact .jmp target
  · obtain rfl := List.mem_singleton.mp hl
    exact List.mem_singleton.mpr (Option.some.inj hg).symm

/-- Loading a byte for the sake of its flags. -/
theorem passes_lda (d : Draft) {operand : Operand} (h : IsSimple operand) :
    Passes k 0 d (d.op .lda operand) (fun _ => True) fun s t =>
      t = s.setRegs (s.regs.loadA (get s (operandSpot k operand))) := by
  refine ⟨(emits_lda d operand (isSome_encode_lda h)).imp le_rfl (fun _ hp => hp) ?_,
    .op d rfl (sited_of_isByte (show IsByte (.direct operand) from h)) rfl⟩
  rintro s t - - rfl
  rw [value_eq h]

theorem passes_ldaThrough {pointer : PointerPair} (hp : d.known.pointer = some pointer)
    (offset : UInt8) :
    Passes k 0 d (d.op .lda (.indirectY d.pointerCell)) (fun s => s.regs.y = offset) fun s t =>
      t = s.setRegs (s.regs.loadA (get s (spotOf k s (.indirect pointer offset)))) := by
  refine ⟨(emits_lda d _ rfl).imp le_rfl (fun _ _ => trivial) ?_, .op d rfl trivial rfl⟩
  rintro s t hr hy rfl
  simp only [value, effective_indirectY hr hp hy]
  rfl

theorem flags_loadA (r : Registers) (byte : UInt8) :
    (r.loadA byte).flag .z = decide (byte = 0) ∧ (r.loadA byte).flag .n = isNegative byte := by
  rw [Processor.Arithmetic.flag_loadA, Processor.Arithmetic.flag_loadA]
  exact ⟨rfl, rfl⟩

/-- **Testing a byte.**  A test that is left out leaves the flags as they should be all the same. -/
theorem leads_test (d : Draft) {loc : ByteLoc} (hloc : IsByte loc) :
    Leads k [] [] d (d.test loc) (fun s => Outside d.pointerCell (spotOf k s loc)) fun s p =>
      ∃ t, p = { store := t } ∧ Same d.pointerCell everything s t ∧
        t.regs.flag .z = decide (get s (spotOf k s loc) = 0) ∧
        t.regs.flag .n = isNegative (get s (spotOf k s loc)) := by
  cases loc with
  | direct operand =>
    simp only [Draft.test]
    split
    · rename_i hknown
      refine ⟨rfl, [], by simp, by simp, rfl, by simp, fun s hs _ => ?_⟩
      obtain ⟨-, hz, hn⟩ := hs.2 operand (by simpa [Knowledge.flagsDescribe] using hknown)
      rw [value_eq hloc] at hz hn
      exact ⟨hs.1.2, fun _ => hs, s, rfl, Same.refl s, hz, hn⟩
    · refine (Leads.of_passes (passes_lda d hloc)).imp (fun _ _ => trivial) ?_
      rintro s p - - ⟨t, rfl, rfl⟩
      exact ⟨_, rfl, Same.setRegs s _, flags_loadA _ _⟩
  | indirect pointer offset =>
    have hset : Passes k 0 d (d.setPointer pointer) (fun _ => True) fun s t =>
        Same d.pointerCell everything s t :=
      ⟨emits_setPointer d pointer, (grown_setPointer d pointer).imp fun _ => plain_of_moving⟩
    have hy := passes_setY (k := k) (d.setPointer pointer) offset
    have hlda := passes_ldaThrough (k := k) (d := (d.setPointer pointer).setY offset)
      ((pointer_setY _ _).trans (pointer_setPointer d pointer)) offset
    rw [hy.cell, hset.cell] at hlda
    refine (Leads.of_passes ((hset.trans hy fun _ _ _ _ => trivial).trans hlda ?_)).imp
      (fun _ _ => trivial) ?_
    · rintro s u - ⟨t, -, ⟨-, -, hoffset⟩, -⟩
      exact hoffset
    · rintro s p - hout ⟨w, rfl, u, ⟨t, hsame, ⟨hu, -⟩, -⟩, rfl⟩
      have hsu : Same d.pointerCell everything s u := hsame.trans (hu ▸ Same.setRegs t _)
      have hspot : spotOf k u (.indirect pointer offset) = spotOf k s (.indirect pointer offset) :=
        hsu.spotOf ⟨pointer.1.index.toNat_lt, pointer.2.index.toNat_lt⟩
      have hget : get u (spotOf k u (.indirect pointer offset)) =
          get s (spotOf k s (.indirect pointer offset)) := by
        rw [hspot]
        exact hsu.get _ (hout _ rfl)
      rw [hget]
      exact ⟨_, rfl, hsu.trans (Same.setRegs u _), flags_loadA _ _⟩

end Codegen6502.Proofs.Selecting.Courses
