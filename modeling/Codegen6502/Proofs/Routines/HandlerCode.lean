import Codegen6502.Proofs.Calls.HandlerSaves
import Codegen6502.Proofs.Routines.Balance

/-!
# The code of interrupt handlers

What the entry and exit sequences of a handler do, taken by themselves.  A handler that stays masked
keeps what its body overwrites in an area of its own (`acts_saving`, `acts_restoring`); one that
unmasks interrupts keeps it on the stack, with the status (`acts_pushingLines`,
`acts_pullingLines`).

* `Handler.unsaved`: a register that is not saved is overwritten neither by the body nor by the
  sequences;
* `Handler.effect_area`, `Handler.effect_stack`: the room on the stack that the entry sequence
  takes;
* `fits_saving` and the like: the sequences do not unmask interrupts before their time, and write
  only to the zero page, the stack and the save area.
-/

namespace Codegen6502.Proofs.Routines.HandlerCode

open Calls
open Processor.Memory Processor.LineRun Processor.Fetching Processor.Stack Processor.Polling Saving
open SaveScheme (numbered slot)

variable {k : Linkage} {m : Machine}

/-! ### Handlers -/

/-- A handler, with the size of its frame and what its body overwrites. -/
structure Handler where
  binding : Binding
  frame : UInt8
  body : Clobbers
  isHandler : binding.isInterrupt = true

namespace Handler

variable (h : Handler)

/-- What the handler saves. -/
def saves : Clobbers := Convention.interruptSaves h.body h.frame

def opening : Sequence := Convention.prologue h.binding h.frame h.saves

def closing : Sequence := Convention.epilogue h.binding h.frame h.saves

def areaName : String := Naming.saveArea h.binding.name

/-- The bytes of the handler's own save area. -/
def areaSize : ℕ := (Convention.saveAreaSize h.binding h.saves).toNat

/-- Whether the handler is one that stays masked. -/
def StaysMasked : Prop := h.binding.entry = .interrupt

instance : Decidable h.StaysMasked := inferInstanceAs (Decidable (h.binding.entry = .interrupt))

/-- The addresses that the sequences write to: the zero page, the stack and the save area. -/
def Written (k : Linkage) (a : UInt16) : Prop := a.toNat < 0x200 ∨ InSlots k h.areaName 0 h.areaSize a

end Handler

/-! ### What is saved -/

section Sets

variable {h : Handler}

theorem Handler.unsaved {r : Register} (hr : h.saves.containsReg r = false) :
    h.body.containsReg r = false ∧ (r ≠ .y → h.frame = 0) ∧ (r = .a → h.saves.cells.toList = []) := by
  have hnot := Bool.eq_false_iff.mp hr
  rw [Ne, Handler.saves, Calls.HandlerSaves.has_interruptSaves] at hnot
  simp only [not_or, not_and, not_exists] at hnot
  obtain ⟨hbody, hframe, hcells⟩ := hnot
  refine ⟨Bool.eq_false_iff.mpr hbody, fun hy => ?_, fun ha => ?_⟩
  · by_contra hzero
    exact absurd hy (by simpa using hframe (UInt8.pos_iff_ne_zero.mpr hzero))
  · refine List.eq_nil_iff_forall_not_mem.mpr fun cell hcell => hcells ha cell ?_
    rw [Handler.saves, Calls.HandlerSaves.cells_interruptSaves] at hcell
    exact Calls.ClobberSets.mem_toList.mp hcell

theorem Handler.mem_regs {r : Register} : r ∈ h.saves.regs.toList ↔ h.saves.containsReg r = true := by
  unfold RegSet.toList Clobbers.containsReg
  cases r <;> simp [Register.all]

theorem Handler.mem_cells {cell : UInt8} :
    cell ∈ h.saves.cells.toList ↔ h.body.containsCell cell = true := by
  rw [Handler.saves, Calls.HandlerSaves.cells_interruptSaves]
  exact Calls.ClobberSets.mem_toList

/-- A handler that does not stay masked unmasks interrupts. -/
theorem Handler.nested_of_not (hkind : ¬ h.StaysMasked) : h.binding.entry = .nestedInterrupt := by
  have hhandler := h.isHandler
  unfold Binding.isInterrupt at hhandler
  cases hentry : h.binding.entry with
  | subroutine =>
    rw [hentry] at hhandler
    cases hhandler
  | interrupt => exact absurd hentry hkind
  | nestedInterrupt => rfl

end Sets

/-! ### The sequences -/

section Sequences

variable {written : UInt16 → Prop} {name : String}

/-- A line that the sequences may have anywhere: it does not unmask interrupts, and writes where it
may. -/
def Fits (k : Linkage) (written : UInt16 → Prop) (line : Line) : Prop :=
  isSteady line = true ∧ WritesTo k written line

theorem writesTo_bare {op : Opcode} (hop : isPassed (.bare op) = true) :
    WritesTo k written (.bare op) := by
  unfold Line.bare at hop ⊢
  split at hop
  all_goals exact ⟨hop, fun _ _ _ ha => nomatch ha⟩

theorem fits_bare {op : Opcode} (hop : isSteady (.bare op) = true) : Fits k written (.bare op) :=
  ⟨hop, writesTo_bare (isPassed_of_isSteady hop)⟩

theorem fits_byte {op : Opcode} {value : UInt8} (hop : isSteady (.op op (.byte value)) = true) :
    Fits k written (.op op (.byte value)) :=
  ⟨hop, isPassed_of_isSteady hop, fun _ _ _ ha => nomatch ha⟩

theorem fits_cell (hlow : ∀ a : UInt16, a.toNat < 0x200 → written a) {op : Opcode} {cell : UInt8}
    (hop : isSteady (.op op (.zeroPage cell)) = true) : Fits k written (.op op (.zeroPage cell)) := by
  refine ⟨hop, isPassed_of_isSteady hop, fun _ m a ha => hlow a ?_⟩
  cases ha
  have hcell := cell.toNat_lt
  rw [UInt8.toNat_toUInt16]
  omega

theorem fits_slot {op : Opcode} {i : ℕ} (hi : written (slotAt k name i))
    (hop : isSteady (.op op (slot name i)) = true) : Fits k written (.op op (slot name i)) := by
  refine ⟨hop, isPassed_of_isSteady hop, fun _ m a ha => ?_⟩
  cases ha
  exact hi

theorem fits_moveSP {flag op : Opcode} {n : UInt8} (hflag : isSteady (.bare flag) = true)
    (hop : isSteady (.op op (.byte n)) = true) :
    ∀ line ∈ Sequence.moveSP flag op n, Fits k written line := by
  simp only [Sequence.moveSP, List.forall_mem_cons, List.not_mem_nil, false_implies, implies_true,
    and_true]
  exact ⟨fits_bare rfl, fits_bare rfl, fits_bare hflag, fits_byte hop, fits_bare rfl, fits_bare rfl⟩

theorem fits_reserve (n : UInt8) : ∀ line ∈ (Sequence.reserve n).code, Fits k written line := by
  unfold Sequence.reserve
  split
  · exact fun line hline => absurd hline List.not_mem_nil
  · exact fits_moveSP rfl rfl

theorem fits_release (n : UInt8) : ∀ line ∈ (Sequence.release n).code, Fits k written line := by
  unfold Sequence.release
  split
  · exact fun line hline => absurd hline List.not_mem_nil
  · exact fits_moveSP rfl rfl

variable (hlow : ∀ a : UInt16, a.toNat < 0x200 → written a)

theorem fits_storing {s n : ℕ} {regs : List Register}
    (hslots : ∀ i < n, written (slotAt k name i)) (hlen : s + regs.length ≤ n) :
    ∀ line ∈ storing name s regs, Fits k written line := by
  intro line hline
  obtain ⟨⟨i, r⟩, hp, rfl⟩ := List.mem_map.mp hline
  obtain ⟨-, hlt, -⟩ := mem_numbered hp
  exact fits_slot (hslots i (by omega)) (by cases r <;> rfl)

theorem fits_loading {n : ℕ} {places : List (ℕ × Register)}
    (hslots : ∀ i < n, written (slotAt k name i)) (hplaces : ∀ p ∈ places, p.1 < n) :
    ∀ line ∈ loading name places, Fits k written line := by
  intro line hline
  obtain ⟨⟨i, r⟩, hp, rfl⟩ := List.mem_map.mp hline
  exact fits_slot (hslots i (hplaces _ hp)) (by cases r <;> rfl)

include hlow

theorem fits_copying {s n : ℕ} {cells : List UInt8}
    (hslots : ∀ i < n, written (slotAt k name i)) (hlen : s + cells.length ≤ n) :
    (∀ line ∈ copying name s cells, Fits k written line) ∧
      ∀ line ∈ copyingBack name s cells, Fits k written line := by
  refine ⟨fun line hline => ?_, fun line hline => ?_⟩
  all_goals
    obtain ⟨⟨i, cell⟩, hp, hpair⟩ := List.mem_flatMap.mp hline
    obtain ⟨-, hlt, -⟩ := mem_numbered hp
    have hslot := hslots i (by omega)
    rcases List.mem_cons.mp hpair with rfl | hpair
  · exact fits_cell hlow rfl
  · rw [List.mem_singleton.mp hpair]
    exact fits_slot hslot rfl
  · exact fits_slot hslot rfl
  · rw [List.mem_singleton.mp hpair]
    exact fits_cell hlow rfl

theorem fits_pushing (cells : List UInt8) :
    (∀ line ∈ pushing cells, Fits k written line) ∧ ∀ line ∈ pulling cells, Fits k written line := by
  refine ⟨fun line hline => ?_, fun line hline => ?_⟩
  all_goals
    obtain ⟨cell, -, hpair⟩ := List.mem_flatMap.mp hline
    rcases List.mem_cons.mp hpair with rfl | hpair
  · exact fits_cell hlow rfl
  · rw [List.mem_singleton.mp hpair]
    exact fits_bare rfl
  · exact fits_bare rfl
  · rw [List.mem_singleton.mp hpair]
    exact fits_cell hlow rfl

omit hlow in
theorem writesTo_pullingAll : ∀ line ∈ pullingAll, WritesTo k written line := by
  simp only [pullingAll, List.forall_mem_cons, List.not_mem_nil, false_implies, implies_true, and_true]
  exact ⟨writesTo_bare rfl, writesTo_bare rfl, writesTo_bare rfl, writesTo_bare rfl,
    writesTo_bare rfl, writesTo_bare rfl⟩

omit hlow in
theorem fits_pushingAll : ∀ line ∈ pushingAll, Fits k written line := by
  simp only [pushingAll, List.forall_mem_cons, List.not_mem_nil, false_implies, implies_true, and_true]
  exact ⟨fits_bare rfl, fits_bare rfl, fits_bare rfl, fits_bare rfl, fits_bare rfl, fits_bare rfl⟩

end Sequences

/-! ### What is written -/

section Writing

variable {h : Handler}

theorem Handler.low (a : UInt16) (ha : a.toNat < 0x200) : h.Written k a := Or.inl ha

theorem Handler.stackWritten (sp : UInt8) : h.Written k (Machine.stackAddress sp) := by
  have hsp := sp.toNat_lt
  refine Or.inl ?_
  rw [toNat_stackAddress]
  omega

theorem Handler.written_of_inStack {a : UInt16} (ha : InStack a) : h.Written k a := Or.inl ha.2

theorem Handler.slotsWritten (i : ℕ) (hi : i < h.areaSize) :
    h.Written k (slotAt k h.areaName i) := Or.inr ⟨i, by omega, by omega, rfl⟩

/-- What is written is plain memory. -/
theorem plain_written {b : Bus} (hsound : Sound b) (harea : Roomy k h.areaName h.areaSize b)
    (a : UInt16) (ha : h.Written k a) : Plain b a := by
  rcases ha with ha | ⟨i, -, hi, rfl⟩
  · exact hsound.low a ha
  · exact harea.plain i (by omega)

/-- A cell that is not in the body's set is not restored. -/
theorem read_unsaved {b c : Bus} {cell : UInt8} (hsound : Sound b)
    (hkept : Kept (InCells h.saves.cells.toList) b c) (hcell : h.body.containsCell cell = false) :
    c.read cell.toUInt16 = b.read cell.toUInt16 := by
  refine hkept.read ?_ (hsound.plain_cell cell).1
  rintro ⟨saved, hsaved, heq⟩
  rw [UInt8.toUInt16_inj.mp heq, Handler.mem_cells, hcell] at hsaved
  cases hsaved

/-- A frame keeps the registers that need not be saved. -/
theorem Handler.frame_keeps {q : Register} (hq : h.saves.containsReg q = false) {r r' : Registers}
    (hy : r'.y = r.y) (hzero : h.frame = 0 → r' = r) : regValue r' q = regValue r q := by
  obtain ⟨-, hframe, -⟩ := Handler.unsaved hq
  cases q with
  | y => exact hy
  | _ => rw [hzero (hframe nofun)]

/-- Copying the cells keeps the registers that need not be saved. -/
theorem Handler.copy_keeps {q : Register} (hq : h.saves.containsReg q = false) {r r' : Registers}
    (hsame : SameButA r r') (hnone : h.saves.cells.toList = [] → r' = r) :
    regValue r' q = regValue r q := by
  obtain ⟨-, -, hcells⟩ := Handler.unsaved hq
  cases q with
  | a => rw [hnone (hcells rfl)]
  | x => exact hsame.x
  | y => exact hsame.y

end Writing

/-! ### Handlers that stay masked -/

namespace Handler

variable (h : Handler)

/-- The entry sequence of a handler that stays masked, behind its label. -/
def savingLines : List Line :=
  storing h.areaName 0 h.saves.regs.toList ++
    copying h.areaName h.saves.regs.toList.length h.saves.cells.toList ++
    (Sequence.reserve h.frame).code

/-- Its exit sequence, up to the return. -/
def restoringLines : List Line :=
  (Sequence.release h.frame).code ++
    copyingBack h.areaName h.saves.regs.toList.length h.saves.cells.toList ++
    loading h.areaName (numbered 0 h.saves.regs.toList).reverse

end Handler

section Masking

variable {h : Handler} {m₁ m₂ : Machine}

/-- The slots of the save area hold registers and cells. -/
structure Holds (k : Linkage) (h : Handler) (r : Registers) (b c : Bus) : Prop where
  regs : ∀ p ∈ numbered 0 h.saves.regs.toList, c.read (slotAt k h.areaName p.1) = regValue r p.2
  cells : ∀ p ∈ numbered h.saves.regs.toList.length h.saves.cells.toList,
    c.read (slotAt k h.areaName p.1) = b.read p.2.toUInt16

theorem Holds.congr {r r' : Registers} {b b' c : Bus} (hholds : Holds k h r b c)
    (hregs : ∀ q, regValue r q = regValue r' q)
    (hcells : ∀ cell : UInt8, b.read cell.toUInt16 = b'.read cell.toUInt16) : Holds k h r' b' c :=
  ⟨fun p hp => (hholds.regs p hp).trans (hregs p.2),
    fun p hp => (hholds.cells p hp).trans (hcells p.2)⟩

variable (hkind : h.StaysMasked)

include hkind

theorem Handler.areaSize_eq :
    h.areaSize = h.saves.regs.toList.length + h.saves.cells.toList.length := by
  have hregs : h.saves.regs.toList.length ≤ 3 := List.length_filter_le ..
  have hcells : h.saves.cells.toList.length ≤ 256 :=
    (List.length_filter_le ..).trans (by simp [CellSet.everyByte])
  have hsize : Convention.saveAreaSize h.binding h.saves =
      UInt16.ofNat (h.saves.regs.toList.length + h.saves.cells.toList.length) := by
    unfold Convention.saveAreaSize
    rw [show h.binding.entry = .interrupt from hkind]
    rfl
  unfold Handler.areaSize
  rw [hsize, UInt16.toNat_ofNat']
  omega

theorem Handler.opening_area : h.opening.code = .label h.binding.name :: h.savingLines := by
  unfold Handler.opening Convention.prologue
  rw [show h.binding.entry = .interrupt from hkind]
  rfl

theorem Handler.closing_area : h.closing.code = h.restoringLines ++ [Line.bare .rti] := by
  have hrestoring : (SaveScheme.inArea h.binding.name h.saves).epilogue.code =
      copyingBack h.areaName h.saves.regs.toList.length h.saves.cells.toList ++
        loading h.areaName (numbered 0 h.saves.regs.toList).reverse ++ [Line.bare .rti] := rfl
  unfold Handler.closing Convention.epilogue Handler.restoringLines
  rw [show h.binding.entry = .interrupt from hkind]
  simp only [Emitted.code_append, hrestoring, List.append_assoc]

theorem Handler.effect_area : h.opening.stackEffect = h.frame.toNat := by
  unfold Handler.opening
  rw [Balance.effect_prologue, Balance.taken, Balance.pushedFor,
    show h.binding.entry = .interrupt from hkind]
  exact congrArg _ (Nat.zero_add _)

theorem fits_saving : ∀ line ∈ h.savingLines, Fits k (h.Written k) line := by
  have hsize := h.areaSize_eq hkind
  intro line hline
  rcases List.mem_append.mp hline with hline | hline
  · rcases List.mem_append.mp hline with hline | hline
    · exact fits_storing Handler.slotsWritten (by omega) line hline
    · exact (fits_copying Handler.low Handler.slotsWritten (by omega)).1 line hline
  · exact fits_reserve _ line hline

theorem fits_restoring : ∀ line ∈ h.restoringLines, Fits k (h.Written k) line := by
  have hsize := h.areaSize_eq hkind
  intro line hline
  rcases List.mem_append.mp hline with hline | hline
  · rcases List.mem_append.mp hline with hline | hline
    · exact fits_release _ line hline
    · exact (fits_copying Handler.low Handler.slotsWritten (by omega)).2 line hline
  · refine fits_loading Handler.slotsWritten (fun p hp => ?_) line hline
    obtain ⟨-, hlt, -⟩ := mem_numbered (List.mem_reverse.mp hp)
    omega

/-- **Everything is saved.** -/
theorem acts_saving (hsound : Sound m.bus) (harea : Roomy k h.areaName h.areaSize m.bus) :
    (acts k h.savingLines m).regs.sp = m.regs.sp - h.frame ∧
      (∀ q, h.saves.containsReg q = false →
        regValue (acts k h.savingLines m).regs q = regValue m.regs q) ∧
      Kept (InSlots k h.areaName 0 h.areaSize) m.bus (acts k h.savingLines m).bus ∧
      Holds k h m.regs m.bus (acts k h.savingLines m).bus := by
  have hsize := h.areaSize_eq hkind
  obtain ⟨hregs, hkept, hstored⟩ := acts_storing (k := k) harea
    (show 0 + h.saves.regs.toList.length ≤ h.areaSize by omega)
  have hacts : acts k h.savingLines m = acts k (Sequence.reserve h.frame).code
      (acts k (copying h.areaName h.saves.regs.toList.length h.saves.cells.toList)
        (acts k (storing h.areaName 0 h.saves.regs.toList) m)) := by
    unfold Handler.savingLines
    rw [acts_append, acts_append]
  rw [hacts]
  generalize acts k (storing h.areaName 0 h.saves.regs.toList) m = u at hregs hkept hstored
  have hroomy := harea.kept hkept
  obtain ⟨hsame, hkept', hcopied⟩ := acts_copying (m := u) (hkept.sound hsound) hroomy
    (show h.saves.regs.toList.length + h.saves.cells.toList.length ≤ h.areaSize by omega)
  have hnone : h.saves.cells.toList = [] →
      (acts k (copying h.areaName h.saves.regs.toList.length h.saves.cells.toList) u).regs =
        u.regs := by
    intro hnil
    rw [hnil]
    rfl
  generalize acts k (copying h.areaName h.saves.regs.toList.length h.saves.cells.toList) u = w
    at hsame hkept' hcopied hnone
  obtain ⟨r, hreserve, hsp, hy, hzero⟩ := acts_reserve (k := k) h.frame w
  rw [hreserve]
  refine ⟨?_, fun q hq => ?_, ?_, fun p hp => ?_, fun p hp => ?_⟩
  · rw [← hregs, ← hsame.sp]
    exact hsp
  · rw [← hregs, ← Handler.copy_keeps hq hsame hnone]
    exact Handler.frame_keeps hq hy hzero
  · exact (hkept.mono fun a => inSlots_mono (by omega) (by omega)).trans
      (hkept'.mono fun a => inSlots_mono (by omega) (by omega))
  · obtain ⟨-, hlt, -⟩ := mem_numbered hp
    rw [← hstored p hp]
    exact hroomy.read hkept' (by omega) (by omega) (by omega)
  · rw [hcopied p hp]
    exact harea.read_cell hsound hkept (by omega) p.2

/-- **Everything is restored.** -/
theorem acts_restoring (hsound : Sound m.bus) (harea : Roomy k h.areaName h.areaSize m.bus)
    {r : Registers} {b : Bus} (hholds : Holds k h r b m.bus) :
    (acts k h.restoringLines m).regs.sp = m.regs.sp + h.frame ∧
      (∀ q, h.saves.containsReg q = true →
        regValue (acts k h.restoringLines m).regs q = regValue r q) ∧
      (∀ q, h.saves.containsReg q = false →
        regValue (acts k h.restoringLines m).regs q = regValue m.regs q) ∧
      Kept (InCells h.saves.cells.toList) m.bus (acts k h.restoringLines m).bus ∧
      ∀ cell ∈ h.saves.cells.toList,
        (acts k h.restoringLines m).bus.read cell.toUInt16 = b.read cell.toUInt16 := by
  have hsize := h.areaSize_eq hkind
  obtain ⟨r', hrelease, hsp, hy, hzero⟩ := acts_release (k := k) h.frame m
  have hacts : acts k h.restoringLines m =
      acts k (loading h.areaName (numbered 0 h.saves.regs.toList).reverse)
        (acts k (copyingBack h.areaName h.saves.regs.toList.length h.saves.cells.toList)
          { m with regs := r' }) := by
    unfold Handler.restoringLines
    rw [acts_append, acts_append, hrelease]
  rw [hacts]
  obtain ⟨hsame, hkept, hcells⟩ := acts_copyingBack (m := { m with regs := r' })
    (fun cell => b.read cell.toUInt16) hsound harea
    (show h.saves.regs.toList.length + h.saves.cells.toList.length ≤ h.areaSize by omega) hholds.cells
  have hnone : h.saves.cells.toList = [] →
      (acts k (copyingBack h.areaName h.saves.regs.toList.length h.saves.cells.toList)
        { m with regs := r' }).regs = r' := by
    intro hnil
    rw [hnil]
    rfl
  generalize acts k (copyingBack h.areaName h.saves.regs.toList.length h.saves.cells.toList)
    { m with regs := r' } = u at hsame hkept hcells hnone
  have hslots : ∀ p ∈ (numbered 0 h.saves.regs.toList).reverse,
      u.bus.read (slotAt k h.areaName p.1) = regValue r p.2 := by
    intro p hp
    have hmem := List.mem_reverse.mp hp
    obtain ⟨-, hlt, -⟩ := mem_numbered hmem
    rw [← hholds.regs p hmem]
    refine hkept.read ?_ (harea.plain p.1 (by omega)).1
    rintro ⟨cell, -, heq⟩
    exact harea.ne_cell (by omega) cell heq.symm
  obtain ⟨hbus, hsp', hloaded, hothers⟩ := acts_loading (m := u) (regValue r) hslots
  rw [hbus]
  refine ⟨hsp'.trans (hsame.sp.trans hsp), fun q hq => ?_, fun q hq => ?_, hkept, hcells⟩
  · obtain ⟨i, hi⟩ := exists_numbered (Handler.mem_regs.mpr hq) 0
    exact hloaded _ (List.mem_reverse.mpr hi)
  · rw [hothers q, Handler.copy_keeps hq hsame hnone]
    · exact Handler.frame_keeps hq hy hzero
    · rintro p hp rfl
      obtain ⟨-, -, hmem⟩ := mem_numbered (List.mem_reverse.mp hp)
      rw [Handler.mem_regs.mp hmem] at hq
      cases hq

/-- The slots still hold what they held. -/
theorem Holds.slots {r : Registers} {b c c' : Bus} (hholds : Holds k h r b c)
    (hslots : ∀ i < h.areaSize, c'.read (slotAt k h.areaName i) = c.read (slotAt k h.areaName i)) :
    Holds k h r b c' := by
  have hsize := h.areaSize_eq hkind
  refine ⟨fun p hp => ?_, fun p hp => ?_⟩
  · obtain ⟨-, hlt, -⟩ := mem_numbered hp
    rw [hslots p.1 (by omega)]
    exact hholds.regs p hp
  · obtain ⟨-, hlt, -⟩ := mem_numbered hp
    rw [hslots p.1 (by omega)]
    exact hholds.cells p hp

end Masking

/-! ### Handlers that unmask interrupts -/

namespace Handler

variable (h : Handler)

/-- The entry sequence of a handler that unmasks interrupts, from behind its label up to there. -/
def pushingLines : List Line :=
  pushingAll ++ pushing h.saves.cells.toList ++ (Sequence.reserve h.frame).code

/-- Its exit sequence, from where interrupts are masked up to the return. -/
def pullingLines : List Line :=
  (Sequence.release h.frame).code ++ pulling h.saves.cells.toList.reverse ++ pullingAll

end Handler

section Unmasking

variable {h : Handler} {m₁ m₂ : Machine}

theorem fits_pushingLines : ∀ line ∈ h.pushingLines, Fits k (h.Written k) line := by
  intro line hline
  rcases List.mem_append.mp hline with hline | hline
  · rcases List.mem_append.mp hline with hline | hline
    · exact fits_pushingAll line hline
    · exact (fits_pushing Handler.low _).1 line hline
  · exact fits_reserve _ line hline

/-- Interrupts are unmasked. -/
theorem acts_cli (lines : List Line) (m : Machine) :
    (acts k (lines ++ [Line.bare .cli]) m).bus = (acts k lines m).bus ∧
      (acts k (lines ++ [Line.bare .cli]) m).regs.sp = (acts k lines m).regs.sp ∧
      (acts k (lines ++ [Line.bare .cli]) m).regs.flag .i = false := by
  rw [acts_append]
  generalize acts k lines m = u
  exact ⟨rfl, rfl, (flag_setFlag u.regs .i .i false).trans (if_pos rfl)⟩

/-- **Everything is pushed.** -/
theorem acts_pushingLines (hsound : Sound m.bus)
    (hroom : 4 + h.saves.cells.toList.length ≤ m.regs.sp.toNat) :
    above (acts k h.pushingLines m).bus ((acts k h.pushingLines m).regs.sp + h.frame) =
        (h.saves.cells.toList.map fun cell => m.bus.read cell.toUInt16).reverse ++
          (m.regs.y :: m.regs.x :: m.regs.a :: m.regs.pushedStatus :: stack m) ∧
      ((acts k h.pushingLines m).regs.sp + h.frame).toNat =
        m.regs.sp.toNat - (4 + h.saves.cells.toList.length) ∧
      Kept InStack m.bus (acts k h.pushingLines m).bus := by
  obtain ⟨hstack, hsp, hkept⟩ := acts_pushingAll (k := k) hsound (by omega)
  obtain ⟨hstack', hkept'⟩ := acts_pushing (k := k) (m := acts k pushingAll m) (hkept.sound hsound)
    (show h.saves.cells.toList.length ≤ (acts k pushingAll m).regs.sp.toNat by omega)
  obtain ⟨r, hreserve, hrsp, -, -⟩ := acts_reserve (k := k) h.frame
    (acts k (pushing h.saves.cells.toList) (acts k pushingAll m))
  have hacts : acts k h.pushingLines m =
      { acts k (pushing h.saves.cells.toList) (acts k pushingAll m) with regs := r } := by
    unfold Handler.pushingLines
    rw [acts_append, acts_append, hreserve]
  have hcells : (h.saves.cells.toList.map fun cell =>
      (acts k pushingAll m).bus.read cell.toUInt16) =
      h.saves.cells.toList.map fun cell => m.bus.read cell.toUInt16 :=
    List.map_congr_left fun cell _ => read_cell_of_kept hsound hkept cell
  rw [hcells, hstack] at hstack'
  generalize acts k (pushing h.saves.cells.toList) (acts k pushingAll m) = u at *
  have htop : r.sp + h.frame = u.regs.sp := by rw [hrsp, UInt8.sub_add_cancel]
  have hlength := congrArg List.length hstack'
  have hu := u.regs.sp.toNat_lt
  have hm := m.regs.sp.toNat_lt
  simp only [stack, length_above, List.length_append, List.length_reverse, List.length_map,
    List.length_cons, List.length_nil] at hlength
  rw [hacts]
  refine ⟨?_, ?_, hkept.trans hkept'⟩
  · rw [htop]
    exact hstack'
  · rw [htop]
    omega

theorem fits_pullingCells :
    ∀ line ∈ (Sequence.release h.frame).code ++ pulling h.saves.cells.toList.reverse,
      Fits k (h.Written k) line := by
  intro line hline
  rcases List.mem_append.mp hline with hline | hline
  · exact fits_release _ line hline
  · exact (fits_pushing Handler.low _).2 line hline

/-- The status is pulled last, so that interrupts might be unmasked by it. -/
theorem masked_pullingAll (h : m.regs.flag .i = true) : Masked k pullingAll m := by
  have hsteady : ∀ line ∈ [Line.bare .pla, .bare .tay, .bare .pla, .bare .tax, .bare .pla],
      isSteady line = true := by decide
  obtain ⟨hfront, hmask⟩ := masked_of_steady (k := k) hsteady h
  exact masked_append hfront ⟨hmask, trivial⟩

/-- **Everything is pulled.** -/
theorem acts_pullingLines (hsound : Sound m.bus) (v : UInt8 → UInt8) {y x a p : UInt8}
    {bytes : List UInt8} (hstack : above m.bus (m.regs.sp + h.frame) =
      (h.saves.cells.toList.map v).reverse ++ (y :: x :: a :: p :: bytes))
    (hmask : m.regs.flag .i = true) :
    stack (acts k h.pullingLines m) = bytes ∧ (acts k h.pullingLines m).regs.a = a ∧
      (acts k h.pullingLines m).regs.x = x ∧ (acts k h.pullingLines m).regs.y = y ∧
      (acts k h.pullingLines m).regs.p = Registers.pulledStatus p ∧
      Kept (InCells h.saves.cells.toList) m.bus (acts k h.pullingLines m).bus ∧
      (∀ cell ∈ h.saves.cells.toList,
        (acts k h.pullingLines m).bus.read cell.toUInt16 = v cell) ∧
      Masked k h.pullingLines m := by
  obtain ⟨r, hrelease, hsp, -, -⟩ := acts_release (k := k) h.frame m
  have hstack' : stack { m with regs := r } =
      h.saves.cells.toList.reverse.map v ++ (y :: x :: a :: p :: bytes) := by
    rw [List.map_reverse, ← hstack, ← hsp]
    rfl
  obtain ⟨hrest, hkept, hread⟩ := acts_pulling (k := k) (m := { m with regs := r }) v hsound hstack'
  obtain ⟨hlast, hbus, ha, hx, hy, hp⟩ := acts_pullingAll (k := k) hrest
  have hacts : acts k h.pullingLines m = acts k pullingAll
      (acts k (pulling h.saves.cells.toList.reverse) { m with regs := r }) := by
    unfold Handler.pullingLines
    rw [acts_append, acts_append, hrelease]
  have hfits : ∀ line ∈ (Sequence.release h.frame).code ++ pulling h.saves.cells.toList.reverse,
      Fits k (h.Written k) line := fits_pullingCells
  obtain ⟨hmasked, hmask'⟩ := masked_of_steady (k := k) (fun line hline => (hfits line hline).1) hmask
  rw [hacts, hbus]
  refine ⟨hlast, ha, hx, hy, hp, hkept.mono ?_, fun cell hcell => ?_,
    masked_append hmasked (masked_pullingAll hmask')⟩
  · rintro e ⟨cell, hcell, rfl⟩
    exact ⟨cell, List.mem_reverse.mp hcell, rfl⟩
  · exact hread cell (List.mem_reverse.mpr hcell)

variable (hkind : ¬ h.StaysMasked)

include hkind

theorem Handler.opening_stack :
    h.opening.code = .label h.binding.name :: (h.pushingLines ++ [Line.bare .cli]) := by
  unfold Handler.opening Convention.prologue
  rw [h.nested_of_not hkind]
  rfl

theorem Handler.closing_stack :
    h.closing.code = .bare .sei :: (h.pullingLines ++ [Line.bare .rti]) := by
  have hpulling : (SaveScheme.onStack h.saves).epilogue.code =
      pulling h.saves.cells.toList.reverse ++ (pullingAll ++ [Line.bare .rti]) := rfl
  unfold Handler.closing Convention.epilogue Handler.pullingLines
  rw [h.nested_of_not hkind]
  simp only [Emitted.code_append, Emitted.code_ofLines, hpulling, List.append_assoc]
  rfl

theorem Handler.effect_stack :
    h.opening.stackEffect = 4 + h.saves.cells.toList.length + h.frame.toNat := by
  unfold Handler.opening
  rw [Balance.effect_prologue, Balance.taken, Balance.pushedFor, h.nested_of_not hkind]
  simp only [SaveScheme.onStack, Balance.pushes, Nat.cast_add, Nat.cast_ofNat]

end Unmasking

end Codegen6502.Proofs.Routines.HandlerCode
