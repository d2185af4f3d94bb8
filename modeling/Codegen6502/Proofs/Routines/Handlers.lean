import Codegen6502.Proofs.Routines.HandlerCode
import Codegen6502.Proofs.Routines.Handover

/-!
# Interrupt handlers

A handler is entered when an interrupt is taken.  Its entry sequence saves what its body overwrites,
the body runs, and the exit sequence restores what was saved and resumes the interrupted program.  A
handler that has unmasked interrupts may be interrupted itself, by another handler or by itself, and
so on.

* `Enters`, `Opened`, `Finishes`, `Resumed`: the four points of this;
* `Respects`: what a stretch of a body's own code leaves alone;
* `Course`: what may happen between the first and the last instruction of a body;
* `opens_area`, `closes_area`, `opens_stack`, `closes_stack`: the sequences of the two kinds of
  handlers are run without an interruption;
* `Course.respects`: a handler that has run to completion is, for the handler that it has
  interrupted, a stretch of code that leaves everything alone; the induction is on the course;
* `handler_transparent`: the interrupted program does not notice.
-/

namespace Codegen6502.Proofs.Routines.Handlers

open Processor.Memory Processor.LineRun Processor.Fetching Processor.Stack Processor.Polling
open Saving HandlerCode

variable {k : Linkage} {m m' : Machine}

/-! ### The points of a handler's run -/

/-- The instructions among some lines. -/
def instructions (lines : List Line) : ℕ := lines.countP fun line =>
  match line with
  | .op _ _ => true
  | _ => false

/-- An interrupt is due whose handler stands in memory, and there is room on the stack. -/
structure Enters (k : Linkage) (h : Handler) (m : Machine) : Prop where
  due : ∃ request waiting, m.pending = request :: waiting ∧ request.atStep ≤ m.steps ∧
    request.handler = k.symbol h.binding.name
  clear : m.regs.flag .i = false
  room : 3 + h.opening.stackEffect ≤ (m.regs.sp.toNat : ℤ)
  sound : Sound m.bus
  area : Roomy k h.areaName h.areaSize m.bus
  code : Lies k (fun a => ¬ h.Written k a) m.bus.read (k.symbol h.binding.name) h.opening.code

/-- The interrupted program goes on: every register, the zero page and the stack are as before. -/
structure Resumed (m m' : Machine) : Prop where
  regs : m'.regs = m.regs
  cells : ∀ cell : UInt8, m'.bus.read cell.toUInt16 = m.bus.read cell.toUInt16
  stack : ∀ i, m.regs.sp < i →
    m'.bus.read (Machine.stackAddress i) = m.bus.read (Machine.stackAddress i)

/-- The body of a handler is about to begin: the frame is reserved, interrupts are masked or not as
the handler is, and the zero page is as it was. -/
structure Opened (k : Linkage) (h : Handler) (m m' : Machine) : Prop where
  pc : m'.regs.pc = k.symbol h.binding.name + extent h.opening.code
  sp : (m'.regs.sp.toNat : ℤ) = m.regs.sp.toNat - (3 + h.opening.stackEffect)
  mask : m'.regs.flag .i = true ↔ h.StaysMasked
  waiting : m'.pending = m.pending.tail
  kept : Kept (h.Written k) m.bus m'.bus
  cells : ∀ cell : UInt8, m'.bus.read cell.toUInt16 = m.bus.read cell.toUInt16

/-- **What a stretch of a body's own code leaves alone**: of A, X, Y and the zero page what is not
in the body's set, and the stack above the frame.  A handler that is to stay masked does so, and
leaves its save area alone. -/
structure Respects (k : Linkage) (h : Handler) (top : UInt8) (m m' : Machine) : Prop where
  regs : ∀ r, h.body.containsReg r = false → regValue m'.regs r = regValue m.regs r
  cells : ∀ cell, h.body.containsCell cell = false →
    m'.bus.read cell.toUInt16 = m.bus.read cell.toUInt16
  stack : ∀ i, top < i → m'.bus.read (Machine.stackAddress i) = m.bus.read (Machine.stackAddress i)
  mask : h.StaysMasked → m.regs.flag .i = true → m'.regs.flag .i = true
  area : h.StaysMasked → ∀ i < h.areaSize,
    m'.bus.read (slotAt k h.areaName i) = m.bus.read (slotAt k h.areaName i)

/-- A body has come to its end: the stack pointer is where it was, and the exit sequence comes
next. -/
structure Finishes (k : Linkage) (h : Handler) (m m' : Machine) : Prop where
  sp : m'.regs.sp = m.regs.sp
  code : Lies k (fun a => ¬ h.Written k a) m'.bus.read m'.regs.pc h.closing.code
  /-- No interrupt is taken any more. -/
  quiet : ¬ h.StaysMasked → m'.pollInterrupt = m'

/-- **The course of a handler's body**: stretches of its own code and, in a handler that has
unmasked interrupts, handlers that are entered and run to completion. -/
inductive Course (k : Linkage) : Handler → UInt8 → Machine → Machine → Prop
  | done {h : Handler} {top : UInt8} {m : Machine} : Course k h top m m
  | own {h : Handler} {top : UInt8} {m m₁ m₂ : Machine} {n : ℕ} (run : after n m = some m₁)
    (respects : Respects k h top m m₁) (rest : Course k h top m₁ m₂) : Course k h top m m₂
  | nested {h inner : Handler} {top : UInt8} {m m₁ m₂ m₃ m₄ : Machine} (unmasked : ¬ h.StaysMasked)
    (below : m.regs.sp ≤ top) (enters : Enters k inner m)
    (opened : beats (instructions inner.opening.code) m.pollInterrupt = some m₁)
    (body : Course k inner (m₁.regs.sp + inner.frame) m₁ m₂) (finishes : Finishes k inner m₁ m₂)
    (closed : beats (instructions inner.closing.code) m₂ = some m₃)
    (rest : Course k h top m₃ m₄) : Course k h top m m₄

/-! ### Entering and leaving -/

section Running

variable {h : Handler} {lines rest : List Line} {n : ℕ}

theorem instructions_of_passed (hpassed : ∀ line ∈ lines, isPassed line = true) :
    instructions lines = lines.length := by
  refine List.countP_eq_length.mpr fun line hline => ?_
  have hone := hpassed line hline
  cases line with
  | op op operand => rfl
  | _ => cases hone

theorem instructions_label {name : String} (hpassed : ∀ line ∈ lines, isPassed line = true) :
    instructions (.label name :: lines) = lines.length := by
  rw [← instructions_of_passed hpassed]
  rfl

theorem instructions_append (hpassed : ∀ line ∈ lines, isPassed line = true) :
    instructions (lines ++ rest) = lines.length + instructions rest := by
  rw [← instructions_of_passed hpassed]
  exact List.countP_append

theorem extent_label (name : String) (lines : List Line) :
    extent (.label name :: lines) = extent lines := UInt16.zero_add _

theorem regValue_ran (lines : List Line) (m : Machine) (r : Register) :
    regValue (ran k lines m).regs r = regValue (acts k lines m).regs r := by
  cases r <;> rfl

theorem flag_ran (lines : List Line) (m : Machine) (f : Flag) :
    (ran k lines m).regs.flag f = (acts k lines m).regs.flag f := rfl

theorem sp_ran (lines : List Line) (m : Machine) :
    (ran k lines m).regs.sp = (acts k lines m).regs.sp := rfl

/-- Lines that write where the sequences do leave the code alone. -/
theorem keeps_lines (hsound : Sound m.bus) (harea : Roomy k h.areaName h.areaSize m.bus)
    (hwrites : ∀ line ∈ lines, WritesTo k (h.Written k) line) :
    Kept (h.Written k) m.bus (acts k lines m).bus ∧ Spares k (fun a => ¬ h.Written k a) lines m :=
  kept_acts Handler.stackWritten (fun _ ha => ha) (plain_written hsound harea) hwrites

/-- Lines of the sequences, from a point at which interrupts are masked. -/
theorem runs_lines (hsound : Sound m.bus) (harea : Roomy k h.areaName h.areaSize m.bus)
    (hlies : Lies k (fun a => ¬ h.Written k a) m.bus.read m.regs.pc (lines ++ rest))
    (hwrites : ∀ line ∈ lines, WritesTo k (h.Written k) line)
    (hpassed : ∀ line ∈ lines, isPassed line = true) (hmasked : Masked k lines m) :
    beats lines.length m = some (ran k lines m) ∧
      Lies k (fun a => ¬ h.Written k a) (ran k lines m).bus.read (ran k lines m).regs.pc rest ∧
      Kept (h.Written k) m.bus (acts k lines m).bus := by
  obtain ⟨hkept, hspares⟩ := keeps_lines hsound harea hwrites
  obtain ⟨hbeats, hrest⟩ := beats_lines hlies hpassed hspares hmasked
  exact ⟨hbeats, hrest, hkept⟩

/-- What holds once the interrupt has been taken. -/
structure Taken (k : Linkage) (h : Handler) (m m' : Machine) : Prop where
  a : m'.regs.a = m.regs.a
  x : m'.regs.x = m.regs.x
  y : m'.regs.y = m.regs.y
  pc : m'.regs.pc = k.symbol h.binding.name
  mask : m'.regs.flag .i = true
  sp : m'.regs.sp.toNat = m.regs.sp.toNat - 3
  stack : stack m' = resumption m.regs ++ stack m
  waiting : m'.pending = m.pending.tail
  kept : Kept InStack m.bus m'.bus
  code : Lies k (fun a => ¬ h.Written k a) m'.bus.read m'.regs.pc h.opening.code

theorem Taken.regs {h : Handler} (htaken : Taken k h m m') (r : Register) :
    regValue m'.regs r = regValue m.regs r := by
  cases r with
  | a => exact htaken.a
  | x => exact htaken.x
  | y => exact htaken.y

theorem length_resumption (r : Registers) : (resumption r).length = 3 := rfl

theorem Enters.taken (hentry : Enters k h m) (heffect : 0 ≤ h.opening.stackEffect) :
    Taken k h m m.pollInterrupt := by
  obtain ⟨request, waiting, hpending, hdue, hhandler⟩ := hentry.due
  have hroom := hentry.room
  obtain ⟨hregs, hstack, hwaiting⟩ := poll_taken hentry.sound hpending hdue hentry.clear (by omega)
  have hpc : m.pollInterrupt.regs.pc = k.symbol h.binding.name := by
    rw [hregs]
    exact hhandler
  refine ⟨by rw [hregs]; rfl, by rw [hregs]; rfl, by rw [hregs]; rfl, hpc, ?_, ?_, hstack,
    by rw [hwaiting, hpending]; rfl, kept_poll inStack_stackAddress m, ?_⟩
  · rw [hregs]
    exact (flag_setFlag m.regs .i .i true).trans (if_pos rfl)
  · have hlength := congrArg List.length hstack
    have hsp := m.regs.sp.toNat_lt
    have hsp' := m.pollInterrupt.regs.sp.toNat_lt
    rw [List.length_append, length_resumption, stack, stack, length_above, length_above] at hlength
    omega
  · rw [hpc]
    refine hentry.code.congr fun a ha => ⟨ha, read_poll hentry.sound fun sp heq => ha ?_⟩
    rw [← heq]
    exact Handler.stackWritten sp

/-- **The entry sequence** is run without an interruption. -/
theorem Enters.opens {q : Machine} (hentry : Enters k h m) (htaken : Taken k h m q)
    (hcode : h.opening.code = .label h.binding.name :: lines)
    (hwrites : ∀ line ∈ lines, WritesTo k (h.Written k) line)
    (hpassed : ∀ line ∈ lines, isPassed line = true) (hmasked : Masked k lines q)
    (hsp : ((acts k lines q).regs.sp.toNat : ℤ) = m.regs.sp.toNat - (3 + h.opening.stackEffect))
    (hmask : (acts k lines q).regs.flag .i = true ↔ h.StaysMasked)
    (hcells : ∀ cell : UInt8, (acts k lines q).bus.read cell.toUInt16 = q.bus.read cell.toUInt16) :
    beats (instructions h.opening.code) q = some (ran k lines q) ∧ Opened k h m (ran k lines q) := by
  have hlies := htaken.code
  rw [hcode] at hlies
  have hlies' : Lies k (fun a => ¬ h.Written k a) q.bus.read q.regs.pc (lines ++ []) := by
    rw [List.append_nil]
    exact hlies.2
  obtain ⟨hbeats, -, hkept⟩ := runs_lines (htaken.kept.sound hentry.sound)
    (hentry.area.kept htaken.kept) hlies' hwrites hpassed hmasked
  refine ⟨?_, ?_, ?_, ?_, ?_, ?_, fun cell => ?_⟩
  · rw [hcode, instructions_label hpassed]
    exact hbeats
  · rw [pc_ran, htaken.pc, hcode, extent_label]
  · rw [sp_ran]
    exact hsp
  · rw [flag_ran]
    exact hmask
  · rw [← htaken.waiting]
    exact pending_acts hpassed
  · rw [bus_ran]
    exact (htaken.kept.mono fun a => Handler.written_of_inStack).trans hkept
  · rw [bus_ran, hcells cell]
    exact read_cell_of_kept hentry.sound htaken.kept cell

theorem regs_ext {r r' : Registers} (hvalue : ∀ q, regValue r q = regValue r' q) (hsp : r.sp = r'.sp)
    (hp : r.p = r'.p) (hpc : r.pc = r'.pc) : r = r' := by
  have ha : r.a = r'.a := hvalue .a
  have hx : r.x = r'.x := hvalue .x
  have hy : r.y = r'.y := hvalue .y
  cases r
  cases r'
  simp_all

/-- A handler that has come to the end of its body finds on the stack what was there at its
start. -/
theorem Respects.above {m₁ m₂ : Machine} (h' : Respects k h (m₁.regs.sp + h.frame) m₁ m₂)
    (hsp : m₂.regs.sp = m₁.regs.sp) :
    above m₂.bus (m₂.regs.sp + h.frame) = above m₁.bus (m₁.regs.sp + h.frame) := by
  rw [hsp]
  exact above_congr fun i hi => h'.stack i hi

/-- **The interrupted program goes on** if the stack, the registers and the zero page are as
before. -/
theorem resumed_of_stack {m₃ : Machine} (hstack : stack m₃ = stack m)
    (hregs : m₃.regs = m.regs)
    (hcells : ∀ cell : UInt8, m₃.bus.read cell.toUInt16 = m.bus.read cell.toUInt16) :
    Resumed m m₃ := by
  refine ⟨hregs, hcells, fun i hi => Handover.read_of_above ?_ hi⟩
  rw [stack, hregs] at hstack
  exact hstack

/-- The end of the exit sequence: the return from the interrupt. -/
theorem runs_rti {area : UInt16 → Prop} (hordinary : Ordinary m.regs) {u : Machine}
    (hlies : Lies k area u.bus.read u.regs.pc [.bare .rti]) (hmask : u.regs.flag .i = true)
    (hstack : stack u = resumption m.regs ++ stack m)
    (hregs : ∀ q, regValue u.regs q = regValue m.regs q)
    (hcells : ∀ cell : UInt8, u.bus.read cell.toUInt16 = m.bus.read cell.toUInt16) :
    ∃ m₃, beats 1 u = some m₃ ∧ m₃.bus = u.bus ∧ Resumed m m₃ := by
  obtain ⟨m₃, hstep, hrest, hbus, hregs₃⟩ := step_rti hlies hstack
  refine ⟨m₃, beats_one (beat_step (poll_masked hmask) hstep), hbus,
    resumed_of_stack hrest (regs_ext (fun q => ?_) (sp_of_stack hrest) ?_ ?_) ?_⟩
  · rw [hregs₃, ← hregs q]
    cases q <;> rfl
  · rw [hregs₃]
    exact pulledStatus_ordinary hordinary
  · rw [hregs₃]
  · rw [hbus]
    exact hcells

end Running

/-! ### Handlers that stay masked -/

section Masking

variable {h : Handler} {m₁ m₂ : Machine} (hkind : h.StaysMasked)

include hkind

/-- What a handler that stays masked has saved, and that it is masked. -/
structure SavedInArea (k : Linkage) (h : Handler) (m m' : Machine) : Prop where
  mask : m'.regs.flag .i = true
  stack : above m'.bus (m'.regs.sp + h.frame) = resumption m.regs ++ stack m
  regs : ∀ r, h.saves.containsReg r = false → regValue m'.regs r = regValue m.regs r
  holds : Holds k h m.regs m.bus m'.bus

/-- **The entry sequence** of a handler that stays masked. -/
theorem opens_area (hentry : Enters k h m) :
    ∃ m₁, beats (instructions h.opening.code) m.pollInterrupt = some m₁ ∧ Opened k h m m₁ ∧
      SavedInArea k h m m₁ := by
  have heffect := h.effect_area hkind
  have hroom := hentry.room
  have htaken := hentry.taken (by omega)
  generalize m.pollInterrupt = q at htaken
  have hsound := htaken.kept.sound hentry.sound
  have harea := hentry.area.kept htaken.kept
  have hfits := fits_saving (k := k) hkind
  obtain ⟨hmasked, hmask⟩ := masked_of_steady (k := k) (fun line hline => (hfits line hline).1)
    htaken.mask
  obtain ⟨hsp, hregs, hslots, hholds⟩ := acts_saving hkind hsound harea
  have hle : h.frame.toNat ≤ q.regs.sp.toNat := by
    rw [htaken.sp]
    omega
  have hsp' : ((acts k h.savingLines q).regs.sp.toNat : ℤ) =
      m.regs.sp.toNat - (3 + h.opening.stackEffect) := by
    rw [hsp, UInt8.toNat_sub_of_le _ _ (UInt8.le_iff_toNat_le.mpr hle), htaken.sp, heffect]
    omega
  obtain ⟨hbeats, hopened⟩ := hentry.opens htaken (h.opening_area hkind)
    (fun line hline => (hfits line hline).2)
    (fun line hline => isPassed_of_isSteady (hfits line hline).1) hmasked hsp'
    (iff_of_true hmask hkind) (harea.read_cell hsound hslots (by omega))
  refine ⟨_, hbeats, hopened, ⟨?_, ?_, fun r hr => ?_, ?_⟩⟩
  · rw [flag_ran]
    exact hmask
  · rw [bus_ran, sp_ran, hsp, UInt8.sub_add_cancel, ← htaken.stack]
    exact above_slots hsound harea hslots (by omega) _
  · rw [regValue_ran, hregs r hr, htaken.regs r]
  · rw [bus_ran]
    exact hholds.congr htaken.regs (read_cell_of_kept hentry.sound htaken.kept)

/-- **The exit sequence** of a handler that stays masked. -/
theorem closes_area (hordinary : Ordinary m.regs) (hentry : Enters k h m) (hopened : Opened k h m m₁)
    (hsaved : SavedInArea k h m m₁) (hbody : Respects k h (m₁.regs.sp + h.frame) m₁ m₂)
    (hmap : Kept anywhere m₁.bus m₂.bus) (hfinishes : Finishes k h m₁ m₂) :
    ∃ m₃, beats (instructions h.closing.code) m₂ = some m₃ ∧ Kept (h.Written k) m₂.bus m₃.bus ∧
      Resumed m m₃ := by
  have hcode := h.closing_area hkind
  have hsound := hmap.sound (hopened.kept.sound hentry.sound)
  have harea := (hentry.area.kept hopened.kept).kept hmap
  have hfits := fits_restoring (k := k) hkind
  have hlies := hfinishes.code
  rw [hcode] at hlies
  obtain ⟨hmasked, hmask⟩ := masked_of_steady (k := k) (fun line hline => (hfits line hline).1)
    (hbody.mask hkind hsaved.mask)
  have hpassed : ∀ line ∈ h.restoringLines, isPassed line = true := fun line hline =>
    isPassed_of_isSteady (hfits line hline).1
  obtain ⟨hbeats, hrest, hwritten⟩ := runs_lines hsound harea hlies
    (fun line hline => (hfits line hline).2) hpassed hmasked
  have hholds : Holds k h m.regs m.bus m₂.bus := hsaved.holds.slots hkind (hbody.area hkind)
  obtain ⟨hsp, hrestored, hothers, hkept, hcells⟩ := acts_restoring hkind hsound harea hholds
  have hstack : stack (ran k h.restoringLines m₂) = resumption m.regs ++ stack m := by
    rw [← hsaved.stack, ← hbody.above hfinishes.sp, stack, bus_ran, sp_ran, hsp]
    exact above_cells hsound hkept _
  have hregs : ∀ q, regValue (ran k h.restoringLines m₂).regs q = regValue m.regs q := by
    intro q
    rw [regValue_ran]
    by_cases hq : h.saves.containsReg q = true
    · exact hrestored q hq
    · rw [Bool.not_eq_true] at hq
      rw [hothers q hq, hbody.regs q (Handler.unsaved hq).1, hsaved.regs q hq]
  have hcells' : ∀ cell : UInt8, (ran k h.restoringLines m₂).bus.read cell.toUInt16 =
      m.bus.read cell.toUInt16 := by
    intro cell
    rw [bus_ran]
    by_cases hcell : h.body.containsCell cell = true
    · exact hcells cell (Handler.mem_cells.mpr hcell)
    · rw [Bool.not_eq_true] at hcell
      rw [← hopened.cells cell, ← hbody.cells cell hcell]
      exact read_unsaved hsound hkept hcell
  have hmask' : (ran k h.restoringLines m₂).regs.flag .i = true := by
    rw [flag_ran]
    exact hmask
  obtain ⟨m₃, hlast, hbus, hresumed⟩ := runs_rti hordinary hrest hmask' hstack hregs hcells'
  refine ⟨m₃, ?_, by rw [hbus, bus_ran]; exact hwritten, hresumed⟩
  rw [hcode, instructions_append hpassed, beats_add hbeats]
  exact hlast

end Masking

/-! ### Handlers that unmask interrupts -/

section Unmasking

variable {h : Handler} {m₁ m₂ : Machine}

/-- What a handler that unmasks interrupts has saved.  The status was pushed while interrupts were
masked. -/
def SavedOnStack (h : Handler) (m m' : Machine) : Prop :=
  ∃ p, Registers.flag { m.regs with p := Registers.pulledStatus p } .i = true ∧
    above m'.bus (m'.regs.sp + h.frame) =
      (h.saves.cells.toList.map fun cell => m.bus.read cell.toUInt16).reverse ++
        (m.regs.y :: m.regs.x :: m.regs.a :: p :: (resumption m.regs ++ stack m))

variable (hkind : ¬ h.StaysMasked)

include hkind

/-- **The entry sequence** of a handler that unmasks interrupts. -/
theorem opens_stack (hentry : Enters k h m) :
    ∃ m₁, beats (instructions h.opening.code) m.pollInterrupt = some m₁ ∧ Opened k h m m₁ ∧
      SavedOnStack h m m₁ := by
  have heffect := h.effect_stack hkind
  have hroom := hentry.room
  have htaken := hentry.taken (by omega)
  have hcells := read_cell_of_kept hentry.sound htaken.kept
  generalize m.pollInterrupt = q at htaken hcells
  have hsound := htaken.kept.sound hentry.sound
  have hfits : ∀ line ∈ h.pushingLines, Fits k (h.Written k) line := fits_pushingLines
  obtain ⟨hmasked, hmask⟩ := masked_of_steady (k := k) (fun line hline => (hfits line hline).1)
    htaken.mask
  have hlines : ∀ line ∈ h.pushingLines ++ [Line.bare .cli],
      WritesTo k (h.Written k) line ∧ isPassed line = true := by
    intro line hline
    rcases List.mem_append.mp hline with hline | hline
    · exact ⟨(hfits line hline).2, isPassed_of_isSteady (hfits line hline).1⟩
    · rw [List.mem_singleton.mp hline]
      exact ⟨writesTo_bare rfl, rfl⟩
  have hle : 4 + h.saves.cells.toList.length ≤ q.regs.sp.toNat := by
    rw [htaken.sp]
    omega
  obtain ⟨hstack, hsp, hpushed⟩ := acts_pushingLines (k := k) hsound hle
  obtain ⟨hbus, hregs, hflag⟩ := acts_cli (k := k) h.pushingLines q
  have hclear : ¬ (acts k (h.pushingLines ++ [Line.bare .cli]) q).regs.flag .i = true := by
    rw [hflag]
    exact Bool.false_ne_true
  have hsp' : ((acts k (h.pushingLines ++ [Line.bare .cli]) q).regs.sp.toNat : ℤ) =
      m.regs.sp.toNat - (3 + h.opening.stackEffect) := by
    have htop : (acts k h.pushingLines q).regs.sp =
        (acts k h.pushingLines q).regs.sp + h.frame - h.frame := by
      rw [UInt8.add_sub_cancel]
    rw [htaken.sp] at hsp hle
    have hframe : h.frame.toNat ≤ ((acts k h.pushingLines q).regs.sp + h.frame).toNat := by omega
    rw [hregs, htop, UInt8.toNat_sub_of_le _ _ (UInt8.le_iff_toNat_le.mpr hframe), hsp, heffect]
    omega
  obtain ⟨hbeats, hopened⟩ := hentry.opens htaken (h.opening_stack hkind)
    (fun line hline => (hlines line hline).1) (fun line hline => (hlines line hline).2)
    (masked_append hmasked ⟨hmask, trivial⟩) hsp' (iff_of_false hclear hkind) fun cell => by
      rw [hbus]
      exact read_cell_of_kept hsound hpushed cell
  refine ⟨_, hbeats, hopened, q.regs.pushedStatus,
    (flag_pulled_pushed q.regs m.regs (by decide)).trans htaken.mask, ?_⟩
  have hsame : (h.saves.cells.toList.map fun cell => q.bus.read cell.toUInt16) =
      h.saves.cells.toList.map fun cell => m.bus.read cell.toUInt16 :=
    List.map_congr_left fun cell _ => hcells cell
  rw [bus_ran, sp_ran, hbus, hregs, hstack, hsame, htaken.a, htaken.x, htaken.y, htaken.stack]

/-- **The exit sequence** of a handler that unmasks interrupts. -/
theorem closes_stack (hordinary : Ordinary m.regs) (hentry : Enters k h m) (hopened : Opened k h m m₁)
    (hsaved : SavedOnStack h m m₁) (hbody : Respects k h (m₁.regs.sp + h.frame) m₁ m₂)
    (hmap : Kept anywhere m₁.bus m₂.bus) (hfinishes : Finishes k h m₁ m₂) :
    ∃ m₃, beats (instructions h.closing.code) m₂ = some m₃ ∧ Kept (h.Written k) m₂.bus m₃.bus ∧
      Resumed m m₃ := by
  have hcode := h.closing_stack hkind
  have hsound := hmap.sound (hopened.kept.sound hentry.sound)
  have harea := (hentry.area.kept hopened.kept).kept hmap
  have hlies := hfinishes.code
  rw [hcode] at hlies
  obtain ⟨hfirst, hlies'⟩ := beat_line (hfinishes.quiet hkind) hlies rfl ⟨fun _ _ => rfl, trivial⟩
  have hbus : (ran k [.bare .sei] m₂).bus = m₂.bus := rfl
  have hsp : (ran k [.bare .sei] m₂).regs.sp = m₂.regs.sp := rfl
  have hmask : (ran k [.bare .sei] m₂).regs.flag .i = true :=
    (flag_setFlag m₂.regs .i .i true).trans (if_pos rfl)
  generalize ran k [.bare .sei] m₂ = u at hfirst hlies' hbus hsp hmask
  obtain ⟨p, hp, hstack⟩ := hsaved
  rw [← hbody.above hfinishes.sp, ← hbus, ← hsp] at hstack
  rw [← hbus] at hsound harea
  obtain ⟨hrest, ha, hx, hy, hstatus, hkept, hcells, hmasked⟩ := acts_pullingLines (k := k) hsound
    (fun cell => m.bus.read cell.toUInt16) hstack hmask
  have hlines : ∀ line ∈ h.pullingLines, WritesTo k (h.Written k) line ∧ isPassed line = true := by
    intro line hline
    rcases List.mem_append.mp hline with hline | hline
    · have hfits : Fits k (h.Written k) line := fits_pullingCells line hline
      exact ⟨hfits.2, isPassed_of_isSteady hfits.1⟩
    · exact ⟨writesTo_pullingAll line hline, List.all_eq_true.mp (by rfl) line hline⟩
  obtain ⟨hbeats, hlast, hwritten⟩ := runs_lines hsound harea hlies'
    (fun line hline => (hlines line hline).1) (fun line hline => (hlines line hline).2) hmasked
  have hregs : ∀ q, regValue (ran k h.pullingLines u).regs q = regValue m.regs q := by
    intro q
    rw [regValue_ran]
    cases q with
    | a => exact ha
    | x => exact hx
    | y => exact hy
  have hcells' : ∀ cell : UInt8, (ran k h.pullingLines u).bus.read cell.toUInt16 =
      m.bus.read cell.toUInt16 := by
    intro cell
    rw [bus_ran]
    by_cases hcell : h.body.containsCell cell = true
    · exact hcells cell (Handler.mem_cells.mpr hcell)
    · rw [Bool.not_eq_true] at hcell
      rw [← hopened.cells cell, ← hbody.cells cell hcell, ← hbus]
      exact read_unsaved hsound hkept hcell
  have hmask' : (ran k h.pullingLines u).regs.flag .i = true := by
    rw [flag_ran, ← hp]
    unfold Registers.flag
    rw [hstatus]
  obtain ⟨m₃, hreturn, hbus₃, hresumed⟩ := runs_rti hordinary hlast hmask' hrest hregs hcells'
  refine ⟨m₃, ?_, by rw [hbus₃, bus_ran, ← hbus]; exact hwritten, hresumed⟩
  have hcount : instructions h.closing.code = 1 + (h.pullingLines.length + 1) := by
    have hcons : instructions (.bare .sei :: (h.pullingLines ++ [Line.bare .rti])) =
        instructions (h.pullingLines ++ [Line.bare .rti]) + 1 := List.countP_cons_of_pos rfl
    rw [hcode, hcons, instructions_append fun line hline => (hlines line hline).2, Nat.add_comm]
    rfl
  rw [hcount, beats_add hfirst, beats_add hbeats]
  exact hreturn

end Unmasking

/-! ### Bodies -/

section Bodies

variable {h : Handler} {top : UInt8} {m₁ m₂ m₃ : Machine}

/-- **A handler is transparent** whose body leaves alone what it must. -/
theorem transparent (hordinary : Ordinary m.regs) (hentry : Enters k h m) :
    ∃ m₁, beats (instructions h.opening.code) m.pollInterrupt = some m₁ ∧ Opened k h m m₁ ∧
      ∀ m₂, Respects k h (m₁.regs.sp + h.frame) m₁ m₂ → Kept anywhere m₁.bus m₂.bus →
        Finishes k h m₁ m₂ →
        ∃ m₃, beats (instructions h.closing.code) m₂ = some m₃ ∧
          Kept (h.Written k) m₂.bus m₃.bus ∧ Resumed m m₃ := by
  by_cases hkind : h.StaysMasked
  · obtain ⟨m₁, hbeats, hopened, hsaved⟩ := opens_area hkind hentry
    exact ⟨m₁, hbeats, hopened, fun m₂ hbody hmap hfinishes =>
      closes_area hkind hordinary hentry hopened hsaved hbody hmap hfinishes⟩
  · obtain ⟨m₁, hbeats, hopened, hsaved⟩ := opens_stack hkind hentry
    exact ⟨m₁, hbeats, hopened, fun m₂ hbody hmap hfinishes =>
      closes_stack hkind hordinary hentry hopened hsaved hbody hmap hfinishes⟩

theorem Respects.refl (m : Machine) : Respects k h top m m :=
  ⟨fun _ _ => rfl, fun _ _ => rfl, fun _ _ => rfl, fun _ => id, fun _ _ _ => rfl⟩

theorem Respects.trans (hfirst : Respects k h top m₁ m₂) (hnext : Respects k h top m₂ m₃) :
    Respects k h top m₁ m₃ :=
  ⟨fun r hr => (hnext.regs r hr).trans (hfirst.regs r hr),
    fun cell hcell => (hnext.cells cell hcell).trans (hfirst.cells cell hcell),
    fun i hi => (hnext.stack i hi).trans (hfirst.stack i hi),
    fun hkind hmask => hnext.mask hkind (hfirst.mask hkind hmask),
    fun hkind i hi => (hnext.area hkind i hi).trans (hfirst.area hkind i hi)⟩

/-- A handler that has run to completion leaves everything alone that a body must. -/
theorem Respects.of_resumed (hresumed : Resumed m₁ m₂) (hkind : ¬ h.StaysMasked)
    (hbelow : m₁.regs.sp ≤ top) : Respects k h top m₁ m₂ :=
  ⟨fun r _ => by rw [hresumed.regs], fun cell _ => hresumed.cells cell,
    fun i hi => hresumed.stack i (UInt8.lt_of_le_of_lt hbelow hi), fun hmasked => absurd hmasked hkind,
    fun hmasked => absurd hmasked hkind⟩

/-- **A body leaves alone what it must**, whatever handlers are entered and run to completion in its
course.  The induction is on the course, so that it also covers handlers that are entered in the
course of these. -/
theorem Course.respects (hcourse : Course k h top m₁ m₂) : Ordinary m₁.regs →
    Respects k h top m₁ m₂ ∧ Kept anywhere m₁.bus m₂.bus ∧ Ordinary m₂.regs := by
  induction hcourse with
  | done => exact fun hordinary => ⟨.refl _, .refl _, hordinary⟩
  | own run respects _ ih =>
    intro hordinary
    obtain ⟨hrest, hmap, hlast⟩ := ih (ordinary_after hordinary run)
    exact ⟨respects.trans hrest, (kept_after run).trans hmap, hlast⟩
  | @nested h inner top m m₁ m₂ m₃ m₄ unmasked below enters opened _ finishes closed _ ihbody ihrest =>
    intro hordinary
    obtain ⟨m₁', hopened', -, hcloses⟩ := transparent hordinary enters
    obtain rfl : m₁' = m₁ := Option.some.inj (hopened'.symm.trans opened)
    obtain ⟨hbody, hmap, hordinary'⟩ := ihbody (ordinary_beats (ordinary_poll hordinary) opened)
    obtain ⟨m₃', hclosed', -, hresumed⟩ := hcloses m₂ hbody hmap finishes
    obtain rfl : m₃' = m₃ := Option.some.inj (hclosed'.symm.trans closed)
    obtain ⟨hrest, hmap', hlast⟩ := ihrest (ordinary_beats hordinary' closed)
    have hentered : Kept anywhere m.bus m₃'.bus :=
      (((kept_poll (fun _ => trivial) m).trans (kept_beats opened)).trans hmap).trans
        (kept_beats closed)
    exact ⟨(Respects.of_resumed hresumed unmasked below).trans hrest, hentered.trans hmap', hlast⟩

/-- **Interrupt handlers are transparent.**  When an interrupt is taken, the handler's entry
sequence is run without another interruption and leads to the body, with the zero page as it was.
Once the body has run its course, with whatever handlers that were entered and run to completion
where interrupts were unmasked, the exit sequence is run without another interruption and resumes
the interrupted program with every register, the whole zero page and the stack as before. -/
theorem handler_transparent (hordinary : Ordinary m.regs) (hentry : Enters k h m) :
    ∃ m₁, beats (instructions h.opening.code) m.pollInterrupt = some m₁ ∧ Opened k h m m₁ ∧
      ∀ m₂, Course k h (m₁.regs.sp + h.frame) m₁ m₂ → Finishes k h m₁ m₂ →
        ∃ m₃, beats (instructions h.closing.code) m₂ = some m₃ ∧
          Kept (h.Written k) m₂.bus m₃.bus ∧ Resumed m m₃ := by
  obtain ⟨m₁, hbeats, hopened, hcloses⟩ := transparent hordinary hentry
  refine ⟨m₁, hbeats, hopened, fun m₂ hcourse hfinishes => ?_⟩
  obtain ⟨hbody, hmap, -⟩ := hcourse.respects (ordinary_beats (ordinary_poll hordinary) hbeats)
  exact hcloses m₂ hbody hmap hfinishes

end Bodies

/-! ### Two handlers -/

/-- A handler at `$0300` that can be interrupted by one at `$0340`. -/
def nestLinkage : Linkage := ⟨fun name => if name = "dli" then 0x0300 else 0x0340, 0xA000⟩

def nestBinding (name : String) (entry : EntryKind) : Binding :=
  { name, entry, bank := .common, placement := .common, variadic := false, params := [],
    returnKind := .void, returnType := .void, visible := true, declaredClobbers := none,
    resultSlot := none, vaCountSlot := none, vaPtrSlot := none }

/-- It has a frame of two bytes, and counts in cell `$90`. -/
def outerHandler : Handler :=
  { binding := nestBinding "dli" .nestedInterrupt, frame := 2,
    body := { cells := .ofList [0x90] }, isHandler := rfl }

/-- It does nothing. -/
def innerHandler : Handler :=
  { binding := nestBinding "vbi" .interrupt, frame := 0, body := {}, isHandler := rfl }

def nestBody : List Line := [.op .inc (.zeroPage 0x90), .bare .sei]

def nestMemory (a : UInt16) : UInt8 :=
  if a = 0x0340 then 0x40
  else
    [0x08, 0x48, 0x8A, 0x48, 0x98, 0x48, 0xA5, 0x90, 0x48, 0xBA, 0x8A, 0x38, 0xE9, 0x02, 0xAA, 0x9A,
      0x58, 0xE6, 0x90, 0x78, 0x78, 0xBA, 0x8A, 0x18, 0x69, 0x02, 0xAA, 0x9A, 0x68, 0x85, 0x90, 0x68,
      0xA8, 0x68, 0xAA, 0x68, 0x28, 0x40].getD (a - 0x0300).toNat 0

/-- Both interrupts are due. -/
def nestMachine : Machine :=
  { Machine.create 0xA000 0x2000 0xD500 with
    bus := Switching.filled nestMemory ∅
    pending := [⟨0, 0x0300⟩, ⟨0, 0x0340⟩] }

/-- The page of the handlers. -/
def InPage (a : UInt16) : Prop := 0x0300 ≤ a.toNat ∧ a.toNat < 0x0400

instance : DecidablePred InPage := fun a =>
  inferInstanceAs (Decidable (0x0300 ≤ a.toNat ∧ a.toNat < 0x0400))

theorem size_nest : outerHandler.areaSize = 0 ∧ innerHandler.areaSize = 0 := by decide +kernel

theorem lies_nest : Lies nestLinkage InPage nestMemory 0x0300 outerHandler.opening.code ∧
    Lies nestLinkage InPage nestMemory 0x0311 nestBody ∧
    Lies nestLinkage InPage nestMemory 0x0314 outerHandler.closing.code ∧
    Lies nestLinkage InPage nestMemory 0x0340 innerHandler.opening.code ∧
    Lies nestLinkage InPage nestMemory 0x0340 innerHandler.closing.code := by decide +kernel

/-- The first two pages. -/
def InFront (a : UInt16) : Prop := a.toNat < 0x200

section Nest

variable {h : Handler} {b c : Bus} {pc : UInt16} {lines : List Line}

theorem inFront_of_written (hsize : h.areaSize = 0) {a : UInt16} (ha : h.Written k a) : InFront a := by
  rcases ha with ha | ⟨i, -, hi, -⟩
  · exact ha
  · rw [hsize] at hi
    omega

theorem roomy_of_none (hsize : h.areaSize = 0) : Roomy k h.areaName h.areaSize b := by
  rw [hsize]
  exact ⟨by omega, fun i hi => absurd hi (Nat.not_lt_zero i), fun i hi => absurd hi (Nat.not_lt_zero i)⟩

/-- The page of the handlers stays as it is. -/
theorem lies_kept (hsize : h.areaSize = 0) (hkept : Kept InFront nestMachine.bus b)
    (hlies : Lies nestLinkage InPage nestMemory pc lines) :
    Lies nestLinkage (fun a => ¬ h.Written nestLinkage a) b.read pc lines := by
  refine hlies.congr fun a ha => ⟨fun hw => ?_, ?_⟩
  · have hfront := inFront_of_written hsize hw
    unfold InFront at hfront
    have hpage := ha.1
    omega
  · have hwindow : nestMachine.bus.inWindow a = false :=
      (Switching.plain_filled (lt_trans ha.2 (by decide))).1
    rw [hkept.read (fun hfront => ?_) hwindow]
    · exact Switching.read_filled hwindow
    · unfold InFront at hfront
      have hpage := ha.1
      omega

theorem enters_outer : Enters nestLinkage outerHandler nestMachine where
  due := ⟨⟨0, 0x0300⟩, [⟨0, 0x0340⟩], rfl, le_rfl, by decide⟩
  clear := by decide
  room := by decide +kernel
  sound := Switching.sound_filled
  area := roomy_of_none size_nest.1
  code := lies_kept size_nest.1 (.refl _) lies_nest.1

/-- The second interrupt is due when the body of the first handler begins. -/
theorem enters_inner {m₁ : Machine} (hopened : Opened nestLinkage outerHandler nestMachine m₁) :
    Enters nestLinkage innerHandler m₁ := by
  have hkept := hopened.kept.mono fun a => inFront_of_written size_nest.1
  have hclear : m₁.regs.flag .i = false := by
    rw [← Bool.not_eq_true, hopened.mask]
    decide
  have hroom : (m₁.regs.sp.toNat : ℤ) = 245 := hopened.sp.trans (by decide +kernel)
  have hnone : innerHandler.opening.stackEffect = 0 := by decide +kernel
  refine ⟨⟨⟨0, 0x0340⟩, [], hopened.waiting, Nat.zero_le _, by decide⟩, hclear, ?_,
    hkept.sound Switching.sound_filled, roomy_of_none size_nest.2,
    lies_kept size_nest.2 hkept lies_nest.2.2.2.1⟩
  rw [hroom, hnone]
  decide

theorem act_inc (m : Machine) (cell : UInt8) : act k m (.op .inc (.zeroPage cell)) =
    { m with
      bus := m.bus.write cell.toUInt16 (m.bus.read cell.toUInt16 + 1)
      regs := m.regs.setNZ (m.bus.read cell.toUInt16 + 1) } := by
  rfl

theorem acts_nestBody (m : Machine) : acts k nestBody m =
    { m with
      bus := m.bus.write 0x90 (m.bus.read 0x90 + 1)
      regs := (m.regs.setNZ (m.bus.read 0x90 + 1)).setFlag .i true } := by
  change act k (act k m (.op .inc (.zeroPage 0x90))) (.bare .sei) = _
  rw [act_inc]
  rfl

/-- The body of the first handler, from behind the second one. -/
theorem nestBody_runs {m : Machine} (hkept : Kept InFront nestMachine.bus m.bus)
    (hpc : m.regs.pc = 0x0311) (top : UInt8) :
    ∃ m', after 2 m = some m' ∧ Respects nestLinkage outerHandler top m m' ∧
      Kept InFront nestMachine.bus m'.bus ∧ m'.regs.sp = m.regs.sp ∧ m'.regs.pc = 0x0314 ∧
      m'.regs.flag .i = true := by
  have hsound := hkept.sound Switching.sound_filled
  have hlies : Lies nestLinkage (fun a => ¬ outerHandler.Written nestLinkage a) m.bus.read m.regs.pc
      (nestBody ++ []) := by
    rw [hpc, List.append_nil]
    exact lies_kept size_nest.1 hkept lies_nest.2.1
  have hwrites : ∀ line ∈ nestBody, WritesTo nestLinkage (outerHandler.Written nestLinkage) line := by
    simp only [nestBody, List.forall_mem_cons, List.not_mem_nil, false_implies, implies_true, and_true]
    exact ⟨(fits_cell Handler.low rfl).2, writesTo_bare rfl⟩
  obtain ⟨hwritten, hspares⟩ := keeps_lines hsound (roomy_of_none size_nest.1) hwrites
  obtain ⟨hafter, -⟩ := after_lines hlies (by decide) hspares
  have hbus : (ran nestLinkage nestBody m).bus = m.bus.write 0x90 (m.bus.read 0x90 + 1) := by
    rw [bus_ran, acts_nestBody]
  refine ⟨_, hafter,
    ⟨fun r _ => ?_, fun cell hcell => ?_, fun i _ => ?_, fun hkind => ?_, fun hkind => ?_⟩,
    hkept.trans (hwritten.mono fun a => inFront_of_written size_nest.1), ?_, ?_, ?_⟩
  · rw [regValue_ran, acts_nestBody]
    cases r <;> rfl
  · rw [hbus, read_write_of_ne (hsound.plain_cell cell)]
    intro heq
    have hninety : cell = 0x90 :=
      (UInt8.toUInt16_inj.mp (show (0x90 : UInt8).toUInt16 = _ from heq)).symm
    rw [hninety] at hcell
    revert hcell
    decide
  · rw [hbus, read_write_of_ne (hsound.plain_stack i)]
    exact cell_ne_stack 0x90 i
  · exact absurd hkind (by decide)
  · exact absurd hkind (by decide)
  · rw [sp_ran, acts_nestBody]
    rfl
  · rw [pc_ran, hpc]
    decide
  · rw [flag_ran, acts_nestBody]
    exact (flag_setFlag _ .i .i true).trans (if_pos rfl)

/-- Two interrupts that are due at once: the second handler runs as soon as the first has unmasked
interrupts. -/
theorem nested_handlers_resume : ∃ m₁ m₂ m₃,
    Ordinary nestMachine.regs ∧ Enters nestLinkage outerHandler nestMachine ∧
    beats (instructions outerHandler.opening.code) nestMachine.pollInterrupt = some m₁ ∧
    Enters nestLinkage innerHandler m₁ ∧
    Course nestLinkage outerHandler (m₁.regs.sp + outerHandler.frame) m₁ m₂ ∧
    Finishes nestLinkage outerHandler m₁ m₂ ∧
    beats (instructions outerHandler.closing.code) m₂ = some m₃ ∧ Resumed nestMachine m₃ := by
  have hordinary : Ordinary nestMachine.regs := by
    unfold Ordinary
    decide
  obtain ⟨m₁, hbeats, hopened, hcloses⟩ := handler_transparent hordinary enters_outer
  have hordinary₁ := ordinary_beats (ordinary_poll hordinary) hbeats
  have hinner := enters_inner hopened
  obtain ⟨n₁, hbeats', hopened', hcloses'⟩ := handler_transparent hordinary₁ hinner
  have hkept₁ := hopened.kept.mono fun a => inFront_of_written size_nest.1
  have hkept₂ := hkept₁.trans (hopened'.kept.mono fun a => inFront_of_written size_nest.2)
  have hpc' : n₁.regs.pc = 0x0340 := hopened'.pc.trans (by decide +kernel)
  have hmask' : n₁.regs.flag .i = true := hopened'.mask.mpr (by decide)
  have hfinishes' : Finishes nestLinkage innerHandler n₁ n₁ :=
    ⟨rfl, by rw [hpc']; exact lies_kept size_nest.2 hkept₂ lies_nest.2.2.2.2,
      fun _ => poll_masked hmask'⟩
  obtain ⟨n₃, hclosed', hkept', hresumed'⟩ := hcloses' n₁ .done hfinishes'
  have hkept₃ := hkept₂.trans (hkept'.mono fun a => inFront_of_written size_nest.2)
  have hpc : n₃.regs.pc = 0x0311 := by
    rw [hresumed'.regs, hopened.pc]
    decide +kernel
  obtain ⟨m₂, hafter, hrespects, hkept₄, hsp, hpc₂, hmask⟩ := nestBody_runs hkept₃ hpc
    (m₁.regs.sp + outerHandler.frame)
  have hbelow : m₁.regs.sp ≤ m₁.regs.sp + outerHandler.frame := by
    have hroom : (m₁.regs.sp.toNat : ℤ) = 245 := hopened.sp.trans (by decide +kernel)
    have hframe : outerHandler.frame.toNat = 2 := rfl
    rw [UInt8.le_iff_toNat_le, UInt8.toNat_add, hframe]
    omega
  have hcourse : Course nestLinkage outerHandler (m₁.regs.sp + outerHandler.frame) m₁ m₂ :=
    .nested (by decide) hbelow hinner hbeats' .done hfinishes' hclosed' (.own hafter hrespects .done)
  have hfinishes : Finishes nestLinkage outerHandler m₁ m₂ :=
    ⟨hsp.trans (congrArg Registers.sp hresumed'.regs),
      by rw [hpc₂]; exact lies_kept size_nest.1 hkept₄ lies_nest.2.2.1, fun _ => poll_masked hmask⟩
  obtain ⟨m₃, hclosed, -, hresumed⟩ := hcloses m₂ hcourse hfinishes
  exact ⟨m₁, m₂, m₃, hordinary, enters_outer, hbeats, hinner, hcourse, hfinishes, hclosed, hresumed⟩

end Nest

end Codegen6502.Proofs.Routines.Handlers
