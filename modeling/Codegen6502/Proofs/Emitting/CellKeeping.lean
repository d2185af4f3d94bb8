import Codegen6502.Proofs.Calls.ClobberSets
import Codegen6502.Proofs.Emitting.Origins
import Codegen6502.Proofs.Selecting.CellUse

/-!
# The cells that emitted code writes

Emitted code writes cells of the zero page that are allotted to it: the argument slots, the scratch
pointer, the copy of the bank register, the cells that hold values of the function or that it
restores as a handler, and those that the program names (`Allotted`).

The exception are captures and jumps to them, which store their buffer in the first two or three
slots even where the argument area has fewer.  `cells_kept_iff`: code keeps to its cells if and only
if these slots are allotted.
-/

namespace Codegen6502.Proofs.Emitting.CellKeeping

open Compilation Computations Calls.Pipeline Calls.Emitted
open Selecting.Vocabulary Selecting.CellUse Selecting.Bodies Origins

/-! ### Writes -/

/-- The cell that a line writes by its address in the zero page. -/
def writtenCell? : Line → Option UInt8
  | .op opcode (.zeroPage cell) => if opcode.writesMemory then some cell else none
  | _ => none

/-- Code that writes only cells of a set. -/
def WritesOnly (allotted : UInt8 → Prop) (code : List Line) : Prop :=
  ∀ line ∈ code, ∀ cell, writtenCell? line = some cell → allotted cell

variable {allotted : UInt8 → Prop} {code code' : List Line} {line : Line} {cell : UInt8}

theorem writtenCell?_eq_some (h : writtenCell? line = some cell) :
    ∃ opcode, line = .op opcode (.zeroPage cell) ∧ opcode.writesMemory = true := by
  unfold writtenCell? at h
  split at h
  · split at h
    · cases h
      exact ⟨_, rfl, ‹_›⟩
    · cases h
  · cases h

theorem writesOnly_append (h : WritesOnly allotted code) (h' : WritesOnly allotted code') :
    WritesOnly allotted (code ++ code') := List.forall_mem_append.mpr ⟨h, h'⟩

/-- Code that writes no cell at all. -/
theorem writesOnly_of_none (h : ∀ line ∈ code, writtenCell? line = none) :
    WritesOnly allotted code := by
  intro line hline cell hcell
  rw [h line hline] at hcell
  cases hcell

theorem writesOnly_of_all (h : code.all (writtenCell? · == none) = true) : WritesOnly allotted code :=
  writesOnly_of_none fun line hline => by simpa using List.all_eq_true.mp h line hline

theorem WritesOnly.mono {allotted' : UInt8 → Prop} (h : WritesOnly allotted code)
    (hle : ∀ cell, allotted cell → allotted' cell) : WritesOnly allotted' code :=
  fun line hline cell hcell => hle cell (h line hline cell hcell)

/-! ### Sequences -/

theorem writesOnly_reserve (n : UInt8) : WritesOnly allotted (Sequence.reserve n).code := by
  unfold Sequence.reserve
  split <;> exact writesOnly_of_all rfl

theorem writesOnly_release (n : UInt8) : WritesOnly allotted (Sequence.release n).code := by
  unfold Sequence.release
  split <;> exact writesOnly_of_all rfl

/-- Saving writes no cell. -/
theorem writesOnly_saving (scheme : SaveScheme) : WritesOnly allotted scheme.prologue.code := by
  refine writesOnly_of_none fun line hline => ?_
  cases scheme with
  | area name regs cells =>
    simp only [SaveScheme.prologue, code_ofLines, List.mem_append, List.mem_map, List.mem_flatMap,
      List.mem_cons, List.not_mem_nil, or_false] at hline
    obtain ⟨⟨k, r⟩, _, rfl⟩ | ⟨_, _, rfl | rfl⟩ := hline <;> rfl
  | stacked cells =>
    simp only [SaveScheme.prologue, code_ofLines, List.mem_append, List.mem_flatMap, List.mem_cons,
      List.not_mem_nil, or_false] at hline
    obtain (rfl | rfl | rfl | rfl | rfl | rfl) | ⟨_, _, rfl | rfl⟩ := hline <;> rfl

/-- Restoring writes the cells that were saved. -/
theorem writesOnly_restoring (scheme : SaveScheme) :
    WritesOnly (· ∈ scheme.savedCells) scheme.epilogue.code := by
  intro line hline cell hcell
  cases scheme with
  | area name regs cells =>
    simp only [SaveScheme.epilogue, code_ofLines, List.mem_append, List.mem_map, List.mem_flatMap,
      List.mem_cons, List.not_mem_nil, or_false] at hline
    obtain (⟨⟨k, saved⟩, hsaved, rfl | rfl⟩ | ⟨⟨k, r⟩, _, rfl⟩) | rfl := hline
    · cases hcell
    · obtain rfl := Option.some.inj hcell
      obtain ⟨pair, hpair, heq⟩ := List.mem_map.mp hsaved
      obtain ⟨rfl, rfl⟩ := Prod.mk.inj heq
      exact List.fst_mem_of_mem_zipIdx hpair
    · cases hcell
    · cases hcell
  | stacked cells =>
    simp only [SaveScheme.epilogue, code_ofLines, List.mem_append, List.mem_flatMap, List.mem_cons,
      List.not_mem_nil, or_false, List.mem_reverse] at hline
    obtain ⟨saved, hsaved, rfl | rfl⟩ | rfl | rfl | rfl | rfl | rfl | rfl | rfl := hline
    · cases hcell
    · obtain rfl := Option.some.inj hcell
      exact hsaved
    all_goals cases hcell

/-- **Entry sequences** write no cell. -/
theorem writesOnly_prologue (b : Binding) (frameBytes : UInt8) (saves : Clobbers) :
    WritesOnly allotted (Convention.prologue b frameBytes saves).code := by
  have hlabel : WritesOnly allotted [.label b.name] := writesOnly_of_all rfl
  have hreserve : WritesOnly allotted (Sequence.reserve frameBytes).code := writesOnly_reserve _
  have hschemes : ∀ scheme : SaveScheme, WritesOnly allotted scheme.prologue.code :=
    writesOnly_saving
  unfold Convention.prologue
  cases b.entry with
  | subroutine => exact writesOnly_append hlabel hreserve
  | interrupt => exact writesOnly_append (writesOnly_append hlabel (hschemes _)) hreserve
  | nestedInterrupt =>
    exact writesOnly_append (writesOnly_append (writesOnly_append hlabel (hschemes _)) hreserve)
      (writesOnly_of_all rfl)

/-- **Exit sequences** write the cells that have been saved. -/
theorem writesOnly_epilogue (b : Binding) (frameBytes : UInt8) (saves : Clobbers) :
    WritesOnly (saves.containsCell · = true) (Convention.epilogue b frameBytes saves).code := by
  have hrelease : ∀ n, WritesOnly (saves.containsCell · = true) (Sequence.release n).code :=
    writesOnly_release
  have hschemes : ∀ scheme : SaveScheme, scheme.savedCells = saves.cells.toList →
      WritesOnly (saves.containsCell · = true) scheme.epilogue.code := fun scheme hcells =>
    (writesOnly_restoring scheme).mono fun cell hcell => by
      rw [hcells] at hcell
      exact Calls.ClobberSets.mem_toList.mp hcell
  unfold Convention.epilogue
  cases b.entry with
  | subroutine =>
    unfold Sequence.releaseAndReturn
    dsimp only
    split
    · exact writesOnly_of_all rfl
    · cases b.returnKind with
      | void | struct _ => exact writesOnly_append (hrelease _) (writesOnly_of_all rfl)
      | byte =>
        exact writesOnly_append (writesOnly_append (writesOnly_of_all rfl) (hrelease _))
          (writesOnly_of_all rfl)
      | word =>
        exact writesOnly_append (writesOnly_append (writesOnly_of_all rfl) (hrelease _))
          (writesOnly_of_all rfl)
  | interrupt => exact writesOnly_append (hrelease _) (hschemes _ rfl)
  | nestedInterrupt =>
    exact writesOnly_append (writesOnly_append (writesOnly_of_all rfl) (hrelease _)) (hschemes _ rfl)

/-- **Support routines** write the copy of the bank register. -/
theorem writesOnly_routine (r : Routine) (z : ZeroPage) (bankSelect : UInt16) :
    WritesOnly (· = z.bankShadow) (r.code z bankSelect) := by
  have hall : (r.code z bankSelect).all fun line =>
      writtenCell? line == none || writtenCell? line == some z.bankShadow := by
    cases r <;> simp [Routine.code, Routine.trampolineCode, Routine.trampolineReturnCode,
      Routine.setJmpCode, Routine.longJmpCode, Routine.selectBank, Routine.stackByte, writtenCell?,
      Line.bare, Line.branch, Operand.byte, Operand.fixed, Operand.symbolByte, Opcode.writesMemory,
      Opcode.isReadModifyWrite]
  intro line hline cell hcell
  have hline := List.all_eq_true.mp hall line hline
  rw [hcell] at hline
  simpa using hline

/-! ### Selected and allocated code -/

/-- The cells that selected code writes are those that it may name. -/
theorem writesOnly_worded {may : UInt8 → Prop} (h : ∀ line ∈ code, Worded may line) :
    WritesOnly may code := by
  intro line hline cell hcell
  obtain ⟨opcode, rfl, hwrites⟩ := writtenCell?_eq_some hcell
  have hworded := h _ hline
  generalize hline : Line.op opcode (.zeroPage cell) = line at hworded
  cases hworded with
  | @bare op hop => cases op <;> cases hop <;> cases hline
  | @read op operand hop hbyte =>
    cases hline
    cases opcode <;> cases hop <;> cases hwrites
  | store hstored | change hop hstored =>
    cases hline
    exact hstored.cell cell rfl
  | storeX hstored =>
    cases hline
    exact hstored
  | readBehind | storeBehind | index | branch | jump | call | label => cases hline

/-- **Allocated code** writes the cells of the selected code and those that values live in. -/
theorem writesOnly_stems {may : UInt8 → Prop} {locations : Locations}
    (h : ∀ line ∈ code, Worded may line) (hstems : ∀ line ∈ code', Stems code locations line) :
    WritesOnly (fun cell => may cell ∨ ∃ v : UInt32,
      locations[v]? = some (.zeroPage cell)) code' := by
  intro line hline cell hcell
  cases hstems line hline with
  | kept hmem hplain => exact .inl (writesOnly_worded h _ hmem cell hcell)
  | cell hmem hlocation =>
    obtain ⟨opcode, heq, -⟩ := writtenCell?_eq_some hcell
    cases heq
    exact .inr ⟨_, hlocation⟩
  | indexed address hmem hpre => cases hcell
  | helper hop => cases hcell

/-! ### Cells of a program -/

/-- **The cells that are allotted** to the code of a name: the argument slots, the scratch pointer,
the copy of the bank register, cells of the pool that hold a value of the function, the cells that
it restores as a handler, and those that its nodes store to by an address of the program. -/
inductive Allotted (z : ZeroPage) (p : Program) (s : Stages) (name : String) : UInt8 → Prop
  | slot {cell : UInt8} : cell ∈ z.argCells → Allotted z p s name cell
  | pointerLo : Allotted z p s name z.pointerLo
  | pointerHi : Allotted z p s name z.pointerHi
  | shadow : Allotted z p s name z.bankShadow
  | pool {a : AllocatedCode} {v : UInt32} {cell : UInt8} : s.progress.allocated[name]? = some a →
    a.locations[v]? = some (.zeroPage cell) → cell ∈ z.pool → Allotted z p s name cell
  | saved {cell : UInt8} : (s.saving.saves.getD name {}).containsCell cell = true →
    Allotted z p s name cell
  | named {f : FunctionDef} {node : Node} {cell : UInt8} : f ∈ defined p → f.name = name →
    node ∈ f.body → StoresTo node cell → Allotted z p s name cell

/-- **The code of an emission keeps to its cells**: each function writes only those allotted to
it. -/
def KeepsCells (z : ZeroPage) (p : Program) (s : Stages) : Prop :=
  ∀ emitted ∈ s.emission.functions, WritesOnly (Allotted z p s emitted.header.name) emitted.code

variable {target : Target} {options : Options} {p : Program} {s : Stages}

theorem mem_argCells {z : ZeroPage} {slot : UInt8} (h : slot < z.argSlots) :
    z.arg slot ∈ z.argCells := by
  refine List.mem_map.mpr ⟨slot.toNat, List.mem_range.mpr (UInt8.lt_iff_toNat_lt.mp h), ?_⟩
  rw [UInt8.ofNat_toNat]

/-- What a function writes is allotted to it or a slot of a capture or a jump. -/
theorem writesOnly_built (h : Passed target options p s) {f : FunctionDef} {b : Binding}
    {code : SelectedCode} {a : AllocatedCode} (hf : f ∈ defined p)
    (hbuilt : Built target options s f b code a) :
    WritesOnly (fun cell => Allotted options.zeroPage p s f.name cell ∨
      ∃ node ∈ f.body, ∃ slot ∈ slotsTaken node, cell = options.zeroPage.arg slot) a.code := by
  obtain ⟨callClobbers, hallocate⟩ := hbuilt.from_
  have hopen : ∀ slot < options.zeroPage.argSlots,
      Allotted options.zeroPage p s f.name (options.zeroPage.arg slot) := fun slot hslot =>
    .slot (mem_argCells hslot)
  have hworded : ∀ line ∈ code.code, Worded (fun cell => Allotted options.zeroPage p s f.name cell ∨
      ∃ node ∈ f.body, ∃ slot ∈ slotsTaken node, cell = options.zeroPage.arg slot) line :=
    worded_of_selected hbuilt.selected hbuilt.bound (bound_of_passed h)
      (fun slot hslot => .inl (hopen slot hslot)) (.inl .pointerLo) (.inl .pointerHi) fun node hnode =>
        ⟨fun cell hcell => .inl (.named hf rfl hnode hcell),
          fun slot hslot => .inr ⟨node, hnode, slot, hslot, rfl⟩⟩
  refine (writesOnly_stems hworded (stems_of_allocate hallocate)).mono fun cell hcell => ?_
  rcases hcell with hmay | ⟨v, hv⟩
  · exact hmay
  · obtain ⟨live, moved, hlive, -⟩ := (Allocating.Scan.allocate_spec hallocate).out
    have hpool := (Allocating.Scan.cell_spared (v := ⟨v⟩) hallocate hlive hv).1
    exact .inl (.pool hbuilt.allocated hv hpool)

/-- **When the code of a program keeps to its cells**: when the slots in which captures and jumps
pass their buffer and value are allotted. -/
theorem cells_kept_iff (h : stages target options p = .ok s) :
    KeepsCells options.zeroPage p s ↔ ∀ f ∈ defined p, ∀ node ∈ f.body, ∀ slot ∈ slotsTaken node,
      Allotted options.zeroPage p s f.name (options.zeroPage.arg slot) := by
  have hpassed := passed h
  constructor
  · intro hkeeps f hf node hnode slot hslot
    obtain ⟨b, code, a, hbuilt, hemitted⟩ := exists_built hpassed hf
    obtain ⟨callClobbers, hallocate⟩ := hbuilt.from_
    have hstore := fills_selected hbuilt.selected hbuilt.bound (bound_of_passed hpassed) hnode hslot
    have hmem := mem_of_allocate hallocate hstore fun opcode operand heq => by cases heq; rfl
    have hwritten := hkeeps _ hemitted _ (mem_functionOf.mpr (.inr (.inl hmem))) _ rfl
    rw [show (functionOf b a.frameBytes _ a.code).header.name = b.name from rfl, hbuilt.name] at hwritten
    exact hwritten
  · intro hslots emitted hemitted
    cases origin_of_emitted hpassed hemitted with
    | routine r _ hr hcode =>
      rw [hcode]
      refine (writesOnly_routine r _ _).mono fun cell hcell => ?_
      rw [hcell]
      exact .shadow
    | function f b code a hf hbuilt =>
      rw [show (functionOf b a.frameBytes _ a.code).header.name = b.name from rfl, hbuilt.name]
      have hbody := (writesOnly_built hpassed hf hbuilt).mono fun cell hcell => hcell.elim id
        fun ⟨node, hnode, slot, hslot, heq⟩ => heq ▸ hslots f hf node hnode slot hslot
      have hexit := (writesOnly_epilogue b a.frameBytes (s.saving.saves.getD f.name {})).mono
        fun cell hcell => (Allotted.saved hcell : Allotted options.zeroPage p s f.name cell)
      exact writesOnly_append (writesOnly_append (writesOnly_prologue _ _ _) hbody) hexit

/-- Code keeps to its cells where the argument area has the slots of captures and jumps. -/
theorem keepsCells_of_slots (h : stages target options p = .ok s)
    (hslots : ∀ f ∈ defined p, ∀ node ∈ f.body, ∀ slot ∈ slotsTaken node,
      slot < options.zeroPage.argSlots) : KeepsCells options.zeroPage p s :=
  (cells_kept_iff h).mpr fun f hf node hnode slot hslot =>
    .slot (mem_argCells (hslots f hf node hnode slot hslot))

/-! ### A jump without argument slots -/

/-- Options without argument slots. -/
def slotlessOptions : Options := { zeroPage := { argSlots := 0 } }

/-- A function that goes back to what a buffer has captured. -/
def leavingFunction : FunctionDef where
  signature := { name := "f", params := [], returnType := .void }
  body := [.longJmp (.absolute 0x4000) (.constant 1)]

/-- The program of this function alone. -/
def leavingProgram : Program := { name := "m", functions := [leavingFunction] }

/-- **Its code does not keep to its cells**: the layout is accepted, but the jump stores to the
first three slots, of which there are none. -/
theorem jump_strays : slotlessOptions.validate = .ok () ∧
    ∃ s, stages .nothing slotlessOptions leavingProgram = .ok s ∧
      ¬KeepsCells slotlessOptions.zeroPage leavingProgram s := by
  have hany : (stages .nothing slotlessOptions leavingProgram).toOption.any (fun s =>
      !(s.saving.saves.getD "f" {}).containsCell 0x80) = true := by decide +kernel
  obtain ⟨s, hs, hsaves⟩ := ok_of_any hany
  refine ⟨by decide, s, hs, fun hkeeps => ?_⟩
  have hslot := (cells_kept_iff hs).mp hkeeps leavingFunction (by decide) _ (List.mem_cons_self ..) 0
    (by decide)
  generalize hcell : slotlessOptions.zeroPage.arg 0 = cell at hslot
  cases hslot with
  | slot hmem => exact (List.not_mem_nil hmem).elim
  | pointerLo | pointerHi | shadow => cases hcell
  | pool ha hlocation hpool =>
    rw [← hcell] at hpool
    exact absurd hpool (by decide)
  | saved hsaved =>
    rw [← hcell] at hsaved
    change (s.saving.saves.getD "f" {}).containsCell 0x80 = true at hsaved
    rw [hsaved] at hsaves
    cases hsaves
  | @named f node _ hf hname hnode hstores =>
    have hbody : ∀ f ∈ defined leavingProgram, f.body = leavingFunction.body := by decide
    rw [hbody f hf] at hnode
    rw [List.mem_singleton.mp hnode] at hstores
    cases hstores

end Codegen6502.Proofs.Emitting.CellKeeping
