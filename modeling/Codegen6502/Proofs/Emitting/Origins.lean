import Codegen6502.Proofs.Allocating.Blocks
import Codegen6502.Proofs.Calls.Emitted
import Codegen6502.Proofs.Selecting.Bodies

/-!
# Where emitted lines come from

A line of allocated code is a line of the selected code, an access to a value at its location, or an
instruction that moves a value between registers or gets at the frame (`Stems`).  Entry and exit
sequences are made of a few forms of lines (`Framing`).  An emitted function is a support routine,
or the allocated code of a function between its entry and exit sequences (`Origin`).
-/

namespace Codegen6502.Proofs.Emitting.Origins

open Compilation Computations Calls.Pipeline Calls.Emitted Allocation Allocating.Scan Allocating.Blocks

/-! ### Allocated code -/

/-- The instructions that placing adds. -/
def isHelper : Opcode → Bool
  | .tax | .txa | .tay | .tya | .php | .tsx | .plp => true
  | _ => false

/-- Where a line of allocated code comes from. -/
inductive Stems (code : List Line) (locations : Locations) : Line → Prop
  | kept {line : Line} : line ∈ code →
    (∀ opcode operand, line = .op opcode operand → operand.isPreAllocation = false) →
    Stems code locations line
  | cell {opcode : Opcode} {v : VReg} {cell : UInt8} : .op opcode (.virtual v) ∈ code →
    locations[v.index]? = some (.zeroPage cell) → Stems code locations (.op opcode (.zeroPage cell))
  | indexed {opcode : Opcode} {operand : Operand} (address : UInt16) : .op opcode operand ∈ code →
    operand.isPreAllocation = true → Stems code locations (.op opcode (.absoluteX (.absolute address)))
  | helper {opcode : Opcode} : isHelper opcode = true → Stems code locations (.op opcode .implied)

variable {code : List Line} {p : Placement}

/-- An access to a frame byte is made of the access and helpers. -/
theorem stems_accesses {live : Liveness} {view view' : StackView} {k : ℕ} {opcode : Opcode}
    {o : UInt8} {lines : List Line} (h : Accesses live view k opcode o lines view')
    {operand : Operand} (hmem : .op opcode operand ∈ code) (hpre : operand.isPreAllocation = true) :
    ∀ line ∈ lines, Stems code p.locations line := by
  have haccess : ∀ depth, Stems code p.locations (indexedAccess opcode o depth) := fun depth =>
    .indexed _ hmem hpre
  intro line hline
  cases h with
  | indexed hview =>
    rw [List.mem_singleton.mp hline]
    exact haccess _
  | saving hview hx hflags =>
    simp only [List.mem_cons, List.not_mem_nil, or_false] at hline
    rcases hline with rfl | rfl | rfl | rfl
    · exact .helper rfl
    · exact .helper rfl
    · exact haccess _
    · exact .helper rfl
  | loading hview hx hflags =>
    simp only [List.mem_cons, List.not_mem_nil, or_false] at hline
    rcases hline with rfl | rfl
    · exact .helper rfl
    · exact haccess _

/-- What placing makes of a line stems from it. -/
theorem stems_placed {view view' : StackView} {k : ℕ} {line : Line} {lines : List Line}
    (h : PlacedAs p view k line lines view') (hmem : line ∈ code) :
    ∀ placed ∈ lines, Stems code p.locations placed := by
  by_cases hvirtual : ∃ opcode v, line = .op opcode (.virtual v)
  · obtain ⟨opcode, v, rfl⟩ := hvirtual
    cases h with
    | gone hline => exact fun _ hplaced => (List.not_mem_nil hplaced).elim
    | @frame opcode' o _ _ hline hlines =>
      obtain ⟨location, hlocation, haccessed⟩ := accessed_of_access hline
      cases haccessed
      exact stems_accesses (accesses_of_frameLines hlines) hmem rfl
    | @kept placed hline hframe =>
      intro other hother
      rw [List.mem_singleton.mp hother]
      obtain ⟨location, hlocation, haccessed⟩ := accessed_of_access hline
      cases haccessed with
      | zeroPage => exact .cell hmem hlocation
      | stack => exact absurd rfl (hframe _ _)
      | toX _ | fromX _ | toY _ | fromY _ => exact .helper rfl
  · have hline : p.line line = .ok (some line) :=
      line_eq fun opcode v heq => hvirtual ⟨opcode, v, heq⟩
    cases h with
    | gone hgone =>
      rw [hline] at hgone
      cases hgone
    | frame hframe hlines =>
      rw [hline] at hframe
      cases hframe
      exact stems_accesses (accesses_of_frameLines hlines) hmem rfl
    | @kept placed hkept hframe =>
      rw [hline] at hkept
      cases hkept
      intro other hother
      rw [List.mem_singleton.mp hother]
      refine .kept hmem fun opcode operand heq => ?_
      cases operand with
      | virtual v => exact absurd ⟨opcode, v, heq⟩ hvirtual
      | frame o => exact absurd heq (hframe _ _)
      | _ => rfl

/-- **Every line of allocated code** stems from the selected code. -/
theorem stems_of_allocate {z : ZeroPage} {s : SelectedCode} {b : Binding}
    {callClobbers : Std.TreeMap ℕ Clobbers} {a : AllocatedCode}
    (h : allocate z s b callClobbers = .ok a) : ∀ line ∈ a.code, Stems s.code a.locations line := by
  obtain ⟨live, moved, -, -, hplace, -, hlocations, -⟩ := (allocate_spec h).out
  obtain ⟨block, view, hlaid⟩ := laid_of_place hplace
  intro line hline
  obtain ⟨q, hq⟩ := List.mem_iff_getElem?.mp hline
  rw [hlaid.out] at hq
  obtain ⟨k, hk, -, hblock⟩ := joined_getElem? block hq
  have hplaced := hlaid.placed k _ (List.getElem?_eq_getElem hk)
  rw [hlocations]
  exact stems_placed hplaced (List.getElem_mem hk) line (List.mem_of_getElem? hblock)

/-! ### A kept line -/

/-- A line without virtual register or frame byte stands in the allocated code as well. -/
theorem mem_of_allocate {z : ZeroPage} {s : SelectedCode} {b : Binding}
    {callClobbers : Std.TreeMap ℕ Clobbers} {a : AllocatedCode}
    (h : allocate z s b callClobbers = .ok a) {line : Line} (hmem : line ∈ s.code)
    (hplain : ∀ opcode operand, line = .op opcode operand → operand.isPreAllocation = false) :
    line ∈ a.code := by
  obtain ⟨live, moved, -, -, hplace, -⟩ := (allocate_spec h).out
  obtain ⟨block, view, hlaid⟩ := laid_of_place hplace
  obtain ⟨k, hk, rfl⟩ := List.getElem_of_mem hmem
  have hplaced := hlaid.placed k _ (List.getElem?_eq_getElem hk)
  have hline := line_eq (p := ⟨s.name, live, (assign (problemOf z s b callClobbers live)).1.locations⟩)
    fun opcode v heq => by cases hplain opcode _ heq
  obtain ⟨hblock, -⟩ := hplaced.eq_of_kept hline fun opcode o heq => by cases hplain opcode _ heq
  have hget := hlaid.getElem? hk (j := 0) (by simp [hblock])
  rw [hblock] at hget
  exact List.mem_of_getElem? hget

/-! ### Entry and exit sequences -/

/-- The instructions without operand that entry and exit sequences use. -/
def isFraming : Opcode → Bool
  | .tax | .txa | .tay | .tya | .tsx | .txs | .sec | .clc | .sei | .cli | .pha | .pla | .php | .plp
  | .rts | .rti => true
  | _ => false

/-- **The forms of lines in entry and exit sequences.** -/
inductive Framing : Line → Prop
  | label (name : String) : Framing (.label name)
  | bare {opcode : Opcode} : isFraming opcode = true → Framing (.bare opcode)
  | reserve (n : UInt8) : Framing (.op .sbc (.byte n))
  | release (n : UInt8) : Framing (.op .adc (.byte n))
  | loadCell (cell : UInt8) : Framing (.op .lda (.zeroPage cell))
  | storeCell (cell : UInt8) : Framing (.op .sta (.zeroPage cell))
  | loadSlot (r : Register) (name : String) (k : ℕ) :
    Framing (.op (SaveScheme.loadOp r) (SaveScheme.slot name k))
  | storeSlot (r : Register) (name : String) (k : ℕ) :
    Framing (.op (SaveScheme.storeOp r) (SaveScheme.slot name k))
  | storeFrame (base : UInt16) : Framing (.op .sta (.absoluteX (.absolute base)))

theorem framing_bares (opcodes : List Opcode) (h : opcodes.all isFraming = true) :
    ∀ line ∈ opcodes.map Line.bare, Framing line := by
  intro line hline
  obtain ⟨opcode, hmem, rfl⟩ := List.mem_map.mp hline
  exact .bare (List.all_eq_true.mp h opcode hmem)

theorem framing_append {front back : List Line} (h : ∀ line ∈ front, Framing line)
    (h' : ∀ line ∈ back, Framing line) : ∀ line ∈ front ++ back, Framing line :=
  List.forall_mem_append.mpr ⟨h, h'⟩

theorem framing_reserve (n : UInt8) : ∀ line ∈ (Sequence.reserve n).code, Framing line := by
  unfold Sequence.reserve
  split
  · exact fun _ hline => (List.not_mem_nil hline).elim
  · simp only [Sequence.moveSP, List.forall_mem_cons]
    exact ⟨.bare rfl, .bare rfl, .bare rfl, .reserve n, .bare rfl, .bare rfl, by simp⟩

theorem framing_release (n : UInt8) : ∀ line ∈ (Sequence.release n).code, Framing line := by
  unfold Sequence.release
  split
  · exact fun _ hline => (List.not_mem_nil hline).elim
  · simp only [Sequence.moveSP, List.forall_mem_cons]
    exact ⟨.bare rfl, .bare rfl, .bare rfl, .release n, .bare rfl, .bare rfl, by simp⟩

theorem framing_saving (scheme : SaveScheme) : ∀ line ∈ scheme.prologue.code, Framing line := by
  intro line hline
  cases scheme with
  | area name regs cells =>
    simp only [SaveScheme.prologue, code_ofLines, List.mem_append, List.mem_map, List.mem_flatMap,
      List.mem_cons, List.not_mem_nil, or_false] at hline
    obtain ⟨⟨k, r⟩, _, rfl⟩ | ⟨⟨k, cell⟩, _, rfl | rfl⟩ := hline
    · exact .storeSlot r name k
    · exact .loadCell cell
    · exact .storeSlot .a name k
  | stacked cells =>
    simp only [SaveScheme.prologue, code_ofLines, List.mem_append, List.mem_flatMap, List.mem_cons,
      List.not_mem_nil, or_false] at hline
    obtain hsaved | ⟨cell, _, rfl | rfl⟩ := hline
    · obtain rfl | rfl | rfl | rfl | rfl | rfl := hsaved <;> exact .bare rfl
    · exact .loadCell cell
    · exact .bare rfl

theorem framing_restoring (scheme : SaveScheme) : ∀ line ∈ scheme.epilogue.code, Framing line := by
  intro line hline
  cases scheme with
  | area name regs cells =>
    simp only [SaveScheme.epilogue, code_ofLines, List.mem_append, List.mem_map, List.mem_flatMap,
      List.mem_cons, List.not_mem_nil, or_false] at hline
    obtain (⟨⟨k, cell⟩, _, rfl | rfl⟩ | ⟨⟨k, r⟩, _, rfl⟩) | rfl := hline
    · exact .loadSlot .a name k
    · exact .storeCell cell
    · exact .loadSlot r name k
    · exact .bare rfl
  | stacked cells =>
    simp only [SaveScheme.epilogue, code_ofLines, List.mem_append, List.mem_flatMap, List.mem_cons,
      List.not_mem_nil, or_false, List.mem_reverse] at hline
    obtain ⟨cell, _, rfl | rfl⟩ | hsaved := hline
    · exact .bare rfl
    · exact .storeCell cell
    · obtain rfl | rfl | rfl | rfl | rfl | rfl | rfl := hsaved <;> exact .bare rfl

/-- **Entry sequences** are made of such lines. -/
theorem framing_prologue (b : Binding) (frameBytes : UInt8) (saves : Clobbers) :
    ∀ line ∈ (Convention.prologue b frameBytes saves).code, Framing line := by
  have hlabel : ∀ line ∈ [Line.label b.name], Framing line :=
    List.forall_mem_singleton.mpr (.label b.name)
  have hreserve := framing_reserve frameBytes
  unfold Convention.prologue
  cases b.entry with
  | subroutine => exact framing_append hlabel hreserve
  | interrupt => exact framing_append (framing_append hlabel (framing_saving _)) hreserve
  | nestedInterrupt =>
    exact framing_append (framing_append (framing_append hlabel (framing_saving _)) hreserve)
      (framing_bares [.cli] rfl)

/-- **Exit sequences** are made of such lines. -/
theorem framing_epilogue (b : Binding) (frameBytes : UInt8) (saves : Clobbers) :
    ∀ line ∈ (Convention.epilogue b frameBytes saves).code, Framing line := by
  have hrelease := framing_release
  unfold Convention.epilogue
  cases b.entry with
  | subroutine =>
    unfold Sequence.releaseAndReturn
    dsimp only
    split
    · exact framing_bares [.rts] rfl
    · cases b.returnKind with
      | void | struct _ =>
        exact framing_append (hrelease _) (framing_bares [.rts] rfl)
      | byte =>
        exact framing_append (framing_append (framing_bares [.tay] rfl) (hrelease _))
          (framing_bares [.tya, .rts] rfl)
      | word =>
        have hsaving : ∀ line ∈ [Line.bare .tay, .bare .txa, .bare .tsx,
            .op .sta (.absoluteX (.absolute (0x0100 + frameBytes.toUInt16)))], Framing line := by
          simp only [List.forall_mem_cons]
          exact ⟨.bare rfl, .bare rfl, .bare rfl, .storeFrame _, by simp⟩
        exact framing_append (framing_append hsaving (hrelease _))
          (framing_bares [.pla, .tax, .tya, .rts] rfl)
  | interrupt => exact framing_append (hrelease _) (framing_restoring _)
  | nestedInterrupt =>
    exact framing_append (framing_append (framing_bares [.sei] rfl) (hrelease _))
      (framing_restoring _)

/-! ### Functions of a program -/

variable {x : Compilation} {program : Program}

/-- Whatever is allocated comes from the selected code and the binding of its name. -/
def AllocatedWell (x : Compilation) (progress : Progress) : Prop :=
  ∀ (name : String) a, progress.allocated[name]? = some a → ∃ s b callClobbers,
    x.selected[name]? = some s ∧ x.bindings[name]? = some b ∧
      allocate x.convention.zeroPage s b callClobbers = .ok a

theorem AllocatedWell.allocateFunction {state state' : Progress} (h : AllocatedWell x state)
    {name : String} (hstep : x.allocateFunction state name = .ok state') : AllocatedWell x state' := by
  unfold Compilation.allocateFunction at hstep
  split at hstep
  · rename_i s b hs hb
    obtain ⟨a, ha, hstep⟩ := bind_eq_ok.mp hstep
    cases hstep
    intro other a' ha'
    rw [Std.TreeMap.getElem?_insert] at ha'
    split at ha'
    · rename_i heq
      cases ha'
      rw [← Std.LawfulEqCmp.eq_of_compare heq]
      exact ⟨s, b, _, hs, hb, ha⟩
    · exact h other a' ha'
  · cases hstep
    exact h

theorem allocatedWell {progress : Progress} (h : x.allocateAll program = .ok progress) :
    AllocatedWell x progress := by
  refine foldlM_invariant h (fun _ state => AllocatedWell x state) (fun _ _ h => by simp at h) ?_
  intro done component rest state state' _ hwell hstep
  obtain ⟨middle, hmiddle, hclose⟩ := bind_eq_ok.mp hstep
  have hfunctions : AllocatedWell x middle :=
    foldlM_invariant hmiddle (fun _ state => AllocatedWell x state) hwell
      fun _ _ _ _ _ _ h hfunction => h.allocateFunction hfunction
  split at hclose <;> cases hclose <;> exact hfunctions

/-- A function of a program, with what comes of it in a compilation. -/
structure Built (target : Target) (options : Options) (s : Stages) (f : FunctionDef) (b : Binding)
    (code : SelectedCode) (a : AllocatedCode) : Prop where
  bound : s.compilation.bindings[f.name]? = some b
  name : b.name = f.name
  selected : selectFunction (conventionOf target options) s.compilation.bindings options.limits f =
    .ok code
  allocated : s.progress.allocated[f.name]? = some a
  from_ : ∃ callClobbers, allocate options.zeroPage code b callClobbers = .ok a

variable {target : Target} {options : Options} {s : Stages}

/-- The bindings of a compilation come from signatures. -/
theorem bound_of_passed (h : Passed target options program s) :
    Selecting.Bodies.Bound (conventionOf target options) s.compilation.bindings := by
  intro name b hb
  obtain ⟨f, -, -, hbind⟩ := (start_spec h.started).bindings.mem_of_get name b hb
  exact ⟨f, hbind⟩

theorem built_of_emitted (h : Passed target options program s) {f : FunctionDef}
    (hf : f ∈ defined program) {b : Binding} {a : AllocatedCode}
    (ha : s.progress.allocated[f.name]? = some a) (hb : s.compilation.bindings[f.name]? = some b) :
    ∃ code, Built target options s f b code a := by
  have hstart := start_spec h.started
  obtain ⟨code, b', callClobbers, hcode, hb', hallocate⟩ := allocatedWell h.allocated f.name a ha
  rw [hb] at hb'
  cases hb'
  obtain ⟨code', hselect, hcode'⟩ := hstart.selected.get_of_mem f hf
  rw [hcode] at hcode'
  cases hcode'
  rw [hstart.convention_eq] at hallocate
  obtain ⟨d, -, hd, hbind⟩ := hstart.bindings.mem_of_get f.name b hb
  exact ⟨code, hb, (bind_spec hbind).1.trans hd, hselect, ha, callClobbers, hallocate⟩

/-- **What an emitted function is**: a support routine, or the entry sequence, the allocated code
and the exit sequence of a function of the program. -/
inductive Origin (target : Target) (options : Options) (p : Program) (s : Stages) :
    EmittedFunction → Prop
  | routine (r : Routine) (emitted : EmittedFunction) : r ∈ s.compilation.routines →
    emitted.code = r.code options.zeroPage options.map.bankSelect →
    Origin target options p s emitted
  | function (f : FunctionDef) (b : Binding) (code : SelectedCode) (a : AllocatedCode) :
    f ∈ defined p → Built target options s f b code a →
    Origin target options p s (functionOf b a.frameBytes (s.saving.saves.getD f.name {}) a.code)

/-- **Every emitted function** has an origin. -/
theorem origin_of_emitted (h : Passed target options program s) {emitted : EmittedFunction}
    (hemitted : emitted ∈ s.emission.functions) : Origin target options program s emitted := by
  have hconvention := (start_spec h.started).convention_eq
  rcases mem_emitted h hemitted with ⟨r, hr, rfl⟩ | ⟨f, hf, a, b, ha, hb, rfl⟩
  · refine .routine r _ hr ?_
    change r.code s.compilation.convention.zeroPage s.compilation.convention.bankSelect = _
    rw [hconvention]
    rfl
  · obtain ⟨code, hbuilt⟩ := built_of_emitted h hf ha hb
    exact .function f b code a hf hbuilt

/-- **Every function with a body** is emitted. -/
theorem exists_built (h : Passed target options program s) {f : FunctionDef}
    (hf : f ∈ defined program) : ∃ b code a, Built target options s f b code a ∧
      functionOf b a.frameBytes (s.saving.saves.getD f.name {}) a.code ∈ s.emission.functions := by
  obtain ⟨emitted, hemitted, a, b, ha, hb, rfl⟩ := emitted_of_defined h hf
  obtain ⟨code, hbuilt⟩ := built_of_emitted h hf ha hb
  exact ⟨b, code, a, hbuilt, hemitted⟩

/-- The lines of an emitted function stand in one of its parts. -/
theorem mem_functionOf {b : Binding} {frameBytes : UInt8} {saves : Clobbers} {body : List Line}
    {line : Line} : line ∈ (functionOf b frameBytes saves body).code ↔
      line ∈ (Convention.prologue b frameBytes saves).code ∨ line ∈ body ∨
        line ∈ (Convention.epilogue b frameBytes saves).code := by
  unfold functionOf
  rw [List.mem_append, List.mem_append, or_assoc]

end Codegen6502.Proofs.Emitting.Origins
