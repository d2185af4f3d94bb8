import Codegen6502.Proofs.Emitting.Origins
import Codegen6502.Proofs.Emitting.Placing
import Codegen6502.Proofs.Emitting.Symbols
import Codegen6502.Proofs.Selecting.CellUse

/-!
# Encodable code

The processor has an opcode byte for every line that is emitted, and no operand from before
allocation is left.

* `encodable_of_worded`, `roomy_of_worded`: selected lines can be encoded, and those that access a
  virtual register or a frame byte can be encoded wherever that may come to live;
* `encodable_stems`: so can what allocation makes of them, whatever the locations;
* `encodable_prologue`, `encodable_epilogue`, `encodable_routine`: so can entry and exit sequences
  and support routines;
* `sound_assemble`: an emission of such lines is never refused for an encoding.
-/

namespace Codegen6502.Proofs.Emitting.Encoding

open Compilation Computations Calls.Pipeline Calls.Emitted Allocation
open Allocating.Outcomes (Meets meets_ok)
open Selecting.Bodies Selecting.Vocabulary Selecting.CellUse
open Origins Placing MachineCode

/-! ### Lines -/

/-- Whether the processor has an opcode byte for a line. -/
def isEncodable : Line → Bool
  | .op opcode operand => !operand.isPreAllocation && (opcode.encode operand.mode).isSome
  | .label _ | .comment _ => true

/-- Code that can be encoded. -/
def Encodable (code : List Line) : Prop := ∀ line ∈ code, isEncodable line = true

/-- Whether an instruction can access both a cell of the zero page and a byte behind X, which is
where a value may come to live outside registers. -/
def isRoomy (opcode : Opcode) : Bool :=
  (opcode.encode .zeroPage).isSome && (opcode.encode .absoluteX).isSome

theorem encodable_append {code code' : List Line} (h : Encodable code) (h' : Encodable code') :
    Encodable (code ++ code') := List.forall_mem_append.mpr ⟨h, h'⟩

theorem encodable_of_all {code : List Line} (h : code.all isEncodable = true) : Encodable code :=
  List.all_eq_true.mp h

variable {may : UInt8 → Prop} {line : Line} {opcode : Opcode} {operand : Operand}

theorem encode_reading (hop : isReading opcode = true) (hbyte : Byte operand) :
    (opcode.encode operand.mode).isSome = true := by
  cases opcode <;> cases hop <;> cases operand <;> first | rfl | exact hbyte.elim

theorem encode_cell (hcell : Cell may operand)
    (hop : opcode = .sta ∨ opcode.isReadModifyWrite = true) :
    (opcode.encode operand.mode).isSome = true := by
  obtain ⟨hbyte, hmemory, -⟩ := hcell
  rcases hop with rfl | hop
  · cases operand <;> first | rfl | exact hbyte.elim | cases hmemory
  · cases opcode <;> cases hop <;> cases operand <;> first | rfl | exact hbyte.elim | cases hmemory

/-- **Every form of selected line** has an opcode byte in the mode of its operand. -/
theorem encode_of_worded (h : Worded may line) (hline : line = .op opcode operand) :
    (opcode.encode operand.mode).isSome = true := by
  cases h with
  | @bare op hop => cases op <;> cases hop <;> cases hline <;> rfl
  | read hop hbyte =>
    cases hline
    exact encode_reading hop hbyte
  | @readBehind op pointer hop => cases op <;> cases hop <;> cases hline <;> rfl
  | store hcell =>
    cases hline
    exact encode_cell hcell (.inl rfl)
  | change hop hcell =>
    cases hline
    exact encode_cell hcell (.inr hop)
  | @index op value hop => cases op <;> cases hop <;> cases hline <;> rfl
  | @branch op target hop => cases op <;> cases hop <;> cases hline <;> rfl
  | storeBehind | storeX | jump | call => cases hline; rfl
  | label name => cases hline

theorem encodable_of_worded (h : Worded may line)
    (hplain : ∀ opcode operand, line = .op opcode operand → operand.isPreAllocation = false) :
    isEncodable line = true := by
  cases line with
  | op opcode operand =>
    have hpre := hplain opcode operand rfl
    simp [isEncodable, hpre, encode_of_worded h rfl]
  | label name => rfl
  | comment text => rfl

/-- **An access to a virtual register or a frame byte** can be encoded wherever that may live. -/
theorem roomy_of_worded (h : Worded may (.op opcode operand)) (hpre : operand.isPreAllocation = true) :
    isRoomy opcode = true := by
  generalize hline : Line.op opcode operand = line at h
  cases h with
  | @bare op hop => cases op <;> cases hop <;> cases hline <;> cases hpre
  | @read op _ hop hbyte =>
    cases hline
    cases opcode <;> cases hop <;> rfl
  | store hcell =>
    cases hline
    rfl
  | @change op _ hop hcell =>
    cases hline
    cases opcode <;> cases hop <;> rfl
  | readBehind | storeBehind | index | storeX | branch | jump | call | label =>
    cases hline <;> cases hpre

/-! ### Allocated code -/

theorem encodable_stems {code : List Line} {locations : Locations}
    (hworded : ∀ line ∈ code, Worded may line) (h : Stems code locations line) :
    isEncodable line = true := by
  cases h with
  | kept hmem hplain => exact encodable_of_worded (hworded _ hmem) hplain
  | @cell op v cell hmem hlocation =>
    have hroomy := roomy_of_worded (hworded _ hmem) rfl
    exact (Bool.and_eq_true_iff.mp hroomy).1
  | @indexed op operand address hmem hpre =>
    have hroomy := roomy_of_worded (hworded _ hmem) hpre
    exact (Bool.and_eq_true_iff.mp hroomy).2
  | @helper op hop => cases op <;> cases hop <;> rfl

/-! ### Sequences and routines -/

theorem encodable_of_framing (h : Framing line) : isEncodable line = true := by
  cases h with
  | @bare opcode hop => cases opcode <;> cases hop <;> rfl
  | loadSlot r name k | storeSlot r name k => cases r <;> rfl
  | label | reserve | release | loadCell | storeCell | storeFrame => rfl

/-- **Entry sequences** can be encoded, whatever the function, its frame and what it saves. -/
theorem encodable_prologue (b : Binding) (frameBytes : UInt8) (saves : Clobbers) :
    Encodable (Convention.prologue b frameBytes saves).code := fun line hline =>
  encodable_of_framing (framing_prologue b frameBytes saves line hline)

/-- **Exit sequences** can be encoded. -/
theorem encodable_epilogue (b : Binding) (frameBytes : UInt8) (saves : Clobbers) :
    Encodable (Convention.epilogue b frameBytes saves).code := fun line hline =>
  encodable_of_framing (framing_epilogue b frameBytes saves line hline)

/-- **Support routines** can be encoded. -/
theorem encodable_routine (r : Routine) (z : ZeroPage) (bankSelect : UInt16) :
    Encodable (r.code z bankSelect) := by
  cases r <;> exact encodable_of_all rfl

/-! ### Functions -/

/-- What a selected function and its allocation come to for the encoder. -/
structure EncodesAs (selected : SelectedCode) (b : Binding) (a : AllocatedCode) : Prop where
  body : Encodable a.code
  /-- A value in a register is only loaded and stored. -/
  plain : ∀ (v : VReg) (r : Register), a.locations[v.index]? = some (.reg r) →
    ∀ opcode, .op opcode (.virtual v) ∈ selected.code → opcode = .lda ∨ opcode = .sta
  entry : ∀ saves, Encodable (Convention.prologue b a.frameBytes saves).code
  exit : ∀ saves, Encodable (Convention.epilogue b a.frameBytes saves).code

/-- Under any set of cells, a node may store where it does. -/
theorem permits_all (z : ZeroPage) (node : Node) : Permits (fun _ => True) z node :=
  ⟨fun _ _ => trivial, fun _ _ => trivial⟩

/-- **A function that is selected and allocated** can be encoded. -/
theorem encodes_of_allocate {conv : Convention} {bindings : Std.TreeMap String Binding}
    {limits : Limits} {f : FunctionDef} {selected : SelectedCode} (hbound : Bound conv bindings)
    (hselect : selectFunction conv bindings limits f = .ok selected) {z : ZeroPage} {b : Binding}
    {callClobbers : Std.TreeMap ℕ Clobbers} {a : AllocatedCode}
    (h : allocate z selected b callClobbers = .ok a) : EncodesAs selected b a := by
  obtain ⟨own, hown, -⟩ := Selecting.FrameReach.bound_of_selected hselect hbound
  have hworded : ∀ line ∈ selected.code, Worded (fun _ => True) line :=
    worded_of_selected hselect hown hbound (fun _ _ => trivial) trivial trivial
      fun node _ => permits_all _ node
  refine ⟨fun line hline => encodable_stems hworded (stems_of_allocate h line hline),
    fun v r hr opcode hmem => ?_, encodable_prologue b _, encodable_epilogue b _⟩
  obtain ⟨live, moved, hlive, -⟩ := (Allocating.Scan.allocate_spec h).out
  obtain ⟨k, hk⟩ := List.mem_iff_getElem?.mp hmem
  exact (Allocating.Assignment.assigned_of_allocate h hlive).plain v r hr k opcode hk

/-! ### Errors of the encoder -/

/-- The errors of lines that cannot be encoded. -/
inductive Misencoded : CompileError → Prop
  | mode (opcode : Opcode) (mode : Mode) :
    Misencoded (.internal (opcode.mnemonic ++ " has no " ++ mode.text ++ " encoding"))
  | operand (line : Line) : Misencoded (.internal ("cannot encode '" ++ line.text ++ "'"))
  | branch (opcode : Opcode) : Misencoded (.internal (opcode.mnemonic ++ " is not a branch"))

/-- A computation that is not refused for an encoding. -/
abbrev Sound {α : Type} (c : Compile α) : Prop := Meets (fun error => ¬Misencoded error) c

theorem head_mnemonic (opcode : Opcode) :
    ∃ first, first ≠ '\'' ∧ opcode.mnemonic.toList.head? = some first := by
  cases opcode <;> exact ⟨_, by decide, rfl⟩

/-- A message that begins with a quoted name is none of these. -/
theorem not_misencoded_quoted (rest : String) : ¬Misencoded (.internal ("'" ++ rest)) := by
  intro h
  generalize herror : CompileError.internal ("'" ++ rest) = error at h
  have hquote : ("'" ++ rest).toList.head? = some '\'' := by
    rw [String.toList_append]
    rfl
  have hmnemonic : ∀ (opcode : Opcode) (tail : String), "'" ++ rest ≠ opcode.mnemonic ++ tail := by
    intro opcode tail heq
    obtain ⟨first, hfirst, hhead⟩ := head_mnemonic opcode
    rw [heq, String.toList_append, List.head?_append, hhead] at hquote
    exact hfirst (Option.some.inj hquote)
  cases h with
  | mode opcode mode =>
    rw [String.append_assoc, String.append_assoc] at herror
    exact hmnemonic opcode _ (CompileError.internal.inj herror)
  | branch opcode => exact hmnemonic opcode _ (CompileError.internal.inj herror)
  | operand line =>
    rw [CompileError.internal.inj herror, String.append_assoc, String.toList_append] at hquote
    cases hquote

section Sound

variable {α β : Type} {m : MemoryMap} {t : SymbolTable}

theorem sound_mapM {f : α → Compile β} :
    ∀ {as : List α}, (∀ a ∈ as, Sound (f a)) → Sound (as.mapM f)
  | [], _ => meets_ok rfl
  | a :: rest, h => by
    obtain ⟨ha, hrest⟩ := List.forall_mem_cons.mp h
    rw [List.mapM_cons]
    exact ha.bind fun b _ => (sound_mapM hrest).bind fun bs _ => meets_ok rfl

theorem sound_forM {f : α → Compile Unit} (h : ∀ a, Sound (f a)) : ∀ as : List α, Sound (as.forM f)
  | [] => meets_ok rfl
  | a :: rest => (h a).bind fun _ _ => sound_forM h rest

theorem sound_resolve (a : Address) : Sound (resolve m t a) := by
  have hsymbol : ∀ name, Sound (symbolAddress m t name) := by
    intro name error herror
    unfold symbolAddress at herror
    split at herror <;> cases herror
    rw [String.append_assoc]
    exact not_misencoded_quoted _
  cases a with
  | absolute value => exact meets_ok rfl
  | symbol name addend => exact (hsymbol name).bind fun _ _ => meets_ok rfl
  | label name => exact hsymbol name
  | bankRelative bank offset => exact meets_ok rfl

theorem opcodeByte_ok {mode : Mode} (h : (opcode.encode mode).isSome = true) :
    ∃ byte, opcodeByte opcode mode = .ok byte := by
  obtain ⟨byte, hbyte⟩ := Option.isSome_iff_exists.mp h
  refine ⟨byte, ?_⟩
  unfold opcodeByte
  rw [hbyte]

theorem sound_operandBytes {line : Line} (h : operand.isPreAllocation = false)
    (hbranch : ∀ label, operand ≠ .relative label) : Sound (operandBytes m t line operand) := by
  cases operand with
  | absolute a | absoluteX a | absoluteY a | indirect a =>
    exact (sound_resolve a).bind fun _ _ => meets_ok rfl
  | immediate value =>
    cases value with
    | byte b => exact meets_ok rfl
    | symbol name addend half => exact (sound_resolve _).bind fun _ _ => meets_ok rfl
  | implied | accumulator | zeroPage cell | indirectY cell => exact meets_ok rfl
  | relative label => exact absurd rfl (hbranch label)
  | virtual v | frame o => cases h

/-- A branch has an opposite one. -/
theorem inverted_of_relative (h : (opcode.encode .relative).isSome = true) :
    ∃ inverted, opcode.inverted? = some inverted ∧ (inverted.encode .relative).isSome = true := by
  cases opcode <;> cases h <;> exact ⟨_, rfl, rfl⟩

/-- **A line that can be encoded** is not refused for it. -/
theorem sound_lineBytes {p : PlacedLine} (h : isEncodable p.line = true) : Sound (lineBytes m t p) := by
  have hsplit : ∀ opcode operand, p.line = .op opcode operand →
      operand.isPreAllocation = false ∧ (opcode.encode operand.mode).isSome = true := by
    intro opcode operand hline
    rw [hline] at h
    simpa [isEncodable] using h
  unfold lineBytes
  split
  · rename_i opcode label hline
    obtain ⟨-, hmode⟩ := hsplit _ _ hline
    refine (sound_resolve _).bind fun target _ => ?_
    split
    · obtain ⟨inverted, hinverted, hopposite⟩ := inverted_of_relative hmode
      obtain ⟨byte, hbyte⟩ := opcodeByte_ok hopposite
      refine meets_ok (a := [byte, 3, 0x4C] ++ wordBytes target) ?_
      unfold longBranch
      rw [hinverted]
      dsimp only
      rw [hbyte]
      rfl
    · obtain ⟨byte, hbyte⟩ := opcodeByte_ok hmode
      unfold shortBranch
      rw [show opcodeByte opcode .relative = .ok byte from hbyte]
      exact meets_ok rfl
  · rename_i opcode operand hbranch hline
    obtain ⟨hplain, hmode⟩ := hsplit _ _ hline
    obtain ⟨byte, hbyte⟩ := opcodeByte_ok hmode
    rw [hbyte]
    exact (sound_operandBytes hplain fun label heq => hbranch label heq).bind fun _ _ => meets_ok rfl
  · exact meets_ok rfl

theorem sound_settle {e : Emission} : ∀ (bound : ℕ) (long : List Bool),
    Sound (Relaxation.settle e bound long) := by
  have hmake : ∀ long, Sound (Layout.make Layout.banked e long) := by
    intro long error herror hmis
    rcases outcome_make Layout.banked e long with ⟨-, l, hl⟩ | ⟨-, name, hname⟩
    · rw [hl] at herror
      cases herror
    · rw [hname] at herror
      cases herror
      cases hmis
  intro bound
  induction bound with
  | zero => exact hmake
  | succ bound ih =>
    intro long
    unfold Relaxation.settle
    refine (hmake long).bind fun l _ => ?_
    dsimp only
    split
    · exact meets_ok rfl
    · exact ih _

theorem sound_checkCounted (l : Layout) : Sound l.checkCounted := by
  intro error herror hmis
  unfold Layout.checkCounted at herror
  split at herror <;> cases herror
  cases hmis

theorem sound_checkResolved (t : SymbolTable) : Sound t.checkResolved := by
  intro error herror hmis
  unfold SymbolTable.checkResolved at herror
  split at herror <;> cases herror
  cases hmis

theorem sound_checkBanks (l : Layout) : Sound (checkBanks l) := by
  intro error herror hmis
  unfold checkBanks at herror
  split at herror
  · rename_i fault hfault
    cases herror
    obtain ⟨p, -, hp⟩ := List.exists_of_findSome?_eq_some hfault
    unfold crossBankFault? at hp
    split at hp
    · dsimp only at hp
      split at hp
      · cases hp
        cases hmis
      · obtain ⟨symbol, -, hp⟩ := Option.bind_eq_some_iff.mp hp
        obtain ⟨d, -, hp⟩ := Option.bind_eq_some_iff.mp hp
        split_ifs at hp <;> cases hp <;> cases hmis
    · cases hp
  · cases herror

theorem sound_checkCapacity (m : MemoryMap) (l : Layout) : Sound (checkCapacity m l) := by
  refine sound_forM (fun segment error herror hmis => ?_) _
  unfold checkSegment at herror
  split at herror
  · split at herror <;> cases herror
    cases hmis
  · cases herror

/-- **An emission of lines that can be encoded** is not refused for an encoding. -/
theorem sound_assemble {e : Emission} (h : ∀ f ∈ e.functions, Encodable f.code) :
    Sound (assemble m e) := by
  unfold assemble
  refine (sound_settle _ _).bind fun l hl => (sound_checkCounted l).bind fun _ _ =>
    (sound_checkResolved _).bind fun _ _ => (sound_checkBanks l).bind fun _ _ =>
      (sound_checkCapacity m l).bind fun _ _ => (sound_mapM fun p hp => ?_).bind fun _ _ => meets_ok rfl
  have howners := (settled_of_layout hl).1.owners
  have hmem : (p.owner, p.line) ∈ e.lines := by
    rw [← howners]
    exact List.mem_map_of_mem hp
  obtain ⟨f, hf, hline⟩ := List.mem_flatMap.mp hmem
  obtain ⟨line, hline, heq⟩ := List.mem_map.mp hline
  obtain ⟨-, rfl⟩ := Prod.mk.inj heq
  exact (sound_lineBytes (h f hf _ hline)).bind fun _ _ => meets_ok rfl

end Sound

/-! ### Programs -/

variable {target : Target} {options : Options} {p : Program} {s : Stages}

/-- **All code of an emission** can be encoded. -/
theorem encodable_emitted (h : Passed target options p s) :
    ∀ f ∈ s.emission.functions, Encodable f.code := by
  intro emitted hemitted
  cases origin_of_emitted h hemitted with
  | routine r _ hr hcode =>
    rw [hcode]
    exact encodable_routine r _ _
  | function f b code a hf hbuilt =>
    obtain ⟨callClobbers, hallocate⟩ := hbuilt.from_
    have hencodes := encodes_of_allocate (bound_of_passed h) hbuilt.selected hallocate
    exact encodable_append (encodable_append (hencodes.entry _) hencodes.body) (hencodes.exit _)

/-- **Everything that reaches the encoder can be encoded**: allocated bodies, the sequences around
them and support routines; so the image of a program is never refused for an encoding. -/
theorem encoder_never_refuses :
    (∀ (conv : Convention) (bindings : Std.TreeMap String Binding) (limits : Limits) (f : FunctionDef)
      (selected : SelectedCode), Bound conv bindings →
      selectFunction conv bindings limits f = .ok selected →
      ∀ (z : ZeroPage) (b : Binding) (callClobbers : Std.TreeMap ℕ Clobbers) (a : AllocatedCode),
        allocate z selected b callClobbers = .ok a → EncodesAs selected b a) ∧
    (∀ (r : Routine) (z : ZeroPage) (bankSelect : UInt16), Encodable (r.code z bankSelect)) ∧
    ∀ (target : Target) (options : Options) (p : Program) (s : Stages),
      stages target options p = .ok s → ∀ (map : MemoryMap) (error : CompileError),
        s.emission.output .image map = .error error → ¬Misencoded error := by
  refine ⟨fun conv bindings limits f selected hbound hselect z b callClobbers a h =>
    encodes_of_allocate hbound hselect h, encodable_routine, fun target options p s h map => ?_⟩
  have hpassed := passed h
  have hassemble : Sound (assemble map s.emission) := sound_assemble (encodable_emitted hpassed)
  unfold Emission.output
  rw [Contents.closed_emitted hpassed]
  exact hassemble.bind fun a _ => meets_ok rfl

/-- A function that returns its parameter. -/
def echoFunction : FunctionDef where
  signature := { name := "f", params := [.u8], returnType := .u8 }
  params := [0]
  body := [.ret (some (.temp 0))]

/-- The program of this function alone. -/
def echoProgram : Program := { name := "m", functions := [echoFunction] }

/-- This program passes all stages, its function is selected and allocated, and all of it can be
encoded. -/
theorem echo_encodes : ∃ s code b a, stages .image {} echoProgram = .ok s ∧
    Built .image {} s echoFunction b code a ∧ EncodesAs code b a ∧
      ∀ map error, s.emission.output .image map = .error error → ¬Misencoded error := by
  have hany : (stages .image {} echoProgram).toOption.any (fun _ => true) = true := by decide +kernel
  obtain ⟨s, hs, -⟩ := ok_of_any hany
  have hpassed := passed hs
  obtain ⟨hfunctions, -, houtputs⟩ := encoder_never_refuses
  have hmem : echoFunction ∈ defined echoProgram := by decide
  obtain ⟨b, code, a, hbuilt, -⟩ := exists_built hpassed hmem
  obtain ⟨callClobbers, hallocate⟩ := hbuilt.from_
  have hencodes := hfunctions _ _ _ _ _ (bound_of_passed hpassed) hbuilt.selected _ _ _ _ hallocate
  exact ⟨s, code, b, a, hs, hbuilt, hencodes, houtputs _ _ _ _ hs⟩

end Codegen6502.Proofs.Emitting.Encoding
