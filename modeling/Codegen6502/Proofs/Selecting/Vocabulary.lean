import Codegen6502.Proofs.Selecting.Bodies

/-!
# The lines that selection uses

Selected code is made of few forms of lines (`Worded`): instructions that work on A and a byte,
stores, steps and shifts of a byte of memory, and the instructions of calls and branches.  The
zero-page cells that they name are those of a set; what must be in it are the cells of the scratch
pointer, of the argument slots that are used, and of the places that the program names.

That every line of a draft is of one of these forms (`Spoken`) is an invariant of lowering: `Speaks`
says of a step that it keeps it.  This module goes through the steps that work on bytes and through
the candidates that nodes choose from.
-/

namespace Codegen6502.Proofs.Selecting.Vocabulary

open Selection Places Growth Nodes Bodies Shapes

variable {α β : Type} {c : Context} {may : UInt8 → Prop}

/-! ### Forms of lines -/

/-- An operand that stands for a byte. -/
def Byte : Operand → Prop
  | .immediate _ | .zeroPage _ | .absolute _ | .virtual _ | .frame _ => True
  | _ => False

/-- An operand that stands for a byte of memory which may be written. -/
structure Cell (may : UInt8 → Prop) (operand : Operand) : Prop where
  byte : Byte operand
  memory : operand.isMemory = true
  cell : ∀ cell, operand = .zeroPage cell → may cell

/-- The instructions that read a byte into A or compare it with A. -/
def isReading : Opcode → Bool
  | .lda | .adc | .sbc | .and | .ora | .eor | .cmp => true
  | _ => false

/-- The instructions without operand that selection uses. -/
def isBare : Opcode → Bool
  | .clc | .sec | .pha | .pla | .tax | .tay | .txa | .tya | .tsx | .inx | .asl | .lsr | .ror => true
  | _ => false

/-- The instructions that load an index register. -/
def isIndexing : Opcode → Bool
  | .ldx | .ldy => true
  | _ => false

/-- **The forms of lines in selected code**, with the zero-page cells that they may name. -/
inductive Worded (may : UInt8 → Prop) : Line → Prop
  | bare {opcode : Opcode} (hop : isBare opcode = true) : Worded may (.bare opcode)
  | read {opcode : Opcode} {operand : Operand} (hop : isReading opcode = true)
      (hbyte : Byte operand) : Worded may (.op opcode operand)
  | readBehind {opcode : Opcode} (pointer : UInt8) (hop : isReading opcode = true) :
      Worded may (.op opcode (.indirectY pointer))
  | store {operand : Operand} (hcell : Cell may operand) : Worded may (.op .sta operand)
  | storeBehind (pointer : UInt8) : Worded may (.op .sta (.indirectY pointer))
  | change {opcode : Opcode} {operand : Operand} (hop : opcode.isReadModifyWrite = true)
      (hcell : Cell may operand) : Worded may (.op opcode operand)
  | index {opcode : Opcode} (value : Immediate) (hop : isIndexing opcode = true) :
      Worded may (.op opcode (.immediate value))
  | storeX {cell : UInt8} (hcell : may cell) : Worded may (.op .stx (.zeroPage cell))
  | branch {opcode : Opcode} (target : String) (hop : opcode.isBranch = true) :
      Worded may (.branch opcode target)
  | jump (address : Address) : Worded may (.op .jmp (.absolute address))
  | call (address : Address) : Worded may (.op .jsr (.absolute address))
  | label (name : String) : Worded may (.label name)

/-! ### Drafts -/

/-- A draft whose lines are of these forms.  The scratch pointer is at cells that may be named. -/
structure Spoken (may : UInt8 → Prop) (d : Draft) : Prop where
  lo : may d.pointerCell
  hi : may (d.pointerCell + 1)
  lines : ∀ line ∈ d.code, Worded may line

namespace Spoken

variable {d d' : Draft}

theorem congr (h : Spoken may d) (hcode : d'.code = d.code) (hcell : d'.pointerCell = d.pointerCell) :
    Spoken may d' := ⟨hcell ▸ h.lo, hcell ▸ h.hi, hcode ▸ h.lines⟩

theorem push (h : Spoken may d) {line : Line} (hline : Worded may line) :
    Spoken may (d.push line) := by
  refine ⟨h.lo, h.hi, fun other hother => ?_⟩
  rcases List.mem_append.mp hother with hmem | hmem
  · exact h.lines other hmem
  · rw [List.mem_singleton.mp hmem]
    exact hline

theorem fork (h : Spoken may d) : Spoken may d.fork :=
  ⟨h.lo, h.hi, fun _ hline => (List.not_mem_nil hline).elim⟩

theorem commit (h : Spoken may d) (h' : Spoken may d') : Spoken may (d.commit d') := by
  refine ⟨h.lo, h.hi, fun line hline => ?_⟩
  rcases List.mem_append.mp hline with hmem | hmem
  · exact h.lines line hmem
  · exact h'.lines line hmem

theorem read (h : Spoken may d) {opcode : Opcode} {operand : Operand} (hbyte : Byte operand)
    (hop : isReading opcode = true) : Spoken may (d.op opcode operand) := h.push (.read hop hbyte)

theorem bare (h : Spoken may d) {opcode : Opcode} (hop : isBare opcode = true) :
    Spoken may (d.bare opcode) := h.push (.bare hop)

theorem newVReg (h : Spoken may d) : Spoken may d.newVReg.2 := h.congr rfl rfl

end Spoken

/-- A location whose operand, if it is read or written directly, is of a form. -/
def Cited (form : Operand → Prop) : ByteLoc → Prop
  | .direct operand => form operand
  | .indirect .. => True

theorem Cited.mono {form form' : Operand → Prop} {loc : ByteLoc} (h : Cited form loc)
    (hle : ∀ operand, form operand → form' operand) : Cited form' loc := by
  cases loc with
  | direct operand => exact hle operand h
  | indirect pointer offset => trivial

theorem byte_virtual (v : VReg) : Byte (.virtual v) := trivial

theorem byte_zeroPage (cell : UInt8) : Byte (.zeroPage cell) := trivial

theorem byte_immediate (value : Immediate) : Byte (.immediate value) := trivial

theorem cited_indirect (form : Operand → Prop) (pointer : PointerPair) (offset : UInt8) :
    Cited form (.indirect pointer offset) := trivial

theorem cell_virtual (v : VReg) : Cell may (.virtual v) := ⟨trivial, rfl, fun _ h => by cases h⟩

theorem cell_zeroPage {cell : UInt8} (h : may cell) : Cell may (.zeroPage cell) :=
  ⟨trivial, rfl, fun _ heq => by cases heq; exact h⟩

theorem Cell.mono {may' : UInt8 → Prop} {operand : Operand} (h : Cell may operand)
    (hle : ∀ cell, may cell → may' cell) : Cell may' operand :=
  ⟨h.byte, h.memory, fun cell heq => hle cell (h.cell cell heq)⟩

theorem cited_vreg (v : VReg) : Cited (Cell may) (.vreg v) := cell_virtual v

theorem Cited.toByte {loc : ByteLoc} (h : Cited (Cell may) loc) : Cited Byte loc :=
  h.mono fun _ => Cell.byte

theorem byte_vreg (v : VReg) : Cited Byte (.vreg v) := trivial

theorem byte_constant (value : UInt8) : Cited Byte (.byte value) := trivial

section Drafts

variable {d d' : Draft} {loc : ByteLoc}

theorem spoken_loadOperand (h : Spoken may d) {operand : Operand} (hbyte : Byte operand) :
    Spoken may (d.loadOperand operand) := by
  unfold Draft.loadOperand
  split
  · exact h
  · exact h.read hbyte rfl

theorem spoken_setPointer (h : Spoken may d) (pointer : PointerPair) :
    Spoken may (d.setPointer pointer) := by
  have hload : ∀ {d : Draft} (v : VReg), Spoken may d → Spoken may (d.loadOperand (.virtual v)) :=
    fun v hd => spoken_loadOperand hd trivial
  have hlo : Spoken may ((d.loadOperand (.virtual pointer.1)).op .sta (.zeroPage d.pointerCell)) :=
    (hload _ h).push (.store (cell_zeroPage h.lo))
  unfold Draft.setPointer
  split
  · exact h
  · refine Spoken.congr (d := _) ((hload pointer.2 hlo).push (.store (cell_zeroPage ?_))) rfl rfl
    have hcell : ((d.loadOperand (.virtual pointer.1)).op .sta
        (.zeroPage d.pointerCell)).pointerCell = d.pointerCell := by
      unfold Draft.loadOperand
      split <;> rfl
    change may (_ + 1)
    rw [hcell]
    exact h.hi

theorem spoken_setY (h : Spoken may d) (value : UInt8) : Spoken may (d.setY value) := by
  unfold Draft.setY
  split
  · exact h
  · exact h.push (.index _ rfl)

theorem spoken_loadA (h : Spoken may d) (hloc : Cited Byte loc) : Spoken may (d.loadA loc) := by
  cases loc with
  | direct operand => exact spoken_loadOperand h hloc
  | indirect pointer offset =>
    exact (spoken_setY (spoken_setPointer h pointer) offset).push (.readBehind _ rfl)

theorem spoken_storeA (h : Spoken may d) (hloc : Cited (Cell may) loc) (hok : d.storeA loc = .ok d') :
    Spoken may d' := by
  cases loc with
  | direct operand =>
    simp only [Draft.storeA] at hok
    split at hok
    · cases hok
      exact h.push (.store hloc)
    · cases hok
  | indirect pointer offset =>
    have haim : Spoken may (Tracking.aim d pointer) := by
      unfold Tracking.aim
      split
      · exact h
      · have hkept := h.newVReg.push (.store (cell_virtual d.newVReg.1))
        exact (spoken_setPointer hkept pointer).read (byte_virtual d.newVReg.1) rfl
    cases hok
    exact (spoken_setY haim offset).push (.storeBehind _)

theorem spoken_compute (h : Spoken may d) (hloc : Cited Byte loc) {opcode : Opcode}
    (hop : isReading opcode = true) (hok : d.compute opcode loc = .ok d') : Spoken may d' := by
  cases loc with
  | direct operand =>
    cases hok
    exact h.read hloc hop
  | indirect pointer offset =>
    simp only [Draft.compute] at hok
    split at hok
    · cases hok
      exact (spoken_setY h offset).push (.readBehind _ hop)
    · cases hok

theorem spoken_test (h : Spoken may d) (hloc : Cited Byte loc) : Spoken may (d.test loc) := by
  cases loc with
  | direct operand =>
    unfold Draft.test
    simp only
    split
    · exact h
    · exact h.read hloc rfl
  | indirect pointer offset => exact spoken_loadA h hloc

theorem spoken_materialize {loc' : ByteLoc} (h : Spoken may d) (hloc : Cited Byte loc)
    (hok : d.materialize loc = .ok (loc', d')) : Spoken may d' ∧ Cited Byte loc' := by
  unfold Draft.materialize at hok
  split at hok
  · simp only at hok
    split at hok
    · rename_i d₁ hstore
      cases hok
      exact ⟨spoken_storeA (spoken_loadA h.newVReg hloc) (cited_vreg _) hstore, byte_vreg _⟩
    · cases hok
  · cases hok
    exact ⟨h, hloc⟩

end Drafts

/-! ### Steps -/

/-- **A step that keeps to the forms**, and gives a result with `Q`. -/
def Speaks (may : UInt8 → Prop) (c : Context) (m : Lower α) (Q : α → Prop) : Prop :=
  ∀ st a st', m c st = .ok (a, st') → Spoken may st.draft → Spoken may st'.draft ∧ Q a

namespace Speaks

variable {m : Lower α} {f : α → Lower β} {Q Q' : α → Prop} {R : β → Prop}

theorem imp (h : Speaks may c m Q) (hQ : ∀ a, Q a → Q' a) : Speaks may c m Q' :=
  fun st a st' hok hst => (h st a st' hok hst).imp_right (hQ a)

/-- A step that fails. -/
theorem fail (h : ∀ st, ∃ e, m c st = .error e) : Speaks may c m Q := by
  intro st a st' hok _
  obtain ⟨e, he⟩ := h st
  rw [he] at hok
  cases hok

/-- A step that only looks. -/
theorem still (h : ∀ st a st', m c st = .ok (a, st') → st' = st ∧ Q a) : Speaks may c m Q := by
  intro st a st' hok hst
  obtain ⟨rfl, hq⟩ := h st a st' hok
  exact ⟨hst, hq⟩

theorem pure {a : α} (h : Q a) : Speaks may c (pure a) Q :=
  still fun st b st' hok => by obtain ⟨rfl, rfl⟩ := pure_ok.mp hok; exact ⟨rfl, h⟩

theorem read : Speaks may c (read : Lower Context) (· = c) :=
  still fun st b st' hok => by cases hok; exact ⟨rfl, rfl⟩

/-- **One step after the other.** -/
theorem next (h : Speaks may c m Q) (h' : ∀ a, Q a → Speaks may c (f a) R) :
    Speaks may c (m >>= f) R := by
  intro st b st' hok hst
  obtain ⟨a, st₁, hm, hf⟩ := bind_ok.mp hok
  obtain ⟨hst₁, hq⟩ := h st a st₁ hm hst
  exact h' a hq st₁ b st' hf hst₁

theorem mapM {as : List α} (h : ∀ a ∈ as, Speaks may c (f a) R) :
    Speaks may c (as.mapM f) fun bs => ∀ b ∈ bs, R b := by
  induction as with
  | nil => exact pure (by simp)
  | cons a rest ih =>
    rw [List.mapM_cons]
    refine (h a (List.mem_cons_self ..)).next fun b hb => ?_
    refine (ih fun x hx => h x (List.mem_cons_of_mem _ hx)).next fun bs hbs => ?_
    exact pure (by simpa using ⟨hb, hbs⟩)

theorem times {step : Lower Unit} (n : ℕ) (h : Speaks may c step fun _ => True) :
    Speaks may c (times n step) fun _ => True := by
  induction n with
  | zero => exact pure trivial
  | succ n ih => exact h.next fun _ _ => ih

end Speaks

section Steps

variable {Q : α → Prop} {loc : ByteLoc}

theorem speaks_invalid (problem : String) : Speaks may c (invalid problem : Lower α) Q :=
  .fail fun _ => ⟨_, rfl⟩

theorem speaks_unsupported (node : Node) : Speaks may c (unsupported node : Lower α) Q :=
  .fail fun _ => ⟨_, rfl⟩

theorem speaks_internal (problem : String) : Speaks may c (internal problem : Lower α) Q :=
  .fail fun _ => ⟨_, rfl⟩

theorem speaks_modifyDraft {f : Draft → Draft} (h : ∀ d, Spoken may d → Spoken may (f d)) :
    Speaks may c (modifyDraft f) fun _ => True := by
  intro st u st' hok hst
  cases hok
  exact ⟨h _ hst, trivial⟩

theorem speaks_tryDraft {f : Draft → Compile Draft}
    (h : ∀ d d', f d = .ok d' → Spoken may d → Spoken may d') :
    Speaks may c (tryDraft f) fun _ => True := by
  intro st u st' hok hst
  exact ⟨h _ _ (tryDraft_ok hok).1 hst, trivial⟩

theorem speaks_push {line : Line} (h : Worded may line) :
    Speaks may c (modifyDraft (·.push line)) fun _ => True :=
  speaks_modifyDraft fun _ hd => hd.push h

theorem speaks_bare {opcode : Opcode} (hop : isBare opcode = true) :
    Speaks may c (bare opcode) fun _ => True := speaks_push (.bare hop)

theorem speaks_read {opcode : Opcode} {operand : Operand} (hop : isReading opcode = true)
    (hbyte : Byte operand) : Speaks may c (op opcode operand) fun _ => True :=
  speaks_push (.read hop hbyte)

theorem speaks_constant {opcode : Opcode} {value : UInt8} (hop : isReading opcode = true) :
    Speaks may c (op opcode (.byte value)) fun _ => True := speaks_read hop trivial

theorem speaks_change {opcode : Opcode} {operand : Operand} (hop : opcode.isReadModifyWrite = true)
    (hcell : Cell may operand) : Speaks may c (op opcode operand) fun _ => True :=
  speaks_push (.change hop hcell)

theorem speaks_branch {opcode : Opcode} {target : String} (hop : opcode.isBranch = true) :
    Speaks may c (branch opcode target) fun _ => True := speaks_push (.branch target hop)

theorem speaks_jmp {target : String} : Speaks may c (jmp target) fun _ => True :=
  speaks_push (.jump _)

theorem speaks_label {name : String} : Speaks may c (label name) fun _ => True :=
  speaks_push (.label name)

theorem speaks_call {name : String} {target : CallTarget} :
    Speaks may c (call name target) fun _ => True := by
  refine speaks_modifyDraft fun d hd => ?_
  have hcalls : Spoken may { d with calls := d.calls ++ [(d.code.length, target)] } :=
    hd.congr rfl rfl
  exact hcalls.push (.call (.symbol name 0))

theorem speaks_callAddress {address : UInt16} {target : CallTarget} :
    Speaks may c (modifyDraft (·.callAddress address target)) fun _ => True := by
  refine speaks_modifyDraft fun d hd => ?_
  have hcalls : Spoken may { d with calls := d.calls ++ [(d.code.length, target)] } :=
    hd.congr rfl rfl
  exact hcalls.push (.call (.absolute address))

theorem speaks_uses {routine : Routine} :
    Speaks may c (modifyDraft (·.uses routine)) fun _ => True :=
  speaks_modifyDraft fun _ hd => hd.congr rfl rfl

theorem speaks_newVReg : Speaks may c newVReg fun _ => True := by
  intro st v st' hok hst
  cases hok
  exact ⟨hst.newVReg, trivial⟩

theorem speaks_newPair : Speaks may c newPair fun _ => True :=
  speaks_newVReg.next fun _ _ => speaks_newVReg.next fun _ _ => .pure trivial

theorem speaks_newLabel : Speaks may c newLabel fun _ => True := by
  intro st name st' hok hst
  obtain ⟨-, rfl⟩ := newLabel_ok hok
  exact ⟨hst, trivial⟩

theorem speaks_loadA (h : Cited Byte loc) : Speaks may c (loadA loc) fun _ => True :=
  speaks_modifyDraft fun _ hd => spoken_loadA hd h

theorem speaks_storeA (h : Cited (Cell may) loc) : Speaks may c (storeA loc) fun _ => True :=
  speaks_tryDraft fun _ _ hok hd => spoken_storeA hd h hok

theorem speaks_compute {opcode : Opcode} (hop : isReading opcode = true)
    (h : Cited Byte loc) : Speaks may c (compute opcode loc) fun _ => True :=
  speaks_tryDraft fun _ _ hok hd => spoken_compute hd h hop hok

theorem speaks_test (h : Cited Byte loc) : Speaks may c (test loc) fun _ => True :=
  speaks_modifyDraft fun _ hd => spoken_test hd h

theorem speaks_materialize (h : Cited Byte loc) :
    Speaks may c (materialize loc) (Cited Byte) := by
  intro st loc' st' hok hst
  exact spoken_materialize hst h (materialize_ok hok).1

/-! ### Candidates -/

theorem speaks_candidate {build : Lower Unit} (h : Speaks may c build fun _ => True) :
    Speaks may c (candidate build) (Spoken may) := by
  intro st d st' hok hst
  obtain ⟨st₁, hbuild, rfl, rfl⟩ := candidate_ok hok
  exact ⟨hst, (h _ _ _ hbuild hst.fork).1⟩

theorem speaks_commit {d : Draft} (h : Spoken may d) : Speaks may c (commit d) fun _ => True :=
  speaks_modifyDraft fun _ hd => hd.commit h

theorem speaks_commitOnly {build : Lower Unit} (h : Speaks may c build fun _ => True) :
    Speaks may c (commitOnly build) fun _ => True :=
  (speaks_candidate h).next fun _ hd => speaks_commit hd

/-- All candidates keep to the forms. -/
abbrev AllSpoken (may : UInt8 → Prop) (ds : List Draft) : Prop := ∀ d ∈ ds, Spoken may d

theorem allSpoken_nil : AllSpoken may [] := fun _ h => (List.not_mem_nil h).elim

theorem allSpoken_single {d : Draft} (h : Spoken may d) : AllSpoken may [d] := fun _ hmem =>
  List.mem_singleton.mp hmem ▸ h

theorem speaks_commitCheapest {candidates : List Draft} (h : AllSpoken may candidates) :
    Speaks may c (commitCheapest candidates) fun _ => True := by
  intro st u st' hok hst
  obtain ⟨d, hd, rfl⟩ := commitCheapest_ok hok
  exact ⟨hst.commit (h d hd), trivial⟩

/-- The only candidate of a list. -/
theorem speaks_single {m : Lower Draft} (h : Speaks may c m (Spoken may)) :
    Speaks may c (do return [← m]) (AllSpoken may) :=
  h.next fun _ hd => .pure (allSpoken_single hd)

end Steps

/-! ### Places and values -/

/-- A zero-page cell among the first bytes from a place on. -/
def Covers (place : Place) (size : ℕ) (cell : UInt8) : Prop :=
  ∃ i < size, place.displaced (UInt16.ofNat i) = .absolute cell.toUInt16

abbrev CitedAll (form : Operand → Prop) (locs : List ByteLoc) : Prop :=
  ∀ loc ∈ locs, Cited form loc

theorem CitedAll.mono {form form' : Operand → Prop} {locs : List ByteLoc} (h : CitedAll form locs)
    (hle : ∀ operand, form operand → form' operand) : CitedAll form' locs := fun loc hloc =>
  (h loc hloc).mono hle

theorem CitedAll.toByte {locs : List ByteLoc} (h : CitedAll (Cell may) locs) : CitedAll Byte locs :=
  h.mono fun _ => Cell.byte

theorem citedAll_vregs (vregs : List VReg) : CitedAll (Cell may) (vregs.map .vreg) := by
  intro loc hloc
  obtain ⟨v, -, rfl⟩ := List.mem_map.mp hloc
  exact cited_vreg v

/-- The bytes of constants. -/
theorem citedAll_constants (as : List α) (f : α → UInt8) :
    CitedAll Byte (as.map fun a => .byte (f a)) := by
  intro loc hloc
  obtain ⟨a, -, rfl⟩ := List.mem_map.mp hloc
  exact byte_constant _

theorem citedAll_pair {form : Operand → Prop} {lo hi : ByteLoc} (hlo : Cited form lo)
    (hhi : Cited form hi) : CitedAll form [lo, hi] := by
  intro loc hloc
  rcases List.mem_pair.mp hloc with rfl | rfl
  · exact hlo
  · exact hhi

section Values

variable {place : Place} {value : Value} {type : ValueType}

theorem speaks_tempInfo (x : Temp) : Speaks may c (tempInfo x) fun _ => True :=
  .still fun _ _ _ hok => ⟨(tempInfo_ok hok).1, trivial⟩

theorem speaks_destination (x : Temp) :
    Speaks may c (destination x) (CitedAll (Cell may)) := by
  refine .still fun st locs st' hok => ?_
  obtain ⟨rfl, rfl⟩ := destination_ok hok
  exact ⟨rfl, citedAll_vregs _⟩

theorem speaks_checkScalar (type : ValueType) (node : Node) :
    Speaks may c (checkScalar type node) fun _ => True :=
  .still fun _ _ _ hok => ⟨(Moves.checkScalar_ok hok).2, trivial⟩

theorem speaks_checkConstant (value : Int64) (type : ValueType) :
    Speaks may c (checkConstant value type) fun _ => True :=
  .still fun _ _ _ hok => ⟨(checkConstant_ok hok).1, trivial⟩

theorem speaks_iocbAddress (channel : UInt8) (field : IocbField) :
    Speaks may c (iocbAddress channel field) fun _ => True := by
  unfold iocbAddress
  split
  · exact .pure trivial
  · exact speaks_invalid _

theorem speaks_pointerOf (x : Temp) : Speaks may c (pointerOf x) fun _ => True :=
  .still fun _ _ _ hok => ⟨(pointerOf_ok hok).1, trivial⟩

theorem speaks_resultPointer : Speaks may c resultPointer fun _ => True :=
  .still fun _ _ _ hok => ⟨(resultPointer_ok hok).1, trivial⟩

/-- **A byte of a place** is in the zero page only if the place is. -/
theorem speaks_placeLoc (place : Place) : Speaks may c (placeLoc place)
    (Cited (Cell fun cell => place = .absolute cell.toUInt16)) := by
  have hplain : ∀ (may : UInt8 → Prop) (address : Address),
      Cited (Cell may) (.direct (.absolute address)) := fun _ _ =>
    ⟨trivial, rfl, fun _ h => by cases h⟩
  cases place with
  | absolute address =>
    refine .pure ?_
    split
    · rename_i hlt
      exact cell_zeroPage (by rw [toUInt16_toUInt8_of_lt hlt])
    · exact hplain _ _
  | global name offset => exact .pure (hplain _ _)
  | frameByte offset => exact .pure ⟨trivial, rfl, fun _ h => by cases h⟩
  | indirect base offset => exact (speaks_pointerOf base).next fun _ _ => .pure trivial
  | banked bank offset =>
    cases bank with
    | paged bank => exact .pure (hplain _ _)
    | common => exact speaks_invalid _
  | iocb channel field => exact (speaks_iocbAddress _ _).next fun _ _ => .pure (hplain _ _)
  | returnSlot offset => exact speaks_resultPointer.next fun _ _ => .pure trivial

theorem speaks_placeBytes (place : Place) (size : ℕ) :
    Speaks may c (placeBytes place size) (CitedAll (Cell (Covers place size))) :=
  .mapM fun i hi => (speaks_placeLoc _).imp fun _ hloc => hloc.mono fun _ hcell =>
    hcell.mono fun _ heq => ⟨i, List.mem_range.mp hi, heq⟩

theorem speaks_signByte {top : ByteLoc} (h : Cited Byte top) :
    Speaks may c (signByte top) (Cited Byte) := by
  refine speaks_newVReg.next fun v _ => (speaks_loadA h).next fun _ _ => ?_
  refine (speaks_bare rfl).next fun _ _ => (speaks_constant rfl).next fun _ _ => ?_
  refine (speaks_constant rfl).next fun _ _ => (speaks_constant rfl).next fun _ _ => ?_
  exact (speaks_storeA (cited_vreg v)).next fun _ _ => .pure (byte_vreg v)

/-- **The bytes of a value** can be read. -/
theorem speaks_valueBytes (value : Value) (type : ValueType) :
    Speaks may c (valueBytes value type) (CitedAll Byte) := by
  unfold valueBytes
  cases value with
  | constant value =>
    exact (speaks_checkConstant value type).next fun _ _ => .pure (citedAll_constants _ _)
  | temp x =>
    refine (speaks_tempInfo x).next fun info _ => ?_
    have hcells : CitedAll (Cell may) ((info.vregs.take type.size.toNat).map ByteLoc.vreg) :=
      citedAll_vregs _
    have hbytes := hcells.toByte
    have hall : ∀ (n : ℕ) (fill : ByteLoc), Cited Byte fill → CitedAll Byte
        ((info.vregs.take type.size.toNat).map ByteLoc.vreg ++ List.replicate n fill) := by
      intro n fill hfill loc hloc
      rcases List.mem_append.mp hloc with hmem | hmem
      · exact hbytes loc hmem
      · rw [(List.mem_replicate.mp hmem).2]
        exact hfill
    simp only
    split
    · split
      · split
        · exact (speaks_signByte (byte_vreg _)).next fun fill hfill => .pure (hall _ fill hfill)
        · exact Speaks.next (Q := fun _ => False) (speaks_internal _) fun _ h => h.elim
      · exact Speaks.next (Q := Cited Byte) (.pure trivial) fun fill hfill =>
          .pure (hall _ fill hfill)
    · exact .pure hbytes
  | memory place => exact (speaks_placeBytes place _).imp fun _ => CitedAll.toByte

theorem speaks_operandBytes (value : Value) (type : ValueType) :
    Speaks may c (operandBytes value type) (CitedAll Byte) :=
  (speaks_valueBytes value type).next fun _ hlocs => .mapM fun loc hloc =>
    speaks_materialize (hlocs loc hloc)

theorem speaks_copyBytes : ∀ srcs dsts : List ByteLoc, CitedAll Byte srcs →
    CitedAll (Cell may) dsts → Speaks may c (copyBytes srcs dsts) fun _ => True
  | [], dsts, _, _ => by unfold copyBytes; exact .pure trivial
  | src :: srcs, [], _, _ => by unfold copyBytes; exact .pure trivial
  | src :: srcs, dst :: dsts, hsrcs, hdsts => by
    obtain ⟨hsrc, hsrcs⟩ := List.forall_mem_cons.mp hsrcs
    obtain ⟨hdst, hdsts⟩ := List.forall_mem_cons.mp hdsts
    have hrest := speaks_copyBytes srcs dsts hsrcs hdsts
    unfold copyBytes
    split
    · exact (speaks_loadA hsrc).next fun _ _ => (speaks_storeA hdst).next fun _ _ => hrest
    · exact hrest

/-- A pointer plus an offset. -/
theorem speaks_pointerPlus (pointer : PointerPair) (offset : UInt8) :
    Speaks may c (pointerPlus pointer offset) fun pair => CitedAll Byte [pair.1, pair.2] := by
  have hpair : ∀ lo hi : VReg, CitedAll Byte [.vreg lo, .vreg hi] := fun lo hi =>
    citedAll_pair (byte_vreg lo) (byte_vreg hi)
  unfold pointerPlus
  split
  · exact .pure (hpair _ _)
  · refine speaks_newPair.next fun pair _ => (speaks_loadA (byte_vreg _)).next fun _ _ => ?_
    refine (speaks_bare rfl).next fun _ _ => (speaks_constant rfl).next fun _ _ => ?_
    refine (speaks_storeA (cited_vreg _)).next fun _ _ => ?_
    refine (speaks_loadA (byte_vreg _)).next fun _ _ => (speaks_constant rfl).next fun _ _ => ?_
    exact (speaks_storeA (cited_vreg _)).next fun _ _ => .pure (hpair _ _)

/-- **The address of a place** can be read. -/
theorem speaks_addressBytes (place : Place) (node : Node) :
    Speaks may c (addressBytes place node) fun pair => CitedAll Byte [pair.1, pair.2] := by
  cases place with
  | absolute address => exact .pure (citedAll_pair trivial trivial)
  | global name offset => exact .pure (citedAll_pair trivial trivial)
  | frameByte offset => exact speaks_unsupported node
  | banked bank offset => exact speaks_unsupported node
  | iocb channel field =>
    exact (speaks_iocbAddress _ _).next fun _ _ => .pure (citedAll_pair trivial trivial)
  | indirect base offset =>
    exact (speaks_pointerOf base).next fun pointer _ => speaks_pointerPlus pointer offset
  | returnSlot offset =>
    exact speaks_resultPointer.next fun pointer _ => speaks_pointerPlus pointer offset

end Values

end Codegen6502.Proofs.Selecting.Vocabulary
