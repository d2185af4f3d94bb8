import Codegen6502.Proofs.Allocating.Outcomes
import Codegen6502.Proofs.Emitting.Contents
import Codegen6502.Proofs.Selecting.Labelling

/-!
# The symbols of an emission

A target defines every label, data object and external symbol of an emission in one table, and
refuses a symbol that is there already.

* `output_definedAgain_iff`: that error comes if and only if a symbol stands twice among `symbols`;
* `labelsIn_allocated`: the labels of a function stay as they are when its registers are allocated;
* `symbols_emitted`: the symbols of a compiled program are the names that the program gives and
  those that are made up.
-/

namespace Codegen6502.Proofs.Emitting.Symbols

open Compilation Computations Calls.Pipeline Calls.Table Calls.Emitted Calls.Components
open Allocating Allocating.Blocks
open Selecting.Courses (labelsIn labelsIn_append mem_labelsIn)

/-! ### Other errors -/

/-- A computation that does not fail with the error of a symbol that is there already. -/
def NeverAgain {α : Type} (c : Compile α) : Prop := ∀ name, c ≠ .error (definedAgain name)

section Errors

variable {α β : Type}

theorem neverAgain_ok (a : α) : NeverAgain (.ok a : Compile α) := fun _ h => by cases h

theorem NeverAgain.bind {c : Compile α} {f : α → Compile β} (h : NeverAgain c)
    (h' : ∀ a, NeverAgain (f a)) : NeverAgain (c >>= f) := by
  cases c with
  | ok a => exact h' a
  | error error => exact fun name heq => h name (congrArg _ (Except.error.inj heq))

theorem neverAgain_mapM {f : α → Compile β} (h : ∀ a, NeverAgain (f a)) :
    ∀ as : List α, NeverAgain (as.mapM f)
  | [] => neverAgain_ok []
  | a :: rest => by
    rw [List.mapM_cons]
    exact (h a).bind fun b => (neverAgain_mapM h rest).bind fun bs => neverAgain_ok (b :: bs)

theorem neverAgain_forM {f : α → Compile Unit} (h : ∀ a, NeverAgain (f a)) :
    ∀ as : List α, NeverAgain (as.forM f)
  | [] => neverAgain_ok ()
  | a :: rest => (h a).bind fun _ => neverAgain_forM h rest

theorem neverAgain_checkCounted (l : Layout) : NeverAgain l.checkCounted := by
  intro again
  unfold Layout.checkCounted
  split <;> simp [definedAgain]

theorem neverAgain_checkResolved (t : SymbolTable) : NeverAgain t.checkResolved := by
  intro again
  unfold SymbolTable.checkResolved
  split <;> simp [definedAgain]

/-! ### Containers -/

open Container in
theorem neverAgain_reference (t : NameTable) (name : String) : NeverAgain (t.reference name) := by
  intro again
  unfold NameTable.reference
  split
  · split <;> simp [definedAgain]
  · simp [definedAgain]

open Container in
theorem neverAgain_addendBytes (addend : Int32) : NeverAgain (addendBytes addend) := by
  intro again
  unfold addendBytes
  split <;> simp [definedAgain]

open Container in
theorem neverAgain_lineRecord (t : NameTable) (line : Line) : NeverAgain (lineRecord t line) := by
  have href := neverAgain_reference t
  have haddress : ∀ a, NeverAgain (addressBytes t a)
    | .absolute _ | .bankRelative .. => neverAgain_ok _
    | .label _ => (href _).bind fun _ => neverAgain_ok _
    | .symbol _ addend => (href _).bind fun _ =>
      (neverAgain_addendBytes addend).bind fun _ => neverAgain_ok _
  have himmediate : ∀ i, NeverAgain (immediateBytes t i)
    | .byte _ => neverAgain_ok _
    | .symbol _ addend _ => (href _).bind fun _ =>
      (neverAgain_addendBytes addend).bind fun _ => neverAgain_ok _
  cases line with
  | label name => exact (href name).bind fun _ => neverAgain_ok _
  | comment text => exact neverAgain_ok _
  | op opcode operand =>
    refine NeverAgain.bind ?_ fun _ => neverAgain_ok _
    cases operand with
    | immediate value => exact himmediate value
    | absolute a | absoluteX a | absoluteY a | indirect a => exact haddress a
    | relative label => exact href label
    | implied | accumulator | zeroPage cell | indirectY cell => exact neverAgain_ok _
    | virtual v | frame o => exact fun again h => by cases h

open Container in
theorem neverAgain_dataRecord (t : NameTable) (o : DataObject) : NeverAgain (dataRecord t o) := by
  unfold dataRecord
  split
  · exact fun again h => by
      simp [throw, throwThe, MonadExceptOf.throw, bind, Except.bind, definedAgain] at h
  · exact (neverAgain_reference t o.name).bind fun _ => neverAgain_ok _

open Container in
theorem neverAgain_container (e : Emission) : NeverAgain (Container.bytes e) := by
  refine NeverAgain.bind (neverAgain_mapM (fun f => ?_) _) fun _ => NeverAgain.bind
    (neverAgain_mapM (neverAgain_dataRecord _) _) fun _ => NeverAgain.bind
      (neverAgain_mapM (fun x => ?_) _) fun _ => NeverAgain.bind ?_ fun _ => neverAgain_ok _
  · exact (neverAgain_reference _ _).bind fun _ =>
      (neverAgain_mapM (neverAgain_lineRecord _) _).bind fun _ => neverAgain_ok _
  · exact (neverAgain_reference _ _).bind fun _ => neverAgain_ok _
  · refine NeverAgain.bind (neverAgain_mapM (fun name => ?_) _) fun _ => neverAgain_ok _
    intro again
    unfold NameTable.nameBytes
    split <;> simp [definedAgain]

/-! ### Images -/

open MachineCode in
theorem crossBankFault?_ne {t : SymbolTable} {p : PlacedLine} {name : String} :
    crossBankFault? t p ≠ some (definedAgain name) := by
  unfold crossBankFault?
  cases p.line with
  | label _ | comment _ => exact fun h => by cases h
  | op opcode operand =>
    dsimp only
    split
    · exact fun h => by cases h
    · cases accessedSymbol? operand with
      | none => exact fun h => by cases h
      | some symbol =>
        dsimp only [bind, Option.bind]
        cases t.get? symbol with
        | none => exact fun h => by cases h
        | some d =>
          dsimp only
          split_ifs <;> simp [definedAgain]

open MachineCode in
theorem neverAgain_checkBanks (l : Layout) : NeverAgain (checkBanks l) := by
  intro again
  unfold checkBanks
  split
  · rename_i error herror
    rintro ⟨⟩
    obtain ⟨p, -, hfault⟩ := List.exists_of_findSome?_eq_some herror
    exact crossBankFault?_ne hfault
  · exact neverAgain_ok () again

open MachineCode in
theorem neverAgain_checkCapacity (m : MemoryMap) (l : Layout) : NeverAgain (checkCapacity m l) := by
  refine neverAgain_forM (fun segment again => ?_) _
  unfold checkSegment
  split
  · split <;> simp [definedAgain]
  · simp

open MachineCode in
theorem neverAgain_resolve (m : MemoryMap) (t : SymbolTable) (a : Address) :
    NeverAgain (resolve m t a) := by
  have hsymbol : ∀ name, NeverAgain (symbolAddress m t name) := fun name again => by
    unfold symbolAddress
    split <;> simp [definedAgain]
  cases a with
  | absolute value => exact neverAgain_ok _
  | symbol name addend => exact (hsymbol name).bind fun _ => neverAgain_ok _
  | label name => exact hsymbol name
  | bankRelative bank offset => exact neverAgain_ok _

open MachineCode in
theorem neverAgain_opcodeByte (opcode : Opcode) (mode : Mode) :
    NeverAgain (opcodeByte opcode mode) := by
  intro again
  unfold opcodeByte
  split <;> simp [definedAgain]

open MachineCode in
theorem neverAgain_lineBytes (m : MemoryMap) (t : SymbolTable) (p : PlacedLine) :
    NeverAgain (lineBytes m t p) := by
  have hlong : ∀ opcode target, NeverAgain (longBranch opcode target) := fun opcode target => by
    unfold longBranch
    split
    · exact (neverAgain_opcodeByte _ _).bind fun _ => (neverAgain_opcodeByte _ _).bind fun _ =>
        neverAgain_ok _
    · exact fun again h => by cases h
  have hoperand : ∀ line operand, NeverAgain (operandBytes m t line operand) := fun line operand => by
    cases operand with
    | absolute a | absoluteX a | absoluteY a | indirect a =>
      exact (neverAgain_resolve m t a).bind fun _ => neverAgain_ok _
    | immediate value =>
      cases value with
      | byte b => exact neverAgain_ok _
      | symbol name addend half =>
        exact (neverAgain_resolve m t _).bind fun _ => neverAgain_ok _
    | implied | accumulator | zeroPage cell | indirectY cell => exact neverAgain_ok _
    | relative label | virtual v | frame o => exact fun again h => by cases h
  unfold lineBytes
  split
  · refine (neverAgain_resolve m t _).bind fun target => ?_
    split
    · exact hlong _ _
    · exact (neverAgain_opcodeByte _ _).bind fun _ => neverAgain_ok _
  · exact (neverAgain_opcodeByte _ _).bind fun _ => (hoperand _ _).bind fun _ => neverAgain_ok _
  · exact neverAgain_ok _

end Errors

/-! ### The output -/

theorem settle_again {e : Emission} {bound : ℕ} {long : List Bool} {name : String}
    (h : Layout.make Layout.banked e long = .error (definedAgain name)) :
    Relaxation.settle e bound long = .error (definedAgain name) := by
  cases bound with
  | zero => exact h
  | succ bound =>
    unfold Relaxation.settle
    rw [h]
    rfl

theorem settle_ok {e : Emission} (h : (symbols e).Nodup) :
    ∀ (bound : ℕ) (long : List Bool), ∃ l, Relaxation.settle e bound long = .ok l
  | 0, long => ((outcome_make Layout.banked e long).resolve_right fun hnot => hnot.1 h).2
  | bound + 1, long => by
    obtain ⟨l, hl⟩ := ((outcome_make Layout.banked e long).resolve_right fun hnot => hnot.1 h).2
    unfold Relaxation.settle
    rw [hl]
    dsimp only [bind, Except.bind]
    split
    · exact ⟨l, rfl⟩
    · exact settle_ok h bound _

variable {e : Emission}

/-- **When a symbol is refused because it is there already**: when one stands twice in the
emission, whatever the target. -/
theorem output_definedAgain_iff (target : Target) (map : MemoryMap)
    (hclosed : e.checkClosed = .ok ()) :
    (∃ name, e.output target map = .error (definedAgain name)) ↔ ¬(symbols e).Nodup := by
  have houtput : ∀ f : Unit → Compile Output, (e.checkClosed >>= f) = f () := fun f => by
    rw [hclosed]
    rfl
  unfold Emission.output
  rw [houtput]
  constructor
  · rintro ⟨name, herror⟩ hnodup
    have hflat : ∀ produce : SymbolTable → Compile Artifact, (∀ t, NeverAgain (produce t)) →
        flatOutput target e produce ≠ .error (definedAgain name) := fun produce hproduce => by
      obtain ⟨l, hl⟩ := ((outcome_make Layout.flat e []).resolve_right fun hnot => hnot.1 hnodup).2
      unfold flatOutput Layout.ofFlat
      rw [hl]
      exact ((neverAgain_checkCounted l).bind fun _ => (neverAgain_checkResolved l.table).bind fun _ =>
        (hproduce l.table).bind fun _ => neverAgain_ok _) name
    cases target with
    | listing => exact hflat _ (fun _ => neverAgain_ok _) herror
    | container =>
      refine hflat _ (fun _ => ?_) herror
      exact (neverAgain_container e).bind fun bytes => neverAgain_ok (Artifact.container bytes)
    | nothing => exact hflat _ (fun _ => neverAgain_ok _) herror
    | image =>
      obtain ⟨l, hl⟩ := settle_ok hnodup _ _
      refine NeverAgain.bind (c := assemble map e) ?_ (fun _ => neverAgain_ok _) name herror
      unfold assemble Relaxation.layout
      rw [hl]
      exact (neverAgain_checkCounted l).bind fun _ => (neverAgain_checkResolved l.table).bind fun _ =>
        (neverAgain_checkBanks l).bind fun _ => (neverAgain_checkCapacity map l).bind fun _ =>
          (neverAgain_mapM (fun p => (neverAgain_lineBytes map l.table p).bind fun _ =>
            neverAgain_ok _) _).bind fun _ => neverAgain_ok _
  · intro hnot
    have hmake : ∀ areas long, ∃ name, Layout.make areas e long = .error (definedAgain name) :=
      fun areas long => ((outcome_make areas e long).resolve_left fun h => hnot h.1).2
    have hflat : ∀ produce, ∃ name, flatOutput target e produce = .error (definedAgain name) :=
      fun produce => by
        obtain ⟨name, hname⟩ := hmake Layout.flat []
        refine ⟨name, ?_⟩
        unfold flatOutput Layout.ofFlat
        rw [hname]
        rfl
    cases target with
    | listing => exact hflat _
    | container => exact hflat _
    | nothing => exact hflat _
    | image =>
      obtain ⟨name, hname⟩ := hmake Layout.banked (e.lines.map fun _ => false)
      refine ⟨name, ?_⟩
      dsimp only
      unfold assemble Relaxation.layout
      rw [settle_again hname]
      rfl

/-! ### The labels of a function -/

theorem labelsIn_placed {p : Allocation.Placement} {view view' : Allocation.StackView} {k : ℕ}
    {line : Line} {lines : List Line} (h : PlacedAs p view k line lines view') :
    labelsIn lines = labelsIn [line] := by
  have hnone : (∀ name, line ≠ .label name) → labelsIn lines = [] := fun hline =>
    List.eq_nil_iff_forall_not_mem.mpr fun name hname =>
      hline name (h.label (mem_labelsIn.mp hname)).1
  cases line with
  | label name => rw [(h.eq_of_kept rfl (by simp)).1]
  | op opcode operand => exact hnone fun name => by simp
  | comment text => exact hnone fun name => by simp

theorem labelsIn_laid {p : Allocation.Placement} {calls outCalls : Std.TreeMap ℕ CallTarget}
    {code out : List Line} {block : ℕ → List Line} {view : ℕ → Allocation.StackView}
    (h : Laid p calls code out outCalls block view) : labelsIn out = labelsIn code := by
  have hfirst : ∀ n ≤ code.length, labelsIn (joined block n) = labelsIn (code.take n) := by
    intro n
    induction n with
    | zero => exact fun _ => rfl
    | succ n ih =>
      intro hn
      rw [joined_succ, List.take_succ_eq_append_getElem hn, labelsIn_append, labelsIn_append,
        ih (Nat.le_of_succ_le hn), labelsIn_placed (h.placed n _ (List.getElem?_eq_getElem hn))]
  rw [h.out, hfirst _ le_rfl, List.take_length]

/-- **Allocation keeps the labels** of a function. -/
theorem labelsIn_allocated {z : ZeroPage} {s : SelectedCode} {b : Binding}
    {callClobbers : Std.TreeMap ℕ Clobbers} {a : AllocatedCode}
    (h : allocate z s b callClobbers = .ok a) : labelsIn a.code = labelsIn s.code := by
  obtain ⟨live, hlive, -⟩ := bind_eq_ok.mp h
  rw [Outcomes.allocate_eq hlive] at h
  split at h
  · cases h
  · obtain ⟨⟨code, moved⟩, hplace, h⟩ := bind_eq_ok.mp h
    cases h
    obtain ⟨block, view, hlaid⟩ := laid_of_place hplace
    exact labelsIn_laid hlaid

theorem labelsIn_reserve (n : UInt8) : labelsIn (Sequence.reserve n).code = [] := by
  unfold Sequence.reserve
  split <;> rfl

theorem labelsIn_release (n : UInt8) : labelsIn (Sequence.release n).code = [] := by
  unfold Sequence.release
  split <;> rfl

theorem labelsIn_eq_nil {code : List Line} (h : ∀ line ∈ code, label? line = none) :
    labelsIn code = [] := List.filterMap_eq_nil_iff.mpr h

theorem labelsIn_schemes (scheme : SaveScheme) :
    labelsIn scheme.prologue.code = [] ∧ labelsIn scheme.epilogue.code = [] := by
  cases scheme with
  | area name regs cells =>
    constructor <;> refine labelsIn_eq_nil fun line hline => ?_ <;>
      simp only [SaveScheme.prologue, SaveScheme.epilogue, code_ofLines, List.mem_append, List.mem_map,
        List.mem_flatMap, List.mem_cons, List.not_mem_nil, or_false] at hline
    · obtain ⟨_, _, rfl⟩ | ⟨_, _, rfl | rfl⟩ := hline <;> rfl
    · obtain (⟨_, _, rfl | rfl⟩ | ⟨_, _, rfl⟩) | rfl := hline <;> rfl
  | stacked cells =>
    constructor <;> refine labelsIn_eq_nil fun line hline => ?_ <;>
      simp only [SaveScheme.prologue, SaveScheme.epilogue, code_ofLines, List.mem_append,
        List.mem_flatMap, List.mem_cons, List.not_mem_nil, or_false] at hline
    · obtain (rfl | rfl | rfl | rfl | rfl | rfl) | ⟨_, _, rfl | rfl⟩ := hline <;> rfl
    · obtain ⟨_, _, rfl | rfl⟩ | rfl | rfl | rfl | rfl | rfl | rfl | rfl := hline <;> rfl

theorem labelsIn_functionOf (b : Binding) (frameBytes : UInt8) (saves : Clobbers)
    (body : List Line) :
    labelsIn (functionOf b frameBytes saves body).code = b.name :: labelsIn body := by
  have hentry : labelsIn (Convention.prologue b frameBytes saves).code = [b.name] := by
    unfold Convention.prologue
    cases b.entry <;>
      simp only [code_append, code_ofLines, labelsIn_append, labelsIn_reserve, labelsIn_schemes] <;> rfl
  have hreturn : labelsIn (Sequence.releaseAndReturn frameBytes b.returnKind).code = [] := by
    unfold Sequence.releaseAndReturn
    split
    · rfl
    · cases b.returnKind <;>
        simp only [code_append, code_ofLines, labelsIn_append, labelsIn_release] <;> rfl
  have hexit : labelsIn (Convention.epilogue b frameBytes saves).code = [] := by
    unfold Convention.epilogue
    cases b.entry <;> simp only [hreturn, code_append, code_ofLines, labelsIn_append,
      labelsIn_release, labelsIn_schemes] <;> rfl
  unfold functionOf
  dsimp only
  rw [labelsIn_append, labelsIn_append, hentry, hexit, List.append_nil, List.singleton_append]

/-- The labels of a support routine. -/
def routineLabels (r : Routine) : List String :=
  r.name :: match r with
    | .longJmp => [Naming.longJmp ++ "_nz"]
    | _ => []

theorem labelsIn_routine (r : Routine) (z : ZeroPage) (bankSelect : UInt16) :
    labelsIn (r.code z bankSelect) = routineLabels r := by
  cases r <;> rfl

/-! ### The symbols of a program -/

/-- The labels that are made for a function. -/
def made (x : Compilation) (f : FunctionDef) : List String :=
  match x.selected[f.name]? with
  | some code => labelsIn code.code
  | none => []

/-- The names that a program gives to what it defines. -/
def given (p : Program) : List String :=
  (defined p).map (·.name) ++ p.globals.map (·.name) ++
    ((declared p).filter (·.address.isSome)).map (·.name)

/-- The objects behind those of the globals. -/
def saveAreas (p : Program) (s : Stages) : List DataObject :=
  s.saving.data.objects.drop p.globals.length

/-- The names that are made up in a compilation: those of the support routines, the labels of the
functions, and the save areas. -/
def invented (p : Program) (s : Stages) : List String :=
  s.compilation.routines.flatMap routineLabels ++ (defined p).flatMap (made s.compilation) ++
    (saveAreas p s).map (·.name)

variable {target : Target} {options : Options} {p : Program} {s : Stages}

theorem saveAreas_spec (h : stages target options p = .ok s) :
    s.saving.data.objects.map (·.name) = p.globals.map (·.name) ++ (saveAreas p s).map (·.name) ∧
      ∀ o ∈ saveAreas p s, ∃ function, o.name = Naming.saveArea function := by
  obtain ⟨areas, hobjects, hareas⟩ := (Contents.data_stages h).areas
  have hdrop : saveAreas p s = areas := by
    unfold saveAreas
    rw [hobjects, List.drop_append_of_le_length (by simp)]
    simp
  rw [hdrop]
  refine ⟨?_, fun o ho => ?_⟩
  · rw [hobjects, List.map_append, List.map_map]
    rfl
  · obtain ⟨function, size, -, rfl⟩ := hareas o ho
    exact ⟨function, rfl⟩

theorem labelsIn_emittedAs
    (hstart : Started (conventionOf target options) options.limits p s.compilation)
    (hfilled : Filled s.compilation p s.progress) {f : FunctionDef} {emitted : EmittedFunction}
    (hf : f ∈ defined p)
    (h : EmittedAs s.compilation s.progress.allocated s.saving.saves f emitted) :
    labelsIn emitted.code = f.name :: made s.compilation f := by
  obtain ⟨a, b, ha, hb, rfl⟩ := h
  obtain ⟨code, -, hcode⟩ := hstart.selected.get_of_mem f hf
  obtain ⟨a', t, hallocate, ha', -⟩ := hfilled.allocated f.name code hcode b hb
  rw [ha'] at ha
  cases ha
  obtain ⟨d, -, hd, hbind⟩ := hstart.bindings.mem_of_get f.name b hb
  have hname : b.name = f.name := (bind_spec hbind).1.trans hd
  rw [labelsIn_functionOf, labelsIn_allocated hallocate, hname, made, hcode]

theorem flatMap_forall₂ {α β γ : Type} {R : α → β → Prop} {as : List α} {bs : List β}
    (h : List.Forall₂ R as bs) {f : α → List γ} {g : β → List γ}
    (hR : ∀ a ∈ as, ∀ b, R a b → g b = f a) : bs.flatMap g = as.flatMap f := by
  induction h with
  | nil => rfl
  | @cons a b as bs hab _ ih =>
    rw [List.flatMap_cons, List.flatMap_cons, hR a (List.mem_cons_self ..) b hab,
      ih fun a' ha' => hR a' (List.mem_cons_of_mem _ ha')]

/-- **The symbols of a compiled program** are the names that it gives and those that are made up. -/
theorem symbols_emitted (h : stages target options p = .ok s) (hapart : Apart s.compilation) :
    (symbols s.emission).Perm (given p ++ invented p s) := by
  have hpassed := passed h
  have hstart := start_spec hpassed.started
  have hfilled := allocateAll_filled hstart hapart hpassed.allocated
  obtain ⟨functions, hall, hfunctions⟩ := emitted_functions hpassed
  have hlabels : labels s.emission = s.compilation.routines.flatMap routineLabels ++
      (defined p).flatMap fun f => f.name :: made s.compilation f := by
    rw [labels_eq, hfunctions, List.flatMap_append, List.flatMap_map]
    refine congrArg₂ (· ++ ·) (List.flatMap_congr fun r _ => labelsIn_routine r _ _) ?_
    exact flatMap_forall₂ hall fun f hf emitted => labelsIn_emittedAs hstart hfilled hf
  have hexternals : s.emission.externals.keys.Perm
      (((declared p).filter (·.address.isSome)).map (·.name)) := by
    have hnodup : (((declared p).filter (·.address.isSome)).map (·.name)).Nodup :=
      hstart.bindings.nodup.sublist ((List.filter_sublist.trans List.filter_sublist).map _)
    refine (List.perm_ext_iff_of_nodup Std.TreeMap.nodup_keys hnodup).mpr fun name => ?_
    rw [Std.TreeMap.mem_keys, Contents.mem_externals hpassed, List.mem_map]
    refine exists_congr fun f => ?_
    rw [List.mem_filter, and_assoc, and_comm (a := f.name = name)]
  have hmade := List.map_append_flatMap_perm (defined p) (·.name) (made s.compilation)
  refine List.perm_iff_count.mpr fun name => ?_
  unfold symbols given invented
  rw [hlabels, Contents.data_emitted hpassed, (saveAreas_spec h).1]
  simp only [List.count_append, hexternals.count_eq name, ← hmade.count_eq name]
  omega

end Codegen6502.Proofs.Emitting.Symbols
