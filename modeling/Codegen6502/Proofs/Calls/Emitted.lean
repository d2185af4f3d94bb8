import Codegen6502.Proofs.Calls.Table

/-!
# Emitted code

The emission of a program holds its support routines and its functions with a body, and the code of
a function is its entry sequence, its body and its exit sequence.

* `writeFunction_run`, `emitRoutine_run`: one function or routine;
* `emitAll_functions`: all of them in order;
* `outcome_make`: a layout is made unless a symbol of the emission is defined twice;
* `nodup_labels`: an emission that a target accepts defines no label twice, so that no function has
  the name of a support routine (`apart`).
-/

namespace Codegen6502.Proofs.Calls.Emitted

open Compilation Computations Pipeline Table

/-! ### Computations on an emission -/

section Runs

variable {α β : Type} {e e' : Emission}

theorem run_bind_eq_ok {c : Emit α} {f : α → Emit β} {b : β} (h : (c >>= f).run e = .ok b e') :
    ∃ a e₁, c.run e = .ok a e₁ ∧ (f a).run e₁ = .ok b e' := by
  change EStateM.bind c f e = _ at h
  unfold EStateM.bind at h
  split at h
  · rename_i a e₁ hc
    exact ⟨a, e₁, hc, h⟩
  · cases h

theorem run_ofExcept {c : Compile α} {a : α}
    (h : (MonadExcept.ofExcept c : Emit α).run e = .ok a e') : e' = e := by
  cases c with
  | ok b => exact (EStateM.Result.ok.inj h).2.symm
  | error error => cases h

theorem run_pure {a b : α} (h : (pure a : Emit α).run e = .ok b e') : b = a ∧ e' = e :=
  ⟨(EStateM.Result.ok.inj h).1.symm, (EStateM.Result.ok.inj h).2.symm⟩

theorem run_modify {f : Emission → Emission} {u : Unit}
    (h : (modify f : Emit Unit).run e = .ok u e') : e' = f e := (EStateM.Result.ok.inj h).2.symm

theorem run_get {a : Emission} (h : (get : Emit Emission).run e = .ok a e') : a = e ∧ e' = e :=
  ⟨(EStateM.Result.ok.inj h).1.symm, (EStateM.Result.ok.inj h).2.symm⟩

end Runs

variable {e e' : Emission}

theorem beginFunction_run {header : FunctionHeader} {code : List Line} {u : Unit}
    (h : (Emission.beginFunction header code).run e = .ok u e') :
    e' = { e with current := some { header, code, bodyStart := code.length } } := by
  unfold Emission.beginFunction at h
  obtain ⟨got, e₁, hget, hrest⟩ := run_bind_eq_ok h
  obtain ⟨hgot, he₁⟩ := run_get hget
  dsimp only at hrest
  split at hrest
  · obtain ⟨_, _, hthrow, -⟩ := run_bind_eq_ok hrest
    cases hthrow
  · obtain ⟨_, e₂, hcheck, hmodify⟩ := run_bind_eq_ok hrest
    rw [run_modify hmodify, run_ofExcept hcheck, he₁]

theorem push_run {line : Line} {u : Unit} {f : EmittedFunction} (hcur : e.current = some f)
    (h : (Emission.push line).run e = .ok u e') :
    e' = { e with current := some { f with code := f.code ++ [line] } } := by
  unfold Emission.push at h
  obtain ⟨got, e₁, hget, hrest⟩ := run_bind_eq_ok h
  obtain ⟨hgot, he₁⟩ := run_get hget
  simp only [hgot, hcur] at hrest
  obtain ⟨_, e₂, hcheck, hmodify⟩ := run_bind_eq_ok hrest
  rw [run_modify hmodify, run_ofExcept hcheck, he₁]

theorem pushAll_run {code : List Line} {u : Unit} {f : EmittedFunction} (hcur : e.current = some f)
    (h : (Emission.pushAll code).run e = .ok u e') :
    e' = { e with current := some { f with code := f.code ++ code } } := by
  induction code generalizing e f with
  | nil =>
    rw [(run_pure h).2, List.append_nil, ← hcur]
  | cons line rest ih =>
    unfold Emission.pushAll at h
    obtain ⟨_, e₁, hline, h⟩ := run_bind_eq_ok h
    have he₁ := push_run hcur hline
    have := ih (f := { f with code := f.code ++ [line] }) (by rw [he₁]) h
    rw [this, he₁]
    simp

theorem endFunction_run {code : List Line} {u : Unit} {f : EmittedFunction}
    (hcur : e.current = some f) (h : (Emission.endFunction code).run e = .ok u e') :
    e' = { e with
      functions := e.functions ++ [{ f with code := f.code ++ code, exitStart := f.code.length }]
      current := none } := by
  unfold Emission.endFunction at h
  obtain ⟨got, e₁, hget, hrest⟩ := run_bind_eq_ok h
  obtain ⟨hgot, he₁⟩ := run_get hget
  simp only [hgot, hcur] at hrest
  obtain ⟨_, e₂, hclear, hrest⟩ := run_bind_eq_ok hrest
  obtain ⟨_, e₃, hcheck, hadd⟩ := run_bind_eq_ok hrest
  rw [run_modify hadd, run_ofExcept hcheck, run_modify hclear, he₁]

/-! ### Functions and routines -/

/-- A function as it is emitted. -/
def functionOf (b : Binding) (frameBytes : UInt8) (saves : Clobbers) (body : List Line) :
    EmittedFunction :=
  let entry := (Convention.prologue b frameBytes saves).code
  { header := b.header
    code := entry ++ body ++ (Convention.epilogue b frameBytes saves).code
    bodyStart := entry.length
    exitStart := (entry ++ body).length }

/-- A support routine as it is emitted. -/
def routineOf (x : Compilation) (r : Routine) : EmittedFunction :=
  let code := r.code x.convention.zeroPage x.convention.bankSelect
  { header := { name := r.name }, code, exitStart := code.length }

theorem writeFunction_run {b : Binding} {frameBytes : UInt8} {saves : Clobbers} {code : List Line}
    {u : Unit} (h : (writeFunction b frameBytes saves code).run e = .ok u e') :
    e' = { e with functions := e.functions ++ [functionOf b frameBytes saves code], current := none } := by
  unfold writeFunction at h
  obtain ⟨w₁, e₁, henter, h⟩ := run_bind_eq_ok h
  obtain ⟨w₂, e₂, hbody, h⟩ := run_bind_eq_ok h
  obtain ⟨w₃, e₃, hleave, h⟩ := run_bind_eq_ok h
  unfold FunctionWriter.enter at henter
  obtain ⟨_, e₄, hexpect, henter⟩ := run_bind_eq_ok henter
  obtain ⟨_, e₅, hbegin, henter⟩ := run_bind_eq_ok henter
  obtain ⟨hw₁, he₁⟩ := run_pure henter
  have he₅ := beginFunction_run hbegin
  rw [run_ofExcept hexpect] at he₅
  unfold FunctionWriter.body at hbody
  obtain ⟨_, e₆, hexpect₂, hbody⟩ := run_bind_eq_ok hbody
  obtain ⟨_, e₇, hpush, hbody⟩ := run_bind_eq_ok hbody
  obtain ⟨hw₂, he₂⟩ := run_pure hbody
  have he₇ := pushAll_run (by rw [run_ofExcept hexpect₂, he₁, he₅]) hpush
  rw [run_ofExcept hexpect₂, he₁, he₅] at he₇
  unfold FunctionWriter.leave at hleave
  obtain ⟨_, e₈, hexpect₃, hleave⟩ := run_bind_eq_ok hleave
  rw [run_ofExcept h]
  dsimp only at hleave
  split at hleave
  · obtain ⟨_, _, hthrow, -⟩ := run_bind_eq_ok hleave
    cases hthrow
  · obtain ⟨_, e₉, hend, hleave⟩ := run_bind_eq_ok hleave
    have he₉ := endFunction_run (by rw [run_ofExcept hexpect₃, he₂, he₇]) hend
    rw [run_ofExcept hexpect₃, he₂, he₇] at he₉
    rw [(run_pure hleave).2, he₉, hw₂, hw₁]
    rfl

theorem emitRoutine_run {x : Compilation} {r : Routine} {u : Unit}
    (h : (x.emitRoutine r).run e = .ok u e') :
    e' = { e with functions := e.functions ++ [routineOf x r], current := none } := by
  unfold emitRoutine at h
  obtain ⟨_, e₁, hbegin, h⟩ := run_bind_eq_ok h
  have he₁ := beginFunction_run hbegin
  obtain ⟨_, e₂, hpush, h⟩ := run_bind_eq_ok h
  have he₂ := pushAll_run (by rw [he₁]) hpush
  have he := endFunction_run (by rw [he₂]) h
  rw [he, he₂, he₁]
  simp [routineOf]

/-- Functions that are emitted one after the other. -/
theorem forM_run {α : Type} {action : α → Emit Unit} {P : α → EmittedFunction → Prop}
    (haction : ∀ a u e e', (action a).run e = .ok u e' →
      ∃ f, P a f ∧ e' = { e with functions := e.functions ++ [f], current := none }) :
    ∀ (elements : List α) {u : Unit} {e e' : Emission}, (elements.forM action).run e = .ok u e' →
      ∃ functions, List.Forall₂ P elements functions ∧
        e'.functions = e.functions ++ functions := by
  intro elements
  induction elements with
  | nil =>
    intro u e e' h
    cases h
    exact ⟨[], .nil, by simp⟩
  | cons a rest ih =>
    intro u e e' h
    obtain ⟨_, e₁, ha, h⟩ := run_bind_eq_ok h
    obtain ⟨f, hf, he₁⟩ := haction a _ e e₁ ha
    obtain ⟨functions, hall, he'⟩ := ih h
    refine ⟨f :: functions, .cons hf hall, ?_⟩
    rw [he', he₁]
    simp

/-- How a function of the program is emitted. -/
def EmittedAs (x : Compilation) (allocated : Std.TreeMap String AllocatedCode)
    (saves : Std.TreeMap String Clobbers) (f : FunctionDef) (emitted : EmittedFunction) : Prop :=
  ∃ a b, allocated[f.name]? = some a ∧ x.bindings[f.name]? = some b ∧
    emitted = functionOf b a.frameBytes (saves.getD f.name {}) a.code

/-- **Everything that is emitted**: the support routines and the functions with a body. -/
theorem emitAll_functions {x : Compilation} {p : Program}
    {allocated : Std.TreeMap String AllocatedCode} {saves : Std.TreeMap String Clobbers} {u : Unit}
    (h : (x.emitAll p allocated saves).outcome e = .ok (u, e')) :
    ∃ functions, List.Forall₂ (EmittedAs x allocated saves) (defined p) functions ∧
      e'.functions = e.functions ++ x.routines.map (routineOf x) ++ functions := by
  unfold Emit.outcome at h
  split at h
  · rename_i hrun
    cases h
    unfold emitAll at hrun
    obtain ⟨_, e₁, hroutines, hrun⟩ := run_bind_eq_ok hrun
    obtain ⟨routines, hall, he₁⟩ := forM_run (P := fun r f => f = routineOf x r)
      (fun r _ _ _ hr => ⟨_, rfl, emitRoutine_run hr⟩) x.routines hroutines
    obtain ⟨functions, hfunctions, he'⟩ := forM_run (P := EmittedAs x allocated saves)
      (fun f u e e' hf => by
        unfold emitFunction at hf
        split at hf
        · rename_i a b ha hb
          exact ⟨_, ⟨a, b, ha, hb, rfl⟩, writeFunction_run hf⟩
        · cases hf) (defined p) hrun
    have hroutines : routines = x.routines.map (routineOf x) := by
      have : List.Forall₂ (fun r f => routineOf x r = f) x.routines routines :=
        hall.imp fun _ _ h => h.symm
      rw [← List.forall₂_map_left_iff, List.forall₂_eq_eq_eq] at this
      exact this.symm
    exact ⟨functions, hfunctions, by rw [he', he₁, hroutines]⟩
  · cases h

/-! ### Labels -/

/-- The label that a line is. -/
def label? : Line → Option String
  | .label name => some name
  | _ => none

/-- The labels of an emission in order. -/
def labels (e : Emission) : List String := e.lines.filterMap fun l => label? l.2

theorem labels_eq (e : Emission) :
    labels e = e.functions.flatMap fun f => f.code.filterMap label? := by
  unfold labels Emission.lines
  rw [List.filterMap_flatMap]
  simp only [List.filterMap_map]
  rfl

theorem map_line_mark (lines : List (FunctionHeader × Line)) (long : List Bool) :
    (Layout.mark lines long).map (·.line) = lines.map (·.2) := by
  induction lines generalizing long with
  | nil => simp [Layout.mark]
  | cons l rest ih => cases long <;> simp [Layout.mark, ih]

theorem map_line_placeLines (areas : Layout.Areas) (c : Cursors) (lines : List UnplacedLine) :
    (Layout.placeLines areas c lines).1.map (·.line) = lines.map (·.line) := by
  induction lines generalizing c with
  | nil => simp [Layout.placeLines]
  | cons u rest ih => simp [Layout.placeLines, ih]

/-! ### Definitions -/

/-- The error of a symbol that is there already. -/
def definedAgain (name : String) : CompileError :=
  .invalidProgram name "symbol defined more than once"

/-- Names that are all different and not in a table yet. -/
def New (t : SymbolTable) (names : List String) : Prop :=
  names.Nodup ∧ ∀ name ∈ names, t.definitions.contains name = false

/-- **What comes of defining names** in a table: a table that has them too if they are new, and
otherwise the error that one of them is there already. -/
inductive Defines (t : SymbolTable) (names : List String) : Compile SymbolTable → Prop where
  | all {t' : SymbolTable} : New t names →
    (∀ name, t'.definitions.contains name = true ↔
      t.definitions.contains name = true ∨ name ∈ names) → Defines t names (.ok t')
  | again {name : String} : ¬New t names → Defines t names (.error (definedAgain name))

section Defining

variable {t t' : SymbolTable} {names names' : List String}

theorem new_append (ht' : ∀ name, t'.definitions.contains name = true ↔
    t.definitions.contains name = true ∨ name ∈ names) :
    New t (names ++ names') ↔ New t names ∧ New t' names' := by
  have hnot : ∀ name, t'.definitions.contains name = false ↔
      t.definitions.contains name = false ∧ name ∉ names := fun name => by
    rw [← Bool.not_eq_true, ht', not_or, Bool.not_eq_true]
  simp only [New, List.nodup_append', List.disjoint_right, List.forall_mem_append, hnot]
  constructor
  · rintro ⟨⟨hnodup, hnodup', hdisjoint⟩, hnew, hnew'⟩
    exact ⟨⟨hnodup, hnew⟩, hnodup', fun n hn => ⟨hnew' n hn, hdisjoint hn⟩⟩
  · rintro ⟨⟨hnodup, hnew⟩, hnodup', hnew'⟩
    exact ⟨⟨hnodup, hnodup', fun n hn => (hnew' n hn).2⟩, hnew, fun n hn => (hnew' n hn).1⟩

theorem Defines.bind {c : Compile SymbolTable} {f : SymbolTable → Compile SymbolTable}
    (h : Defines t names c) (h' : ∀ t', Defines t' names' (f t')) :
    Defines t (names ++ names') (c >>= f) := by
  cases h with
  | @all t' hnew ht' =>
    change Defines t (names ++ names') (f t')
    have hrest := h' t'
    generalize f t' = outcome at hrest
    cases hrest with
    | all hnew' ht'' =>
      refine .all ((new_append ht').mpr ⟨hnew, hnew'⟩) fun name => ?_
      rw [ht'', ht', List.mem_append, or_assoc]
    | again hold => exact .again fun hall => hold ((new_append ht').mp hall).2
  | again hold =>
    exact .again fun hall => hold ⟨hall.1.of_append_left, fun n hn =>
      hall.2 n (List.mem_append_left _ hn)⟩

theorem defines_nil (t : SymbolTable) : Defines t [] (.ok t) :=
  .all ⟨.nil, by simp⟩ fun name => by simp

theorem defines_define (t : SymbolTable) (name : String) (d : Definition) :
    Defines t [name] (t.define name d) := by
  unfold SymbolTable.define
  split
  · rename_i hold
    exact .again fun hnew => by simp [hnew.2 name (List.mem_singleton_self _)] at hold
  · rename_i hnew
    refine .all ⟨List.nodup_singleton _, fun n hn => ?_⟩ fun n => ?_
    · rw [List.mem_singleton.mp hn]
      exact Bool.eq_false_iff.mpr hnew
    · rw [Std.TreeMap.contains_insert, Bool.or_eq_true, beq_iff_eq,
        Std.LawfulEqCmp.compare_eq_iff_eq, List.mem_singleton, or_comm, eq_comm (a := name)]

/-- Rounds of which each defines names of its own. -/
theorem defines_foldlM {α : Type} {step : SymbolTable → α → Compile SymbolTable}
    {own : α → List String} (h : ∀ t a, Defines t (own a) (step t a)) (as : List α) :
    ∀ t, Defines t (as.flatMap own) (as.foldlM step t) := by
  induction as with
  | nil => exact defines_nil
  | cons a rest ih => exact fun t => (h t a).bind ih

theorem defines_map {α : Type} {step : SymbolTable → α → Compile SymbolTable} {own : α → String}
    (h : ∀ t a, Defines t [own a] (step t a)) (as : List α) (t : SymbolTable) :
    Defines t (as.map own) (as.foldlM step t) := by
  rw [List.map_eq_flatMap]
  exact defines_foldlM h as t

theorem defines_line (t : SymbolTable) (p : PlacedLine) :
    Defines t (label? p.line).toList (Layout.defineLine t p) := by
  unfold Layout.defineLine
  cases p.line with
  | label name => exact defines_define t name _
  | op opcode operand => exact defines_nil t
  | comment text => exact defines_nil t

end Defining

/-- Every symbol that an emission defines. -/
def symbols (e : Emission) : List String := labels e ++ e.data.map (·.name) ++ e.externals.keys

theorem labels_placed (areas : Layout.Areas) (e : Emission) (long : List Bool) :
    labels e = (Layout.placeLines areas {} (Layout.mark e.lines long)).1.flatMap
      fun l => (label? l.line).toList := by
  have hlines : (Layout.placeLines areas {} (Layout.mark e.lines long)).1.map (·.line) =
      e.lines.map (·.2) := by
    rw [map_line_placeLines, map_line_mark]
  unfold labels
  rw [← List.filterMap_eq_flatMap_toList,
    show (fun l : PlacedLine => label? l.line) = label? ∘ (·.line) from rfl, ← List.filterMap_map,
    hlines, List.filterMap_map]
  rfl

theorem map_name_placeData (areas : Layout.Areas) (c : Cursors) (data : List DataObject) :
    (Layout.placeData areas c data).1.map (·.object.name) = data.map (·.name) := by
  induction data generalizing c with
  | nil => simp [Layout.placeData]
  | cons object rest ih => simp [Layout.placeData, ih]

/-- **A layout is made if and only if no symbol is defined twice**, and that is the only error. -/
theorem outcome_make (areas : Layout.Areas) (e : Emission) (long : List Bool) :
    ((symbols e).Nodup ∧ ∃ l, Layout.make areas e long = .ok l) ∨
      ¬(symbols e).Nodup ∧ ∃ name, Layout.make areas e long = .error (definedAgain name) := by
  let lines := Layout.placeLines areas {} (Layout.mark e.lines long)
  let data := Layout.placeData areas lines.2 e.data
  have hdata : ∀ t, Defines t (e.data.map (·.name)) (data.1.foldlM Layout.defineData t) := fun t =>
    map_name_placeData areas lines.2 e.data ▸ defines_map (fun t p => defines_define t _ _) data.1 t
  have hexternals : ∀ t, Defines t e.externals.keys
      (e.externals.toList.foldlM Layout.defineExternal t) := fun t =>
    Std.TreeMap.map_fst_toList_eq_keys (t := e.externals) ▸
      defines_map (fun t external => defines_define t _ _) e.externals.toList t
  have hall := ((defines_foldlM defines_line lines.1 {}).bind hdata).bind hexternals
  rw [← labels_placed] at hall
  have hnew : New {} (symbols e) ↔ (symbols e).Nodup := and_iff_left fun name _ => rfl
  have hmake : Layout.make areas e long = (((lines.1.foldlM Layout.defineLine {}) >>=
      data.1.foldlM Layout.defineData) >>= e.externals.toList.foldlM Layout.defineExternal) >>=
        fun table => .ok ⟨lines.1, data.1, data.2, lines.1.foldl Layout.referLine table⟩ := by
    rw [bind_assoc, bind_assoc]
    rfl
  rw [hmake]
  generalize (((lines.1.foldlM Layout.defineLine {}) >>= data.1.foldlM Layout.defineData) >>=
    e.externals.toList.foldlM Layout.defineExternal) = outcome at hall
  cases hall with
  | all hsymbols => exact .inl ⟨hnew.mp hsymbols, _, rfl⟩
  | again hold => exact .inr ⟨fun hnodup => hold (hnew.mpr hnodup), _, rfl⟩

theorem nodup_of_make {areas : Layout.Areas} {e : Emission} {long : List Bool} {l : Layout}
    (h : Layout.make areas e long = .ok l) : (labels e).Nodup := by
  rcases outcome_make areas e long with ⟨hnodup, -⟩ | ⟨-, name, herror⟩
  · exact hnodup.of_append_left.of_append_left
  · rw [herror] at h
    cases h

theorem make_of_settle {e : Emission} {bound : ℕ} {long : List Bool} {l : Layout}
    (h : Relaxation.settle e bound long = .ok l) :
    ∃ l', Layout.make Layout.banked e long = .ok l' := by
  cases bound with
  | zero => exact ⟨l, h⟩
  | succ bound =>
    unfold Relaxation.settle at h
    obtain ⟨l', hl', -⟩ := bind_eq_ok.mp h
    exact ⟨l', hl'⟩

/-- **No label is defined twice** in an emission of which a target has made its output. -/
theorem nodup_labels {target : Target} {map : MemoryMap} {e : Emission} {out : Output}
    (h : e.output target map = .ok out) : (labels e).Nodup := by
  unfold Emission.output at h
  obtain ⟨_, -, h⟩ := bind_eq_ok.mp h
  have hflat : ∀ produce, flatOutput target e produce = .ok out → (labels e).Nodup := by
    intro produce hp
    unfold flatOutput at hp
    obtain ⟨l, hl, -⟩ := bind_eq_ok.mp hp
    exact nodup_of_make hl
  cases target with
  | listing => exact hflat _ h
  | container => exact hflat _ h
  | nothing => exact hflat _ h
  | image =>
    obtain ⟨a, ha, -⟩ := bind_eq_ok.mp h
    unfold assemble at ha
    obtain ⟨l, hl, -⟩ := bind_eq_ok.mp ha
    obtain ⟨l', hl'⟩ := make_of_settle hl
    exact nodup_of_make hl'

/-! ### Names -/

@[simp] theorem code_append (s t : Sequence) : (s ++ t).code = s.code ++ t.code := rfl

@[simp] theorem code_ofLines (code : List Line) : (Sequence.ofLines code).code = code := rfl

theorem label_mem_functionOf (b : Binding) (frameBytes : UInt8) (saves : Clobbers)
    (body : List Line) :
    (functionOf b frameBytes saves body).header.name ∈
      (functionOf b frameBytes saves body).code.filterMap label? := by
  refine List.mem_filterMap.mpr ⟨.label b.name, ?_, rfl⟩
  unfold functionOf Convention.prologue
  cases b.entry <;> simp

theorem label_mem_routineOf (x : Compilation) (r : Routine) :
    (routineOf x r).header.name ∈ (routineOf x r).code.filterMap label? :=
  List.mem_filterMap.mpr ⟨.label r.name, by simp [routineOf, Routine.code], rfl⟩

theorem functions_foldl {α : Type} {step : Emission → α → Emission}
    (h : ∀ e a, (step e a).functions = e.functions) (as : List α) (e : Emission) :
    (as.foldl step e).functions = e.functions := by
  induction as generalizing e with
  | nil => rfl
  | cons a rest ih => exact (ih _).trans (h e a)

theorem functions_withData (p : Program) (data : DataObjects) : (withData p data).functions = [] := by
  unfold withData
  have hdata : ∀ e object, (Emission.addData e object).functions = e.functions := fun _ _ => rfl
  refine (functions_foldl (fun e f => ?_) _ _).trans (functions_foldl hdata _ _)
  cases f.address <;> rfl

variable {target : Target} {options : Options} {p : Program} {s : Stages}

/-- What is emitted in a compilation. -/
theorem emitted_functions (h : Passed target options p s) :
    ∃ functions, List.Forall₂ (EmittedAs s.compilation s.progress.allocated s.saving.saves)
        (defined p) functions ∧
      s.emission.functions = s.compilation.routines.map (routineOf s.compilation) ++ functions := by
  obtain ⟨functions, hall, he⟩ := emitAll_functions h.emitted
  rw [functions_withData, List.nil_append] at he
  exact ⟨functions, hall, he⟩

theorem mem_emitted (h : Passed target options p s) {f : EmittedFunction}
    (hf : f ∈ s.emission.functions) :
    (∃ r ∈ s.compilation.routines, f = routineOf s.compilation r) ∨
      ∃ d ∈ defined p, EmittedAs s.compilation s.progress.allocated s.saving.saves d f := by
  obtain ⟨functions, hall, he⟩ := emitted_functions h
  rw [he] at hf
  rcases List.mem_append.mp hf with hf | hf
  · obtain ⟨r, hr, rfl⟩ := List.mem_map.mp hf
    exact Or.inl ⟨r, hr, rfl⟩
  · obtain ⟨i, hi, rfl⟩ := List.getElem_of_mem hf
    have hlen := hall.length_eq
    exact Or.inr ⟨(defined p)[i], List.getElem_mem _, hall.get (by omega) hi⟩

theorem label_mem_emitted (h : Passed target options p s) {f : EmittedFunction}
    (hf : f ∈ s.emission.functions) : f.header.name ∈ f.code.filterMap label? := by
  rcases mem_emitted h hf with ⟨r, -, rfl⟩ | ⟨d, -, a, b, -, -, rfl⟩
  · exact label_mem_routineOf _ r
  · exact label_mem_functionOf b _ _ _

/-- **The names of emitted functions** are all different. -/
theorem nodup_names (h : Passed target options p s) {map : MemoryMap} {out : Output}
    (hout : s.emission.output target map = .ok out) :
    (s.emission.functions.map (·.header.name)).Nodup := by
  have hlabels := nodup_labels hout
  rw [labels_eq, List.nodup_flatMap] at hlabels
  refine List.pairwise_map.mpr (hlabels.2.imp_of_mem fun {a b} ha hb hab heq => ?_)
  exact hab (label_mem_emitted h ha) (heq ▸ label_mem_emitted h hb)

/-- No function has the name of a support routine. -/
theorem apart (hstart : Started (conventionOf target options) options.limits p s.compilation)
    (h : Passed target options p s) {map : MemoryMap} {out : Output}
    (hout : s.emission.output target map = .ok out) : Apart s.compilation := by
  intro r hr
  cases hs : s.compilation.selected[r.name]? with
  | none => rfl
  | some code =>
    obtain ⟨d, hd, hname, -⟩ := hstart.selected.mem_of_get r.name code hs
    obtain ⟨functions, hall, he⟩ := emitted_functions h
    have hnodup := nodup_names h hout
    rw [he, List.map_append, List.nodup_append] at hnodup
    obtain ⟨i, hi, rfl⟩ := List.getElem_of_mem hd
    obtain ⟨a, b, -, hb, hf⟩ := hall.get hi (hall.length_eq ▸ hi)
    obtain ⟨d', -, hd', hbind⟩ := hstart.bindings.mem_of_get _ b hb
    have hfname : (functions.get ⟨i, hall.length_eq ▸ hi⟩).header.name = r.name := by
      rw [hf]
      exact (bind_spec hbind).1.trans (hd'.trans hname)
    refine absurd rfl (hnodup.2.2 r.name ?_ r.name ?_)
    · exact List.mem_map.mpr ⟨_, List.mem_map.mpr ⟨r, hr, rfl⟩, rfl⟩
    · exact List.mem_map.mpr ⟨_, List.get_mem _ _, hfname⟩

/-- Every function with a body is emitted. -/
theorem emitted_of_defined (h : Passed target options p s) {d : FunctionDef} (hd : d ∈ defined p) :
    ∃ f ∈ s.emission.functions,
      EmittedAs s.compilation s.progress.allocated s.saving.saves d f := by
  obtain ⟨functions, hall, he⟩ := emitted_functions h
  obtain ⟨i, hi, rfl⟩ := List.getElem_of_mem hd
  have hi' : i < functions.length := hall.length_eq ▸ hi
  refine ⟨functions.get ⟨i, hi'⟩, ?_, hall.get hi hi'⟩
  rw [he]
  exact List.mem_append_right _ (List.get_mem _ _)

/-- What is emitted under the name of a function with a body. -/
theorem emitted_unique (hstart : Started (conventionOf target options) options.limits p s.compilation)
    (hapart : Apart s.compilation) (h : Passed target options p s) {f : EmittedFunction}
    (hf : f ∈ s.emission.functions) (hdefined : f.header.name ∈ (defined p).map (·.name))
    {a : AllocatedCode} {b : Binding} (ha : s.progress.allocated[f.header.name]? = some a)
    (hb : s.compilation.bindings[f.header.name]? = some b) :
    f = functionOf b a.frameBytes (s.saving.saves.getD f.header.name {}) a.code := by
  rcases mem_emitted h hf with ⟨r, hr, rfl⟩ | ⟨d, -, a', b', ha', hb', rfl⟩
  · obtain ⟨d, hd, hname⟩ := List.mem_map.mp hdefined
    obtain ⟨code, -, hcode⟩ := hstart.selected.get_of_mem d hd
    rw [hname] at hcode
    rw [show (routineOf s.compilation r).header.name = r.name from rfl, hapart r hr] at hcode
    cases hcode
  · have hname : b'.name = d.name := by
      obtain ⟨d', -, hd', hbind⟩ := hstart.bindings.mem_of_get _ b' hb'
      exact (bind_spec hbind).1.trans hd'
    change s.progress.allocated[b'.name]? = some a at ha
    change s.compilation.bindings[b'.name]? = some b at hb
    rw [hname, ha'] at ha
    rw [hname, hb'] at hb
    cases ha
    cases hb
    rw [show (functionOf b a.frameBytes (s.saving.saves.getD d.name {}) a.code).header.name =
      d.name from hname]

end Codegen6502.Proofs.Calls.Emitted
