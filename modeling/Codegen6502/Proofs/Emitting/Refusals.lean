import Codegen6502.Emission.Basic

/-!
# Refused operations

What the operations on an emission do when they are refused.

* `Operation.refusal?`: the error with which an operation is refused, if it is; `run_eq` says that
  it is the outcome, and what the record is then;
* `refused_operation`: a refused operation leaves the record as it was, except for the end of a
  function whose exit sequence is refused: that function is lost, and the record counts as closed;
* `after_accepted`: as long as no function is lost, a sequence of operations leaves the record that
  those of them leave that were accepted.
-/

namespace Codegen6502.Proofs.Emitting.Refusals

/-- An operation on an emission. -/
inductive Operation where
  | start (header : FunctionHeader) (code : List Line)
  | push (line : Line)
  | finish (code : List Line)
  | data (object : DataObject)
  | external (name : String) (address : UInt16)

variable {e : Emission} {o : Operation} {error : CompileError}

/-! ### Refusals -/

/-- Whether allocation should have replaced the operand of a line. -/
def isUnallocated (line : Line) : Bool := line.operand?.any (·.isPreAllocation)

/-- The error of the first line whose operand allocation should have replaced. -/
def unallocated? (function : String) (code : List Line) : Option CompileError :=
  (code.find? isUnallocated).map fun line =>
    .internal ("'" ++ function ++ "': unallocated operand in '" ++ line.text ++ "'")

/-- A check that fails with an error if there is one. -/
def verdict : Option CompileError → Compile Unit
  | some error => .error error
  | none => .ok ()

theorem checkAllocated_eq (function : String) (line : Line) :
    Emission.checkAllocated function line = verdict (unallocated? function [line]) := by
  unfold Emission.checkAllocated unallocated?
  rw [List.find?_cons, isUnallocated]
  cases line.operand? with
  | none => rfl
  | some operand => cases h : operand.isPreAllocation <;> simp [h] <;> rfl

theorem forM_checkAllocated (function : String) (code : List Line) :
    code.forM (Emission.checkAllocated function) = verdict (unallocated? function code) := by
  induction code with
  | nil => rfl
  | cons line rest ih =>
    change (Emission.checkAllocated function line >>= fun _ =>
      rest.forM (Emission.checkAllocated function)) = _
    rw [ih, checkAllocated_eq]
    unfold unallocated?
    cases h : isUnallocated line <;> simp [h] <;> rfl

namespace Operation

/-- The operation as a computation on the record. -/
def run : Operation → Emit Unit
  | start header code => Emission.beginFunction header code
  | push line => Emission.push line
  | finish code => Emission.endFunction code
  | data object => modify (·.addData object)
  | external name address => modify (·.addExternal name address)

/-- The record after an operation, whether it is refused or not. -/
def after (e : Emission) (o : Operation) : Emission :=
  match o.run.run e with
  | .ok _ e' => e'
  | .error _ e' => e'

/-- The error of an operation. -/
def error? (e : Emission) (o : Operation) : Option CompileError :=
  match o.run.run e with
  | .ok .. => none
  | .error error _ => some error

/-- **Why an operation is refused**, if it is. -/
def refusal? (e : Emission) : Operation → Option CompileError
  | start header code =>
    match e.current with
    | some f => some (.internal ("'" ++ header.name ++ "' started while '" ++ f.header.name ++
        "' is still open"))
    | none => unallocated? header.name code
  | push line =>
    match e.current with
    | some f => unallocated? f.header.name [line]
    | none => some (.internal ("'" ++ line.text ++ "' emitted outside a function"))
  | finish code =>
    match e.current with
    | some f => unallocated? f.header.name code
    | none => some (.internal "epilogue emitted outside a function")
  | data _ | external .. => none

/-- What an operation does to the record when it is accepted. -/
def effect (e : Emission) : Operation → Emission
  | start header code => { e with current := some { header, code, bodyStart := code.length } }
  | push line => { e with current := e.current.map fun f => { f with code := f.code ++ [line] } }
  | finish code =>
    { e with
      functions := e.functions ++ (e.current.map fun f =>
        { f with code := f.code ++ code, exitStart := f.code.length }).toList
      current := none }
  | data object => e.addData object
  | external name address => e.addExternal name address

/-- What a refused operation leaves of the record. -/
def remains (e : Emission) : Operation → Emission
  | finish _ => { e with current := none }
  | _ => e

/-- The outcome of an operation that an error may refuse, and the record in each case. -/
def outcome (refused done : Emission) : Option CompileError → EStateM.Result CompileError Emission Unit
  | some error => .error error refused
  | none => .ok () done

theorem run_check {check : Compile Unit} {error? : Option CompileError}
    (h : check = verdict error?) (change : Emission → Emission) (e : Emission) :
    (MonadExcept.ofExcept check >>= fun _ => modify change : Emit Unit).run e =
      outcome e (change e) error? := by
  rw [h]
  cases error? <;> rfl

/-- **What comes of an operation.** -/
theorem run_eq (e : Emission) (o : Operation) :
    o.run.run e = outcome (o.remains e) (o.effect e) (o.refusal? e) := by
  obtain ⟨functions, data, externals, current⟩ := e
  cases o with
  | start header code =>
    cases current with
    | some f => rfl
    | none => exact run_check (forM_checkAllocated header.name code) _ _
  | push line =>
    cases current with
    | some f => exact run_check (checkAllocated_eq f.header.name line) _ _
    | none => rfl
  | finish code =>
    cases current with
    | some f =>
      exact run_check (forM_checkAllocated f.header.name code) _ ⟨functions, data, externals, none⟩
    | none => rfl
  | data object => rfl
  | external name address => rfl

theorem error?_eq (e : Emission) (o : Operation) : o.error? e = o.refusal? e := by
  unfold error?
  rw [run_eq]
  cases o.refusal? e <;> rfl

theorem after_of_refused (h : o.error? e = some error) : o.after e = o.remains e := by
  rw [error?_eq] at h
  unfold after
  rw [run_eq, h]
  rfl

/-- The operation ends the open function and is refused. -/
def Loses (e : Emission) (o : Operation) : Prop :=
  ∃ code f error, o = finish code ∧ e.current = some f ∧ o.error? e = some error

theorem remains_eq (hclosed : ∀ code, o = finish code → e.current = none) : o.remains e = e := by
  cases o with
  | finish code =>
    obtain ⟨functions, data, externals, current⟩ := e
    cases hclosed code rfl
    rfl
  | _ => rfl

/-- A refused operation that loses no function leaves the record as it was. -/
theorem after_of_kept (h : o.error? e = some error) (hkept : ¬ o.Loses e) : o.after e = e := by
  rw [after_of_refused h]
  refine remains_eq fun code ho => ?_
  cases hopen : e.current with
  | none => rfl
  | some f => exact absurd ⟨code, f, error, ho, hopen, h⟩ hkept

/-! ### Sequences -/

/-- The record after operations one after the other, whether they are refused or not. -/
def afterAll (e : Emission) (os : List Operation) : Emission := os.foldl after e

/-- Those operations of a sequence that are accepted. -/
def accepted : Emission → List Operation → List Operation
  | _, [] => []
  | e, o :: rest =>
    if (o.error? e).isNone then o :: accepted (o.after e) rest else accepted (o.after e) rest

/-- No operation of a sequence loses a function. -/
def Keeps : Emission → List Operation → Prop
  | _, [] => True
  | e, o :: rest => ¬ o.Loses e ∧ Keeps (o.after e) rest

/-- **Refused operations might as well not have been tried**, as long as none loses a function. -/
theorem after_accepted {os : List Operation} (h : Keeps e os) :
    afterAll e (accepted e os) = afterAll e os := by
  induction os generalizing e with
  | nil => rfl
  | cons o rest ih =>
    obtain ⟨hkept, hrest⟩ := h
    unfold accepted
    cases herror : o.error? e with
    | none => exact ih hrest
    | some error =>
      have hsame := after_of_kept herror hkept
      rw [hsame] at hrest
      change afterAll e (accepted (o.after e) rest) = afterAll (o.after e) rest
      rw [hsame]
      exact ih hrest

end Operation

/-- **What a refused operation does to the record.**  It leaves the record as it was, unless it ends
the open function: then that function is gone, and the record, in which a function was open before,
counts as closed. -/
theorem refused_operation (h : o.error? e = some error) :
    (o.after e = e ↔ ¬ ∃ code f, o = .finish code ∧ e.current = some f) ∧
      ∀ code f, o = .finish code → e.current = some f →
        o.after e = { e with current := none } ∧
        e.checkClosed = .error (.internal ("'" ++ f.header.name ++ "' was never finished")) ∧
        (o.after e).checkClosed = .ok () := by
  have hlost : ∀ code f, o = .finish code → e.current = some f →
      o.after e = { e with current := none } := by
    rintro code f rfl -
    exact Operation.after_of_refused h
  refine ⟨⟨?_, fun hkept => ?_⟩, fun code f ho hopen => ⟨hlost code f ho hopen, ?_, ?_⟩⟩
  · rintro hsame ⟨code, f, ho, hopen⟩
    have hclosed := hlost code f ho hopen
    rw [hsame] at hclosed
    rw [hclosed] at hopen
    cases hopen
  · exact Operation.after_of_kept h fun ⟨code, f, _, ho, hopen, _⟩ => hkept ⟨code, f, ho, hopen⟩
  · unfold Emission.checkClosed
    rw [hopen]
  · rw [hlost code f ho hopen]
    rfl

/-- The function `f` is lost. -/
theorem refused_finish :
    let e := Operation.afterAll {} [.start { name := "f" } [.label "f"]]
    let o := Operation.finish [.op .lda (.virtual ⟨0⟩)]
    o.error? e = some (.internal "'f': unallocated operand in '    LDA v0'") ∧ o.after e ≠ e ∧
      (o.after e).checkClosed = .ok () := by
  intro e o
  have herror : o.error? e = some (.internal "'f': unallocated operand in '    LDA v0'") := by
    decide +kernel
  obtain ⟨hsame, hlost⟩ := refused_operation herror
  exact ⟨herror, fun h => hsame.mp h ⟨_, _, rfl, rfl⟩, (hlost _ _ rfl rfl).2.2⟩

end Codegen6502.Proofs.Emitting.Refusals
