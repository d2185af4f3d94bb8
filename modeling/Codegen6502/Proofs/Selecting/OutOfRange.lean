import Codegen6502.Proofs.Selecting.Folding
import Codegen6502.Proofs.Selecting.Steps

/-!
# Constants out of range

Lowering holds the constants of a program to the configured range of the types that they are used
at.  No other check ends in the error of a constant out of range, so a step is followed by the
constants that its errors name: a step blames constants with a property (`Blames`) if an error of a
constant out of range that it ends in names the function, a type, and a constant with the property
that is outside the range of the type.

* `blamesAt`: the steps that blame constants with a property are a kind of steps;
* `refused_constant`: the constant that a function is refused for.  It is an operand of a node, at
  the type that it is used at, unless limits are configured and a branch takes the successor of a
  constant that ends the range.
-/

namespace Codegen6502.Proofs.Selecting.OutOfRange

open Computations Selection Bodies Success Folding Steps

variable {α β : Type} {c : Context} {P : Int64 → ValueType → Prop}

/-! ### Errors that are about no constant -/

theorem blameless_bindSignature (convention : Convention) (s : Signature) :
    Blameless (convention.bindSignature s) := by
  unfold Convention.bindSignature
  cases Convention.interruptFault? s with
  | some reason => exact nofun
  | none =>
    cases Convention.returnKind? s.returnType with
    | none => exact nofun
    | some kind =>
      cases s.params.find? fun t => !t.isScalar with
      | some type => exact nofun
      | none => exact .ite nofun (.ok _)

theorem blameless_shapeOf (callee : String) (args : List Argument) (type : ValueType) :
    Blameless (shapeOf c callee args type) := by
  unfold shapeOf
  split
  · exact .ok _
  · exact (blameless_bindSignature _ _).next fun _ => .ok _

theorem blameless_numberTemps (convention : Convention) (f : FunctionDef) (b : Binding) :
    Blameless (numberTemps convention f b) := by
  have hdefine : ∀ (n : Numbering) (t : Temp) (type : ValueType), Blameless (n.define f t type) := by
    intro n t type
    unfold Numbering.define
    grind [Blameless]
  refine (Blameless.foldlM (fun n p => ?_) _ _).next fun n => .foldlM (fun n node => ?_) _ n
  · exact hdefine n p.1 p.2
  · unfold Numbering.defineNode
    grind [Blameless]

theorem blameless_frameLocals (f : FunctionDef) : Blameless (frameLocals f) := by
  have hplace : ∀ size top place, Blameless (placeTop size top place) := by
    intro size top place
    unfold placeTop
    split
    · exact (blameless_addWords _ _).next fun _ => .ok _
    · exact .ok _
  have htop : Blameless (frameTop f.body) :=
    .foldlM (fun top node => .foldlM (hplace (accessSize node)) (placesIn node) top) f.body 0
  unfold frameLocals
  grind [Blameless, Blameless.next]

/-! ### Steps -/

/-- What an error may say: if it is that of a constant out of range, the constant is outside the
range of the type, and it has a property. -/
def Names (c : Context) (P : Int64 → ValueType → Prop) : CompileError → Prop
  | .constantOutOfRange function value text =>
    function = c.function.name ∧ ∃ type, text = type.text ∧ ¬ InRange c value type ∧ P value type
  | _ => True

/-- **A step whose errors blame constants with a property.** -/
def Blames (c : Context) (P : Int64 → ValueType → Prop) (m : Lower α) : Prop :=
  ∀ st e, m c st = .error e → Names c P e

theorem blames_of_ok {m : Lower α} (h : ∀ st, ∃ r, m c st = .ok r) : Blames c P m := by
  intro st e herr
  obtain ⟨r, hok⟩ := h st
  rw [hok] at herr
  cases herr

theorem blames_lift {m : Compile α} (h : Blameless m) : Blames c P (m : Lower α) := by
  cases m with
  | ok a => exact blames_of_ok fun st => ⟨(a, st), rfl⟩
  | error e =>
    rintro st _ ⟨⟩
    cases e with
    | constantOutOfRange function value text => exact (h function value text rfl).elim
    | _ => trivial

theorem blames_before {m : Lower α} {f : α → Lower β} (h : Blames c P m)
    (hf : ∀ st a st', m c st = .ok (a, st') → Blames c P (f a)) : Blames c P (m >>= f) := by
  intro st e herr
  obtain hm | ⟨⟨a, st'⟩, ha, hf'⟩ := bind_eq_error (c := m c st) |>.mp herr
  · exact h st e hm
  · exact hf st a st' ha st' e hf'

theorem blames_reading {g : Context → Lower α} (h : Blames c P (g c)) : Blames c P (read >>= g) := h

/-- **The check of a constant** blames it. -/
theorem blames_checkConstant {v : Int64} {type : ValueType} (h : ¬ InRange c v type → P v type) :
    Blames c P (checkConstant v type) := by
  intro st e herr
  by_cases hin : InRange c v type
  · obtain ⟨x, st', hok, -⟩ := works_checkConstant hin st
    rw [hok] at herr
    cases herr
  · rw [fails_checkConstant hin st] at herr
    exact Except.error.inj herr ▸ ⟨rfl, type, rfl, hin, h hin⟩

/-- **The steps that blame constants with a property** are a kind of steps. -/
def blamesAt (c : Context) (P : Int64 → ValueType → Prop) : StepKind c where
  Has := Blames c P
  pure := fun a => blames_of_ok fun st => ⟨(a, st), rfl⟩
  get := blames_of_ok fun st => ⟨(st, st), rfl⟩
  set := fun st => blames_of_ok fun _ => ⟨((), st), rfl⟩
  lift := blames_lift
  unsupported := by
    rintro α node _ _ ⟨⟩
    trivial
  reading := fun _ => blames_reading
  asking := fun _ h => blames_reading <|
    blames_before (blames_lift (blameless_shapeOf _ _ _)) fun _ shape _ hshape =>
      h shape (Shapes.lift_ok hshape).1
  before := blames_before

/-! ### Functions -/

/-- The context that a function is selected in, before its temporaries have registers. -/
def contextOf (convention : Convention) (bindings : Std.TreeMap String Binding) (limits : Limits)
    (f : FunctionDef) (binding : Binding) : Context :=
  { convention, bindings, limits, function := f, binding, temps := ∅ }

/-- A constant that a body may be refused for: an operand of one of its nodes, or the successor that
one of its branches takes.  By default every successor is in range. -/
def Refusable (c : Context) (value : Int64) (type : ValueType) : Prop :=
  ∃ before node after, c.function.body = before ++ node :: after ∧
    ((.constant value, type) ∈ operandsAt c node ∨
      c.limits ≠ {} ∧ Stepped c after.head? node value type)

theorem stepped_limits {next : Option Node} {node : Node} {value : Int64} {type : ValueType}
    (h : Stepped c next node value type) : c.limits ≠ {} := by
  intro hlimits
  cases node with
  | branch =>
    obtain ⟨rfl, hscalar, compare, r, -, -, hout, -⟩ := h
    exact not_oversteps_default hscalar hlimits hout
  | _ => exact h.elim

theorem covers_refusable {before after : List Node} {node : Node}
    (h : c.function.body = before ++ node :: after) :
    (blamesAt c (Refusable c)).Covers node after.head? where
  operands := fun _ hp _ heq => blames_checkConstant fun _ => ⟨before, node, after, h, .inl (heq ▸ hp)⟩
  stepped := by
    rintro value type hstep _ ⟨⟩
    exact blames_checkConstant fun _ => ⟨before, node, after, h, .inr ⟨stepped_limits hstep, hstep⟩⟩

/-- **Lowering a body** blames the constants that the body may be refused for. -/
theorem blames_body (c : Context) (exit : String) : Blames c (Refusable c) (do
      lowerBody c.function.body
      label exit) :=
  ((StepKind.has_lowerBody fun _ _ _ heq => covers_refusable heq).next fun _ => StepKind.has_label _ :
    (blamesAt c (Refusable c)).Has _)

theorem blames_incoming : Blames c P copyIncoming :=
  (StepKind.has_copyIncoming : (blamesAt c P).Has copyIncoming)

/-- **The constant that a function is refused for** is outside the configured range of a type, and
it is an operand of a node at this type, or the successor that a branch takes of a constant in
range: the code holds the successor to the range, too, although the program does not have it.  By
default no successor is out of range. -/
theorem refused_constant {convention : Convention} {bindings : Std.TreeMap String Binding}
    {limits : Limits} {f : FunctionDef} {function text : String} {value : Int64}
    (h : selectFunction convention bindings limits f = .error (.constantOutOfRange function value text)) :
    function = f.name ∧ ∃ binding type, bindings[f.name]? = some binding ∧ text = type.text ∧
      ¬ InRange (contextOf convention bindings limits f binding) value type ∧
      Refusable (contextOf convention bindings limits f binding) value type := by
  unfold selectFunction at h
  cases hbinding : bindings[f.name]? with
  | none =>
    rw [hbinding] at h
    cases h
  | some binding =>
  rw [hbinding] at h
  let c := contextOf convention bindings limits f binding
  suffices hnames : Names c (Refusable c) (.constantOutOfRange function value text) by
    obtain ⟨hfunction, type, htext, hout, hwhere⟩ := hnames
    exact ⟨hfunction, binding, type, rfl, htext, hout, hwhere⟩
  obtain hnumber | ⟨numbering, -, h⟩ := bind_eq_error.mp h
  · exact (blameless_numberTemps convention f binding _ _ _ hnumber).elim
  obtain hcopy | ⟨⟨hidden, st⟩, -, h⟩ := bind_eq_error.mp h
  · exact blames_incoming (c := { c with temps := numbering.temps }) _ _ hcopy
  obtain hlower | ⟨r, -, h⟩ := bind_eq_error.mp h
  -- Neither the registers of the temporaries nor the hidden values change what is blamed.
  · exact blames_body { c with temps := numbering.temps, hidden } _ st _ hlower
  obtain hlocals | ⟨locals, -, h⟩ := bind_eq_error.mp h
  · exact (blameless_frameLocals f _ _ _ hlocals).elim
  · cases h

/-! #### A constant at the end of a range -/

/-- Whether a byte is at most 100. -/
def narrowFunction : FunctionDef where
  signature := { name := "f", params := [], returnType := .void }
  body := [.copy 0 (.constant 5) .u8, .branch .le (.temp 0) (.constant 100) .u8 1 2, .label 1, .ret none,
    .label 2, .ret none]

def narrowBindings : Std.TreeMap String Binding :=
  (∅ : Std.TreeMap String Binding).insert "f" Moves.followContext.binding

/-- What it is selected in where bytes go to 100. -/
def narrowSetting (binding : Binding) : Context :=
  contextOf Moves.followContext.convention narrowBindings narrowContext.limits narrowFunction binding

/-- The constants of the function are 5 and 100, and it is refused for 101. -/
theorem refused_successor :
    selectFunction Moves.followContext.convention narrowBindings narrowContext.limits narrowFunction =
      .error (.constantOutOfRange "f" 101 "u8") ∧
    (∀ binding, ∀ node ∈ narrowFunction.body, ∀ p ∈ operandsAt (narrowSetting binding) node, ∀ v,
      p.1 = .constant v → InRange (narrowSetting binding) v p.2) ∧
    "f" = narrowFunction.name ∧ ∃ binding type, narrowBindings[narrowFunction.name]? = some binding ∧
      "u8" = type.text ∧ ¬ InRange (narrowSetting binding) 101 type ∧
        Refusable (narrowSetting binding) 101 type := by
  have hcheck : (match selectFunction Moves.followContext.convention narrowBindings narrowContext.limits
      narrowFunction with
    | .error e => decide (e = .constantOutOfRange "f" 101 "u8")
    | .ok _ => false) = true := by decide +kernel
  have hrefused : selectFunction Moves.followContext.convention narrowBindings narrowContext.limits
      narrowFunction = .error (.constantOutOfRange "f" 101 "u8") := by
    split at hcheck
    · rename_i e he
      rw [he, of_decide_eq_true hcheck]
    · cases hcheck
  refine ⟨hrefused, fun binding => ?_, refused_constant hrefused⟩
  have hfive : InRange (narrowSetting binding) 5 .u8 := (by decide : InRange narrowContext 5 .u8)
  have hlast : InRange (narrowSetting binding) 100 .u8 := (by decide : InRange narrowContext 100 .u8)
  simp [narrowFunction, operandsAt, or_imp, forall_and, hfive, hlast]

end Codegen6502.Proofs.Selecting.OutOfRange
