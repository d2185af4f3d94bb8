import Codegen6502.Proofs.Selecting.Steps

/-!
# The name of the target

Lowering reads the name of the target only to put it into the texts of errors.  Two computations
have the same outcome (`SameOutcome`) if they give the same result or both fail; a step of lowering
is impartial (`Impartial`) if its outcome is the same whatever the name of the target is.

* `impartialAt`: the impartial steps are a kind of steps, and whether a constant is in range does
  not depend on the target (`covers_impartial`);
* `impartial_lowerBody`: lowering is impartial;
* `bind_outcome`, `selectFunction_outcome`: binding and selecting a function have the same outcome
  for a target of another name.
-/

namespace Codegen6502.Proofs.Selecting.Targets

open Selection Bodies Steps

variable {α β σ : Type}

/-! ### Outcomes -/

/-- **The same outcome**: the same result, or an error on both sides. -/
def SameOutcome (c c' : Compile α) : Prop := c.toOption = c'.toOption

namespace SameOutcome

variable {c c' : Compile α}

theorem refl (c : Compile α) : SameOutcome c c := Eq.refl c.toOption

theorem error (e e' : CompileError) : SameOutcome (.error e : Compile α) (.error e') := Eq.refl none

theorem ok (h : SameOutcome c c') {a : α} (hok : c' = .ok a) : c = .ok a := by
  subst hok
  cases c with
  | ok b => exact congrArg Except.ok (Option.some.inj h)
  | error e => cases h

/-- One computation after the other, the second one for the result of the first. -/
theorem before {f f' : α → Compile β} (h : SameOutcome c c')
    (hf : ∀ a, c' = .ok a → SameOutcome (f a) (f' a)) : SameOutcome (c >>= f) (c' >>= f') := by
  cases c' with
  | ok a =>
    rw [h.ok rfl]
    exact hf a rfl
  | error e' =>
    cases c with
    | ok a => cases h
    | error e => exact error e e'

theorem next {f f' : α → Compile β} (h : SameOutcome c c') (hf : ∀ a, SameOutcome (f a) (f' a)) :
    SameOutcome (c >>= f) (c' >>= f') := h.before fun a _ => hf a

theorem foldlM {f f' : σ → α → Compile σ} (h : ∀ s a, SameOutcome (f s a) (f' s a)) :
    ∀ (as : List α) (s : σ), SameOutcome (as.foldlM f s) (as.foldlM f' s)
  | [], _ => refl _
  | a :: as, s => by
    rw [List.foldlM_cons, List.foldlM_cons]
    exact (h s a).next (foldlM h as)

end SameOutcome

/-! ### Signatures -/

/-- The conventions for a target of another name. -/
def renamed (c : Convention) (target : String) : Convention := { c with target }

section Signatures

variable (c : Convention) (target : String)

theorem bindSignature_outcome (s : Signature) :
    SameOutcome ((renamed c target).bindSignature s) (c.bindSignature s) := by
  unfold Convention.bindSignature
  cases Convention.interruptFault? s with
  | some reason => exact .refl _
  | none =>
    cases Convention.returnKind? s.returnType with
    | none => exact .error _ _
    | some kind =>
      cases s.params.find? fun t => !t.isScalar with
      | some type => exact .error _ _
      | none => exact .refl _

/-- **Binding a function** has the same outcome for a target of another name. -/
theorem bind_outcome (f : FunctionDef) : SameOutcome ((renamed c target).bind f) (c.bind f) :=
  (bindSignature_outcome c target f.signature).next fun _ => .refl _

theorem bindImplied_outcome (name : String) (args : List Argument) (type : ValueType) :
    SameOutcome ((renamed c target).bindImplied name args type) (c.bindImplied name args type) :=
  (bindSignature_outcome c target _).next fun _ => .refl _

end Signatures

/-! ### Steps -/

/-- The context for a target of another name. -/
def aimed (c : Context) (target : String) : Context :=
  { c with convention := renamed c.convention target }

/-- **A step whose outcome does not depend on the name of the target.** -/
def Impartial (m : Lower α) : Prop := ∀ c target st, SameOutcome (m (aimed c target) st) (m c st)

theorem shapeOf_outcome (c : Context) (target : String) (callee : String) (args : List Argument)
    (type : ValueType) :
    SameOutcome (shapeOf (aimed c target) callee args type) (shapeOf c callee args type) := by
  have hbindings : (aimed c target).bindings = c.bindings := rfl
  unfold shapeOf
  rw [hbindings]
  cases c.bindings[callee]? with
  | some shape => exact .refl _
  | none => exact bindImplied_outcome c.convention target callee args type

/-- **The impartial steps** are a kind of steps. -/
def impartialAt (c : Context) : StepKind c where
  Has := fun m => ∀ target st, SameOutcome (m (aimed c target) st) (m c st)
  pure := fun _ _ _ => .refl _
  get := fun _ _ => .refl _
  set := fun _ _ _ => .refl _
  lift := fun _ _ _ => .refl _
  unsupported := fun _ _ _ => .error _ _
  reading := by
    intro α g hg h target st
    change SameOutcome (g (aimed c target) (aimed c target) st) (g c c st)
    rw [show g (aimed c target) = g c from hg target]
    exact h target st
  asking := by
    intro α callee args type f hf h target st
    have hshape := shapeOf_outcome c target callee args type
    have hlift : SameOutcome
        ((shapeOf (aimed c target) callee args type : Lower Binding) (aimed c target) st)
        ((shapeOf c callee args type : Lower Binding) c st) := hshape.next fun _ => .refl _
    refine hlift.before fun r hr => ?_
    rw [show f (aimed c target) = f c from hf target]
    exact h r.1 (Shapes.lift_ok hr).1 target r.2
  before := fun h hf target st => (h target st).before fun r hr => hf st r.1 r.2 hr target r.2

/-- Whether a constant is in range does not depend on the target. -/
theorem takes_impartial (c : Context) (value : Value) (type : ValueType) :
    (impartialAt c).Takes value type :=
  fun _ _ => .reading (fun _ => rfl) (.ite (fun _ _ => .refl _) (.pure ()))

theorem covers_impartial (c : Context) (node : Node) (next : Option Node) :
    (impartialAt c).Covers node next where
  operands := fun _ _ => takes_impartial c _ _
  stepped := fun _ _ _ => takes_impartial c _ _

theorem impartial_of_has {m : Lower α} (h : ∀ c, (impartialAt c).Has m) : Impartial m := h

/-- **Lowering a body is impartial.** -/
theorem impartial_lowerBody (nodes : List Node) (exit : String) : Impartial (do
      lowerBody nodes
      label exit) :=
  impartial_of_has fun c =>
    (StepKind.has_lowerBody fun _ _ _ _ => covers_impartial c _ _).next fun _ => StepKind.has_label _

theorem impartial_copyIncoming : Impartial copyIncoming :=
  impartial_of_has fun _ => StepKind.has_copyIncoming

/-! ### Functions -/

theorem numberTemps_outcome (c : Convention) (target : String) (f : FunctionDef) (b : Binding) :
    SameOutcome (numberTemps (renamed c target) f b) (numberTemps c f b) := by
  refine (SameOutcome.refl _).next fun n => .foldlM (fun n node => ?_) f.body n
  unfold Numbering.defineNode
  split
  · split
    · exact .refl _
    · exact .error _ _
  · exact .refl _

/-- **Selecting a function** has the same outcome for a target of another name. -/
theorem selectFunction_outcome (c : Convention) (target : String)
    (bindings : Std.TreeMap String Binding) (limits : Limits) (f : FunctionDef) :
    SameOutcome (selectFunction (renamed c target) bindings limits f)
      (selectFunction c bindings limits f) := by
  unfold selectFunction
  cases bindings[f.name]? with
  | none => exact .refl _
  | some b =>
    refine (numberTemps_outcome c target f b).next fun numbering => ?_
    let context : Context :=
      { convention := c, bindings, limits, function := f, binding := b, temps := numbering.temps }
    refine SameOutcome.next (impartial_copyIncoming context target _) fun r => ?_
    exact SameOutcome.next (impartial_lowerBody f.body _ { context with hidden := r.1 } target r.2)
      fun _ => .refl _

end Codegen6502.Proofs.Selecting.Targets
