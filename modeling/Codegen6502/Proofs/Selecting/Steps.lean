import Codegen6502.Proofs.Selecting.Incoming
import Codegen6502.Proofs.Selecting.Success

/-!
# Kinds of steps

Lowering goes by steps that change the state, look at the context or fail.  A kind of steps
(`StepKind`) is closed under sequence and has all steps but two: looking at the name of the target,
which lowering does only for the text of an error, and checking a constant, which may fail because
of the program.

A kind has all of lowering if it has the checks of the constants that lowering makes (`Covers`).
They are the checks of the operands of a node, each at the type that it is used at (`operandsAt`),
and that of the successor that a branch on a constant may take (`Stepped`):

* `has_lowerNode`, `has_lowerBody`: the steps of a node and of a body;
* `has_copyIncoming`: the steps in front of a body.

The rules for sequences and the lemmas of the single steps are tagged, so that the steps whose code
is a sequence of known steps need no more than their definition.
-/

namespace Codegen6502.Proofs.Selecting.Steps

open Computations Selection Nodes Bodies Incoming Success

variable {α β σ : Type} {c : Context}

/-! ### What is checked -/

/-- The arguments of a call, each at the type that it is passed at. -/
def argumentsAt (shape : Binding) (args : List Argument) : List (Value × ValueType) :=
  (args.zip shape.params).map (fun p => (p.1.value, p.2.type)) ++
    (args.drop shape.params.length).map fun arg => (arg.value, arg.type)

/-- The values that a node uses, each at the type that it is used at. -/
def operandsAt (c : Context) : Node → List (Value × ValueType)
  | .copy _ value type | .store value _ type => [(value, type)]
  | .binary _ _ lhs rhs type | .branch _ lhs rhs type _ _ => [(lhs, type), (rhs, type)]
  | .call _ callee args type _ =>
    match shapeOf c callee args type with
    | .ok shape => argumentsAt shape args
    | .error _ => []
  | .asmCall _ a x y .. => (a.toList ++ x.toList ++ y.toList).map fun value => (value, .u8)
  | .ret value? => value?.toList.map fun value => (value, c.binding.returnType)
  | .longJmp _ value | .storeField value .. => [(value, .u8)]
  | .jump _ | .label _ | .setJmp .. | .vaStart _ | .vaArg .. | .vaCount _ | .loadField .. => []

/-- The constant that exactly one of two values is, and the comparison of the other value with
it. -/
def againstConstant? (compare : CompareOp) (lhs rhs : Value) : Option (CompareOp × Int64) :=
  match lhs.constant?, rhs.constant? with
  | some l, none => some (compare.swapped, l)
  | none, some r => some (compare, r)
  | _, _ => none

/-- A constant that need not be an operand of a node: the successor of the constant of a branch.
The constant itself is in range, and the successor is not. -/
def Stepped (c : Context) (next : Option Node) : Node → Int64 → ValueType → Prop
  | .branch op lhs rhs type ifTrue ifFalse, value, used =>
    used = type ∧ type.isScalar = true ∧ ∃ compare r,
      againstConstant? (asked op ifTrue ifFalse next) lhs rhs = some (compare, r) ∧
        InRange c r type ∧ Oversteps c compare r type ∧ value = wrap r type + 1
  | _, _, _ => False

/-! ### Errors that are about no constant -/

/-- A computation that never ends in the error of a constant out of range. -/
def Blameless (m : Compile α) : Prop :=
  ∀ function value text, m ≠ .error (.constantOutOfRange function value text)

namespace Blameless

theorem ok (a : α) : Blameless (.ok a) := fun _ _ _ h => nomatch h

theorem next {m : Compile α} {f : α → Compile β} (h : Blameless m) (hf : ∀ a, Blameless (f a)) :
    Blameless (m >>= f) := by
  intro function value text heq
  obtain hm | ⟨a, -, ha⟩ := bind_eq_error.mp heq
  · exact h function value text hm
  · exact hf a function value text ha

theorem ite {p : Prop} [Decidable p] {m m' : Compile α} (h : Blameless m) (h' : Blameless m') :
    Blameless (if p then m else m') := by
  split
  · exact h
  · exact h'

theorem foldlM {f : σ → α → Compile σ} (h : ∀ s a, Blameless (f s a)) :
    ∀ (as : List α) (s : σ), Blameless (as.foldlM f s)
  | [], s => ok s
  | a :: as, s => by
    rw [List.foldlM_cons]
    exact (h s a).next (foldlM h as)

end Blameless

theorem blameless_storeA (d : Draft) (loc : ByteLoc) : Blameless (d.storeA loc) := by
  unfold Draft.storeA
  grind [Blameless]

theorem blameless_compute (d : Draft) (opcode : Opcode) (loc : ByteLoc) :
    Blameless (d.compute opcode loc) := by
  unfold Draft.compute
  grind [Blameless]

theorem blameless_materialize (d : Draft) (loc : ByteLoc) : Blameless (d.materialize loc) := by
  have := blameless_storeA
  unfold Draft.materialize
  grind [Blameless]

theorem blameless_addWords (a b : UInt16) : Blameless (addWords a b) := by
  unfold addWords
  grind [Blameless]

theorem blameless_callKind (convention : Convention) (caller callee : Binding) :
    Blameless (convention.callKind caller callee) := by
  unfold Convention.callKind
  grind [Blameless]

/-! ### Kinds -/

/-- **A kind of steps**, at a context. -/
structure StepKind (c : Context) where
  Has : ∀ {α : Type}, Lower α → Prop
  pure : ∀ {α : Type} (a : α), Has (Pure.pure a : Lower α)
  get : Has (MonadState.get : Lower State)
  set : ∀ st : State, Has (MonadStateOf.set st : Lower PUnit)
  lift : ∀ {α : Type} {m : Compile α}, Blameless m → Has (m : Lower α)
  unsupported : ∀ {α : Type} (node : Node), Has (Selection.unsupported node : Lower α)
  /-- A step that looks at the context, but not at the name of the target. -/
  reading : ∀ {α : Type} {g : Context → Lower α},
    (∀ target, g { c with convention := { c.convention with target } } = g c) → Has (g c) →
    Has (MonadReader.read >>= g)
  /-- A step that asks the context for the shape of a callee.  That of a callee that the program
  never declares comes from a signature, which may fail with an error that names the target. -/
  asking : ∀ {α : Type} {callee : String} {args : List Argument} {type : ValueType}
    {f : Context → Binding → Lower α},
    (∀ target, f { c with convention := { c.convention with target } } = f c) →
    (∀ shape, shapeOf c callee args type = .ok shape → Has (f c shape)) →
    Has (do
      let c ← MonadReader.read
      let shape ← (shapeOf c callee args type : Compile Binding)
      f c shape)
  /-- One step after the other, the second one for the results that the first one gives. -/
  before : ∀ {α β : Type} {m : Lower α} {f : α → Lower β}, Has m →
    (∀ st a st', m c st = .ok (a, st') → Has (f a)) → Has (m >>= f)

namespace StepKind

variable {k : StepKind c}

namespace Has

variable {m m' : Lower α} {f : α → Lower β}

@[grind ←] theorem pure (a : α) : k.Has (Pure.pure a : Lower α) := k.pure a

@[grind ←] theorem get : k.Has (MonadState.get : Lower State) := k.get

@[grind ←] theorem set (st : State) : k.Has (MonadStateOf.set st : Lower PUnit) := k.set st

theorem lift {m : Compile α} (h : Blameless m) : k.Has (m : Lower α) := k.lift h

theorem reading {g : Context → Lower α}
    (hg : ∀ target, g { c with convention := { c.convention with target } } = g c) (h : k.Has (g c)) :
    k.Has (MonadReader.read >>= g) := k.reading hg h

theorem before (h : k.Has m) (hf : ∀ st a st', m c st = .ok (a, st') → k.Has (f a)) :
    k.Has (m >>= f) := k.before h hf

@[grind ←] theorem next (h : k.Has m) (hf : ∀ a, k.Has (f a)) : k.Has (m >>= f) :=
  h.before fun _ a _ _ => hf a

theorem ite {p : Prop} [Decidable p] (h : k.Has m) (h' : k.Has m') : k.Has (if p then m else m') := by
  split
  · exact h
  · exact h'

@[grind ←] theorem mapM (h : ∀ a, k.Has (f a)) (as : List α) : k.Has (as.mapM f) := by
  induction as with
  | nil => exact pure []
  | cons a rest ih =>
    rw [List.mapM_cons]
    exact (h a).next fun b => ih.next fun bs => pure (b :: bs)

@[grind ←] theorem forM {g : α → Lower PUnit} (h : ∀ a, k.Has (g a)) (as : List α) :
    k.Has (as.forM g) := by
  induction as with
  | nil => exact pure ()
  | cons a rest ih => exact (h a).next fun _ => ih

@[grind ←] theorem times {step : Lower Unit} (h : k.Has step) (n : ℕ) : k.Has (times n step) := by
  induction n with
  | zero => exact pure ()
  | succ n ih => exact h.next fun _ => ih

end Has

@[grind ←] theorem has_invalid (problem : String) : k.Has (invalid problem : Lower α) :=
  .reading (fun _ => rfl) (k.lift (m := .error _) fun _ _ _ h => nomatch h)

@[grind ←] theorem has_unsupported (node : Node) : k.Has (Selection.unsupported node : Lower α) :=
  k.unsupported node

@[grind ←] theorem has_internal (problem : String) : k.Has (internal problem : Lower α) :=
  k.lift (m := .error _) fun _ _ _ h => nomatch h

@[grind ←] theorem has_modifyDraft (f : Draft → Draft) : k.Has (modifyDraft f) :=
  (Has.get.next fun st => .set { st with draft := f st.draft } : k.Has (MonadState.get >>= _))

theorem has_tryDraft {f : Draft → Compile Draft} (h : ∀ d, Blameless (f d)) : k.Has (tryDraft f) :=
  Has.get.next fun st => (Has.lift (h st.draft)).next fun _ => .set _

section Emitting

variable (opcode : Opcode) (operand : Operand) (loc : ByteLoc) (target : String)

@[grind ←] theorem has_op : k.Has (op opcode operand) := has_modifyDraft _

@[grind ←] theorem has_bare : k.Has (bare opcode) := has_modifyDraft _

@[grind ←] theorem has_label : k.Has (label target) := has_modifyDraft _

@[grind ←] theorem has_branch : k.Has (branch opcode target) := has_modifyDraft _

@[grind ←] theorem has_jmp : k.Has (jmp target) := has_modifyDraft _

@[grind ←] theorem has_loadA : k.Has (loadA loc) := has_modifyDraft _

@[grind ←] theorem has_storeA : k.Has (storeA loc) := has_tryDraft fun d => blameless_storeA d loc

@[grind ←] theorem has_compute : k.Has (compute opcode loc) :=
  has_tryDraft fun d => blameless_compute d opcode loc

@[grind ←] theorem has_test : k.Has (test loc) := has_modifyDraft _

@[grind ←] theorem has_materialize : k.Has (materialize loc) :=
  Has.get.next fun st => (Has.lift (blameless_materialize st.draft loc)).next fun _ =>
    (Has.set _).next fun _ => .pure _

@[grind ←] theorem has_newVReg : k.Has newVReg := by grind [newVReg]

@[grind ←] theorem has_newPair : k.Has newPair := by grind [newPair]

@[grind ←] theorem has_newLabel : k.Has newLabel :=
  Has.get.next fun _ => (Has.set _).next fun _ => .reading (fun _ => rfl) (.pure _)

end Emitting

section Candidates

variable {build : Lower Unit}

@[grind ←] theorem has_candidate (h : k.Has build) : k.Has (candidate build) := by grind [candidate]

@[grind ←] theorem has_commitOnly (h : k.Has build) : k.Has (commitOnly build) := by
  grind [commitOnly, commit]

@[grind ←] theorem has_commitCheapest (candidates : List Draft) : k.Has (commitCheapest candidates) := by
  grind [commitCheapest, commit]

end Candidates

/-! ### Values and places -/

/-- The check of a value, if it is a constant. -/
def Takes (k : StepKind c) (value : Value) (type : ValueType) : Prop :=
  ∀ v, value = .constant v → k.Has (checkConstant v type)

@[grind ←] theorem takes_temp (x : Temp) (type : ValueType) : k.Takes (.temp x) type :=
  fun _ h => nomatch h

variable {type : ValueType} {lhs rhs value : Value} {result : Temp} {node : Node} {place : Place}

/-- The check of a constant that is in range does nothing. -/
theorem takes_of_inRange {v : Int64} (h : InRange c v type) : k.Takes (.constant v) type := by
  rintro _ ⟨⟩
  refine .reading (fun _ => rfl) ?_
  rw [InRange] at h
  rw [h]
  exact .pure ()

theorem inRange_of_check {v : Int64} {st st' : State} {x : Unit}
    (h : checkConstant v type c st = .ok (x, st')) : InRange c v type := by
  by_contra hout
  rw [fails_checkConstant hout st] at h
  cases h

@[grind ←] theorem has_checkScalar : k.Has (checkScalar type node) := by grind [checkScalar]

@[grind ←] theorem has_tempInfo (t : Temp) : k.Has (tempInfo t) :=
  .reading (fun _ => rfl) (by grind)

@[grind ←] theorem has_destination (t : Temp) : k.Has (destination t) := by grind [destination]

@[grind ←] theorem has_pointerOf (t : Temp) : k.Has (pointerOf t) := by grind [pointerOf]

@[grind ←] theorem has_resultPointer : k.Has resultPointer := .reading (fun _ => rfl) (by grind)

@[grind ←] theorem has_iocbAddress {channel : UInt8} {field : IocbField} :
    k.Has (iocbAddress channel field) := by
  grind [iocbAddress]

@[grind ←] theorem has_placeLoc : k.Has (placeLoc place) := by
  unfold placeLoc
  split <;> grind

@[grind ←] theorem has_placeBytes (size : ℕ) : k.Has (placeBytes place size) := by grind [placeBytes]

@[grind ←] theorem has_signByte (top : ByteLoc) : k.Has (signByte top) := by
  refine has_newVReg.next fun v => (has_loadA top).next fun _ => ?_
  grind

@[grind ←] theorem has_valueBytes (h : k.Takes value type) : k.Has (valueBytes value type) := by
  cases value with
  | constant v => exact (h v rfl).next fun _ => .pure _
  | temp | memory => grind [valueBytes]

@[grind ←] theorem has_operandBytes (h : k.Takes value type) : k.Has (operandBytes value type) := by
  grind [operandBytes]

@[grind ←] theorem has_pointerPlus (pointer : PointerPair) (offset : UInt8) :
    k.Has (pointerPlus pointer offset) := by
  refine .ite (.pure _) (has_newPair.next fun pair => (has_loadA _).next fun _ => ?_)
  grind

@[grind ←] theorem has_addressBytes : k.Has (addressBytes place node) := by
  unfold addressBytes
  split <;> grind

@[grind ←] theorem has_copyBytes : ∀ srcs dsts : List ByteLoc, k.Has (copyBytes srcs dsts)
  | src :: srcs, dst :: dsts => by
    have := has_copyBytes srcs dsts
    grind [copyBytes]
  | [], _ => .pure ()
  | _ :: _, [] => .pure ()

/-! ### Arithmetic -/

section Arithmetic

variable {binary : BinaryOp} {next : Option Node}

@[grind ←] theorem has_lowerCopy (h : k.Takes value type) :
    k.Has (lowerCopy node result value type) := by
  grind [lowerCopy]

@[grind ←] theorem has_storeInto (h : k.Takes value type) :
    k.Has (storeInto node value place type) := by
  grind [storeInto]

@[grind ←] theorem has_computeBytes (opcode : Opcode) :
    ∀ dsts ls rs : List ByteLoc, k.Has (computeBytes opcode dsts ls rs)
  | dst :: dsts, l :: ls, r :: rs => by
    have := has_computeBytes opcode dsts ls rs
    grind [computeBytes]
  | [], _, _ => .pure ()
  | _ :: _, [], _ => .pure ()
  | _ :: _, _ :: _, [] => .pure ()

@[grind ←] theorem has_byteWise (hl : k.Takes lhs type) (hr : k.Takes rhs type) :
    k.Has (byteWise binary lhs rhs type result) := by
  have hstart : k.Has (startChain binary) := by cases binary <;> grind [startChain]
  rw [byteWise_eq]
  grind [setApart]

@[grind ←] theorem has_stepBytes (up : Bool) (bytes : List ByteLoc) : k.Has (stepBytes up bytes) := by
  have hoperand : ∀ loc, k.Has (directOperand loc) := by
    rintro (operand | pointer)
    · exact .pure operand
    · exact has_internal _
  refine (Has.mapM hoperand bytes).next fun operands => ?_
  grind

@[grind ←] theorem has_stepInPlace : k.Has (stepInPlace result binary lhs rhs type) := by
  grind [stepInPlace]

@[grind ←] theorem has_fusedStep {stored : Temp} {storeType : ValueType} :
    k.Has (fusedStep result binary lhs rhs type stored place storeType) :=
  .reading (fun _ => rfl) (by grind)

@[grind ←] theorem has_byteWiseCandidates (hl : k.Takes lhs type) (hr : k.Takes rhs type)
    (generic : Draft) : k.Has (byteWiseCandidates generic result binary lhs rhs type) := by
  grind [byteWiseCandidates]

/-- The store that is taken along stores the temporary. -/
@[grind ←] theorem has_lowerByteWise (hl : k.Takes lhs type) (hr : k.Takes rhs type) :
    k.Has (lowerByteWise result binary lhs rhs type next) := by
  refine (has_candidate (has_byteWise hl hr)).next fun generic => ?_
  have halone : k.Has (do
      commitCheapest (← byteWiseCandidates generic result binary lhs rhs type)
      return false) := by grind
  split
  · refine has_fusedStep.next fun step? => ?_
    split
    · refine Has.next ?_ fun d => (has_commitCheapest _).next fun _ => .pure true
      grind [lowerByteWise.continueCandidate]
    · exact halone
  · exact halone

section Shifts

variable {left arithmetic : Bool} {bits : ℕ}

@[grind ←] theorem has_shiftA : k.Has (shiftA left arithmetic) := by grind [shiftA]

@[grind ←] theorem has_shiftPair {lo hi : Operand} : k.Has (shiftPair left arithmetic lo hi) := by
  grind [shiftPair]

@[grind ←] theorem has_shiftByte {dst : ByteLoc} (h : k.Takes lhs type) :
    k.Has (shiftByte result lhs type left arithmetic bits dst) := by
  refine (has_candidate ?_).next fun inA => ?_
  · grind
  · refine .ite ((has_candidate ?_).next fun inPlace => .pure _) (.pure _)
    grind

@[grind ←] theorem has_shiftWord {dstLo dstHi : ByteLoc} (h : k.Takes lhs type) :
    k.Has (shiftWord lhs type left arithmetic bits dstLo dstHi) := by
  refine has_candidate ((has_valueBytes h).next fun bytes => ?_)
  grind

/-- The number of bits is not held to the range of the type. -/
@[grind ←] theorem has_lowerShift (h : k.Takes lhs type) :
    k.Has (lowerShift node result binary lhs rhs type) := by
  unfold lowerShift
  split
  · dsimp only
    split
    · grind
    · refine (has_destination result).next fun dst => .ite ?_ ?_
      · grind
      · split <;> grind
  · exact has_unsupported node

end Shifts

theorem constant_eq {v : Value} {r : Int64} (h : v.constant? = some r) : v = .constant r := by
  cases v <;> simp_all [Value.constant?]

@[grind ←] theorem has_lowerBinary (hl : k.Takes lhs type) (hr : k.Takes rhs type) :
    k.Has (lowerBinary node result binary lhs rhs type next) := by
  refine has_checkScalar.next fun _ => ?_
  split
  · rename_i l r hlhs hrhs
    refine (hl l (constant_eq hlhs)).next fun _ => (hr r (constant_eq hrhs)).next fun _ => ?_
    grind
  · cases binary <;> grind

end Arithmetic

/-! ### Bit-fields -/

section Fields

variable {field : BitField}

@[grind ←] theorem has_checkField : k.Has (checkField node field) := by grind [checkField]

@[grind ←] theorem has_lowerLoadField : k.Has (lowerLoadField node result place field) := by
  refine has_checkField.next fun _ => has_commitOnly ?_
  grind

@[grind ←] theorem has_lowerStoreField (h : k.Takes value .u8) :
    k.Has (lowerStoreField node value place field) := by
  refine has_checkField.next fun _ => has_commitOnly ?_
  refine has_placeLoc.next fun byte => ?_
  dsimp only
  split
  · rename_i v hvalue
    refine (h v (constant_eq hvalue)).next fun _ => ?_
    grind
  · refine (has_operandBytes h).next fun bytes => ?_
    split
    · refine has_newVReg.next fun v => (has_loadA _).next fun _ => ?_
      refine (has_bare _).times _ |>.next fun _ => ?_
      grind
    · exact has_internal _

end Fields

/-! ### Branches -/

section Branches

variable {compare : CompareOp} {target : String} {next : Option Node} {r : Int64}

@[grind ←] theorem has_jumpTo (id : LabelId) : k.Has (jumpTo id next) :=
  .ite (.reading (fun _ => rfl) (has_jmp _)) (.pure ())

@[grind ←] theorem has_equality {equal : Bool} (hl : k.Takes lhs type) (hr : k.Takes rhs type) :
    k.Has (equality equal lhs rhs type target) := by
  refine has_candidate ((has_valueBytes hl).next fun lb => (has_operandBytes hr).next fun rb => ?_)
  split
  · grind
  · refine .ite (has_newLabel.next fun skip => (has_loadA _).next fun _ => ?_) ?_ <;> grind
  · grind

@[grind ←] theorem has_ordering {less : Bool} (hl : k.Takes lhs type) (hr : k.Takes rhs type) :
    k.Has (ordering less lhs rhs type target) := by
  have hsubtract : ∀ lb rb, k.Has (subtract type.isSigned lb rb) := by
    intro lb rb
    unfold subtract
    split <;> grind
  have hdecide : k.Has (decideOrder type.isSigned less target) := by grind [decideOrder]
  rw [ordering_eq]
  grind

@[grind ←] theorem has_zeroTest {isZero : Bool} (h : k.Takes value type) :
    k.Has (zeroTest isZero value type target) := by
  have hcombine : ∀ base opcode first second,
      k.Has (zeroTest.combine target base opcode first second) := fun base opcode first second =>
    (Has.lift (blameless_compute _ _ _)).next fun d => .pure _
  have hbuild : ∀ base opcode bytes, k.Has (zeroTest.build target base opcode bytes) := by
    intro base opcode bytes
    unfold zeroTest.build
    split <;> grind
  refine Has.get.next fun s => ?_
  grind

@[grind ←] theorem has_signTest {negative : Bool} (h : k.Takes value type) :
    k.Has (signTest negative value type target) := by
  grind [signTest]

@[grind ←] theorem has_positiveTest {positive : Bool} (h : k.Takes value type) :
    k.Has (positiveTest positive value type target) := by
  have hor : ∀ bytes, k.Has (orHalves bytes) := by
    intro bytes
    unfold orHalves
    split <;> grind
  rw [positiveTest_eq]
  refine has_candidate ((has_valueBytes h).next fun bytes => ?_)
  split
  · refine (has_test _).next fun _ => has_newLabel.next fun skip => ?_
    grind
  · exact has_internal _

@[grind ←] theorem has_zeroCandidates (h : k.Takes value type) :
    k.Has (zeroCandidates compare value type target) := by
  cases compare <;> grind [zeroCandidates]

@[grind ←] theorem has_plainCandidates (hl : k.Takes lhs type) (hr : k.Takes rhs type) :
    k.Has (plainCandidates compare lhs rhs type target) := by
  cases compare <;> grind [plainCandidates]

/-- A comparison with a constant checks the constant, and the successor that it takes. -/
theorem has_constantCandidates (hl : k.Takes lhs type) (hr : k.Takes (.constant r) type)
    (hstep : InRange c r type → Oversteps c compare r type →
      k.Takes (.constant (wrap r type + 1)) type) :
    k.Has (constantCandidates compare lhs r type target) := by
  refine (hr r rfl).before fun _ _ _ hok => ?_
  dsimp only
  split
  · grind
  · rename_i hnever
    split
    · grind
    · rename_i halways
      split
      · exact has_zeroCandidates hl
      · rename_i hzero
        have hsuccessor (h : compare = .gt ∨ compare = .le) :
            k.Takes (.constant (wrap r type + 1)) type := by
          by_cases hin : InRange c (wrap r type + 1) type
          · exact takes_of_inRange hin
          refine hstep (inRange_of_check hok) ⟨h, fun hlast => ?_, hzero, hin⟩
          rcases h with rfl | rfl
          · simp [hlast] at hnever
          · simp [hlast] at halways
        cases compare <;> grind

theorem has_branchCandidates (hl : k.Takes lhs type) (hr : k.Takes rhs type)
    (hone : ∀ l r, lhs.constant? = some l → rhs.constant? = some r → False)
    (hstep : ∀ op r, againstConstant? compare lhs rhs = some (op, r) → InRange c r type →
      Oversteps c op r type → k.Takes (.constant (wrap r type + 1)) type) :
    k.Has (branchCandidates compare lhs rhs type target) := by
  unfold againstConstant? at hstep
  unfold branchCandidates
  cases hlhs : lhs.constant? with
  | some l =>
    cases hrhs : rhs.constant? with
    | some r => exact (hone l r hlhs hrhs).elim
    | none =>
      rw [hlhs, hrhs] at hstep
      obtain rfl := constant_eq hlhs
      exact has_constantCandidates hr hl (hstep _ _ rfl)
  | none =>
    cases hrhs : rhs.constant? with
    | some r =>
      rw [hlhs, hrhs] at hstep
      obtain rfl := constant_eq hrhs
      exact has_constantCandidates hl hr (hstep _ _ rfl)
    | none => simpa [hrhs] using has_plainCandidates hl hr

theorem has_lowerBranch {ifTrue ifFalse : LabelId} (hl : k.Takes lhs type) (hr : k.Takes rhs type)
    (hstep : ∀ op r, type.isScalar = true →
      againstConstant? (asked compare ifTrue ifFalse next) lhs rhs = some (op, r) → InRange c r type →
      Oversteps c op r type → k.Takes (.constant (wrap r type + 1)) type) :
    k.Has (lowerBranch node compare lhs rhs type ifTrue ifFalse next) := by
  refine has_checkScalar.before fun _ _ _ hok => ?_
  split
  · rename_i l r hlhs hrhs
    refine (hl l (constant_eq hlhs)).next fun _ => (hr r (constant_eq hrhs)).next fun _ => ?_
    exact has_jumpTo _
  · rename_i hone
    have hcandidates : ∀ target,
        k.Has (branchCandidates (asked compare ifTrue ifFalse next) lhs rhs type target) :=
      fun target => has_branchCandidates hl hr hone fun op r => hstep op r (Moves.checkScalar_ok hok).1
    unfold asked at hcandidates
    refine .reading (fun _ => rfl) ?_
    grind

end Branches

/-! ### Calls -/

section Calls

variable {callee : String} {shape : Binding} {args : List Argument} {buffer : Option Place}
  {call? : Option Temp} {kind : Convention.CallKind}

@[grind ←] theorem has_passByte (slot : UInt8) (byte : ByteLoc) : k.Has (passByte slot byte) := by
  have hslot : k.Has (argLoc slot) := .reading (fun _ => rfl) (.pure _)
  grind [passByte]

@[grind ←] theorem has_passBytes : ∀ (slot : UInt8) (bytes : List ByteLoc),
    k.Has (passBytes slot bytes)
  | _, [] => .pure ()
  | slot, byte :: rest => (has_passByte slot byte).next fun _ => has_passBytes _ rest

@[grind ←] theorem has_storeWord (dst : List ByteLoc) : k.Has (storeWord dst) := by
  unfold storeWord
  split <;> grind

theorem has_checkCall : k.Has (checkCall callee shape args buffer) := by
  unfold checkCall
  refine .ite ((has_invalid _).next fun _ => ?_) ?_
  all_goals
    dsimp only
    split <;> grind

/-- The types of arguments that a callee has no parameter for are their own. -/
theorem has_pushVariadic : ∀ {args : List Argument},
    (∀ arg ∈ args, k.Takes arg.value arg.type) → k.Has (pushVariadic node args)
  | [], _ => .pure 0
  | arg :: rest, h => by
    have hpush : ∀ bytes, k.Has (pushBytes bytes) := fun bytes =>
      Has.forM (fun byte => (has_loadA byte).next fun _ => has_bare _) _
    obtain ⟨harg, hrest⟩ := List.forall_mem_cons.mp h
    refine (has_pushVariadic hrest).next fun above => has_checkScalar.next fun _ => ?_
    exact (has_valueBytes harg).next fun bytes =>
      (hpush bytes).next fun _ => .lift (blameless_addWords _ _)

theorem has_passVariadic (h : ∀ arg ∈ args, k.Takes arg.value arg.type) :
    k.Has (passVariadic node callee shape args) := by
  rw [passVariadic_eq]
  refine (has_pushVariadic h).next fun block => ?_
  unfold passPointer
  refine .ite ((has_invalid _).next fun _ => ?_) ?_
  all_goals
    dsimp only
    split
    · refine (has_bare _).next fun _ => (has_bare _).next fun _ => .reading (fun _ => rfl) ?_
      grind
    · exact has_internal _

theorem has_passArguments : ∀ {args : List (Argument × ParamSlot)},
    (∀ p ∈ args, k.Takes p.1.value p.2.type) → k.Has (passArguments args)
  | [], _ => .pure ()
  | (_, param) :: rest, h => by
    obtain ⟨harg, hrest⟩ := List.forall_mem_cons.mp h
    exact (has_valueBytes harg).next fun bytes => (has_passBytes param.slot bytes).next fun _ =>
      has_passArguments hrest

theorem has_emitCall : k.Has (emitCall callee kind) := by
  cases kind <;> grind [emitCall, Selection.call]

theorem has_storeResult : k.Has (storeResult callee shape result) := by grind [storeResult]

theorem has_callShape (h : ∀ p ∈ argumentsAt shape args, k.Takes p.1 p.2) :
    k.Has (callShape node call? callee args buffer shape kind) := by
  obtain ⟨hfixed, hextra⟩ := List.forall_mem_append.mp h
  rw [List.forall_mem_map] at hfixed hextra
  have hblock : k.Has (passBlock node callee shape args) := .ite (has_passVariadic hextra) (.pure 0)
  have hbuffer : k.Has (passBuffer node shape buffer) := by
    unfold passBuffer
    split <;> grind
  have hresult : k.Has (takeResult callee shape call?) := by
    cases call? with
    | some result => exact has_storeResult
    | none => exact .pure ()
  refine hblock.next fun block => hbuffer.next fun _ => ?_
  refine (has_passArguments hfixed).next fun _ => has_emitCall.next fun _ => ?_
  grind

theorem has_lowerCall (h : ∀ shape, shapeOf c callee args type = .ok shape →
      ∀ p ∈ argumentsAt shape args, k.Takes p.1 p.2) :
    k.Has (lowerCall node call? callee args type buffer) := by
  rw [lowerCall_eq]
  refine k.asking (fun _ => rfl) fun shape hshape => ?_
  refine (Has.lift (blameless_callKind _ _ _)).next fun kind => has_checkCall.next fun _ => ?_
  exact has_commitOnly (has_callShape (h shape hshape))

end Calls

/-! ### Fixed addresses, returns and jumps -/

/-- The check of a value that may be missing. -/
def TakesOption (k : StepKind c) (value? : Option Value) (type : ValueType) : Prop :=
  ∀ value ∈ value?, k.Takes value type

theorem has_registerByte {value? : Option Value} (h : k.TakesOption value? .u8) :
    k.Has (registerByte value?) := by
  cases value? with
  | none => exact .pure none
  | some value =>
    have := h value rfl
    grind [registerByte]

theorem has_lowerAsmCall {address : UInt16} {a x y : Option Value} {clobbers : DeclaredClobbers}
    {result? : Option Temp} (ha : k.TakesOption a .u8) (hx : k.TakesOption x .u8)
    (hy : k.TakesOption y .u8) : k.Has (lowerAsmCall address a x y clobbers result?) := by
  have hloadY : ∀ y, k.Has (loadY y) := by grind [loadY]
  have hloadAX : ∀ a x, k.Has (loadAX a x) := by
    intro a x
    unfold loadAX
    split <;> grind
  refine has_commitOnly ?_
  refine (has_registerByte ha).next fun a => (has_registerByte hx).next fun x => ?_
  refine (has_registerByte hy).next fun y => ?_
  cases y with
  | some y =>
    refine (hloadY y).next fun _ => (hloadAX a x).next fun _ => ?_
    grind
  | none =>
    refine (hloadAX a x).next fun _ => ?_
    grind

theorem has_returnCandidates {value? : Option Value}
    (h : k.TakesOption value? c.binding.returnType) : k.Has (returnCandidates value?) := by
  refine .reading (fun _ => rfl) ?_
  dsimp only
  split
  case h_7 =>
    have := h _ rfl
    grind
  case h_8 =>
    refine Has.get.next fun s => (Has.set _).next fun _ => ?_
    refine (has_valueBytes (h _ rfl)).next fun bytes => ?_
    grind
  all_goals grind

theorem has_lowerReturn {value? : Option Value} {isLast : Bool}
    (h : k.TakesOption value? c.binding.returnType) : k.Has (lowerReturn value? isLast) := by
  refine (has_returnCandidates h).next fun candidates => .ite (has_commitCheapest _) ?_
  exact .reading (fun _ => rfl) (has_commitCheapest _)

theorem has_lowerSetJmp : k.Has (lowerSetJmp node result place) := by
  grind [lowerSetJmp, Selection.call]

theorem has_lowerLongJmp (h : k.Takes value .u8) : k.Has (lowerLongJmp node place value) := by
  refine has_commitOnly (has_addressBytes.next fun pair => (has_valueBytes h).next fun bytes => ?_)
  grind

theorem has_lowerVaStart {cursor : Temp} : k.Has (lowerVaStart cursor) :=
  .reading (fun _ => rfl) (by grind)

theorem has_loadBehind (pointer : PointerPair) :
    ∀ (offset : UInt8) (bytes : List ByteLoc), k.Has (loadBehind pointer offset bytes)
  | _, [] => .pure ()
  | offset, dst :: rest => (has_loadA _).next fun _ => (has_storeA dst).next fun _ =>
    has_loadBehind pointer (offset + 1) rest

theorem has_lowerVaArg {cursor : Temp} : k.Has (lowerVaArg node result cursor type) := by
  refine has_checkScalar.next fun _ => (has_tempInfo cursor).next fun info => ?_
  split
  · refine (has_destination result).next fun dst => has_commitOnly ?_
    refine (has_loadBehind _ _ _).next fun _ => (has_loadA _).next fun _ => ?_
    grind
  · exact has_invalid _

theorem has_lowerVaCount : k.Has (lowerVaCount result) := .reading (fun _ => rfl) (by grind)

/-! ### Nodes -/

variable {next : Option Node}

/-- A kind has the checks that lowering a node makes. -/
structure Covers (k : StepKind c) (node : Node) (next : Option Node) : Prop where
  operands : ∀ p ∈ operandsAt c node, k.Takes p.1 p.2
  stepped : ∀ value type, Stepped c next node value type → k.Takes (.constant value) type

/-- **The steps of a node.** -/
theorem has_lowerNode (h : k.Covers node next) : k.Has (lowerNode node next) := by
  have huse : ∀ value type, (value, type) ∈ operandsAt c node → k.Takes value type :=
    fun value type => h.operands (value, type)
  cases node with
  | copy result value type =>
    exact (has_lowerCopy (huse value type (by simp [operandsAt]))).next fun _ => .pure false
  | binary result op lhs rhs type =>
    exact has_lowerBinary (huse lhs type (by simp [operandsAt])) (huse rhs type (by simp [operandsAt]))
  | store value place type =>
    have hvalue := huse value type (by simp [operandsAt])
    exact (has_commitOnly (has_storeInto hvalue)).next fun _ => .pure false
  | call result callee args type buffer =>
    refine (has_lowerCall fun shape hshape p hp => huse p.1 p.2 ?_).next fun _ => .pure false
    simpa [operandsAt, hshape] using hp
  | asmCall address a x y clobbers result =>
    refine (has_lowerAsmCall (fun value ha => huse value .u8 ?_) (fun value hx => huse value .u8 ?_)
      fun value hy => huse value .u8 ?_).next fun _ => .pure false
    all_goals simp_all [operandsAt]
  | branch op lhs rhs type ifTrue ifFalse =>
    refine (has_lowerBranch (huse lhs type (by simp [operandsAt]))
      (huse rhs type (by simp [operandsAt])) ?_).next fun _ => .pure false
    exact fun compare r hscalar hcompare hin hout =>
      h.stepped _ _ ⟨rfl, hscalar, compare, r, hcompare, hin, hout, rfl⟩
  | jump target => exact (has_jumpTo target).next fun _ => .pure false
  | label id => exact .reading (fun _ => rfl) ((has_label _).next fun _ => .pure false)
  | ret value? =>
    refine (has_lowerReturn fun value hvalue => huse value _ ?_).next fun _ => .pure false
    simp_all [operandsAt]
  | setJmp => exact has_lowerSetJmp.next fun _ => .pure false
  | longJmp buffer value =>
    exact (has_lowerLongJmp (huse value .u8 (by simp [operandsAt]))).next fun _ => .pure false
  | vaStart => exact has_lowerVaStart.next fun _ => .pure false
  | vaArg => exact has_lowerVaArg.next fun _ => .pure false
  | vaCount => exact has_lowerVaCount.next fun _ => .pure false
  | loadField => exact has_lowerLoadField.next fun _ => .pure false
  | storeField value dest field =>
    exact (has_lowerStoreField (huse value .u8 (by simp [operandsAt]))).next fun _ => .pure false

/-- **The steps of a body.** -/
theorem has_lowerBody : ∀ {nodes : List Node},
    (∀ before node after, nodes = before ++ node :: after → k.Covers node after.head?) →
    k.Has (lowerBody nodes)
  | [], _ => by
    unfold lowerBody
    exact .pure ()
  | [node], h => by
    unfold lowerBody
    exact (has_lowerNode (h [] node [] rfl)).next fun _ => .pure ()
  | node :: next :: rest, h => by
    have hrest : ∀ before other after, next :: rest = before ++ other :: after →
        k.Covers other after.head? := fun before other after heq =>
      h (node :: before) other after (congrArg (node :: ·) heq)
    unfold lowerBody
    refine (has_lowerNode (h [] node (next :: rest) rfl)).next fun taken => .ite ?_ ?_
    · exact has_lowerBody fun before other after heq =>
        hrest (next :: before) other after (congrArg (next :: ·) heq)
    · exact has_lowerBody hrest

/-! ### Incoming values -/

@[grind ←] theorem has_copySlots : ∀ (slot : UInt8) (vregs : List VReg), k.Has (copySlots slot vregs)
  | _, [] => .pure ()
  | slot, _ :: rest => .reading (fun _ => rfl) ((has_op _ _).next fun _ => (has_op _ _).next fun _ =>
    has_copySlots (slot + 1) rest)

theorem has_copyParams : ∀ params : List (Temp × ParamSlot), k.Has (copyParams params)
  | [] => .pure ()
  | (t, param) :: rest => by
    refine .reading (fun _ => rfl) (.ite ?_ (has_copyParams rest))
    exact (has_tempInfo t).next fun info => (has_copySlots _ _).next fun _ => has_copyParams rest

theorem has_copyResultPointer (body : List Node) : k.Has (copyResultPointer body) := by
  refine .ite (.reading (fun _ => rfl) ?_) (.pure none)
  grind

theorem has_copyVariadic (body : List Node) : k.Has (copyVariadic body) := by
  have hcount : ∀ wants slot, k.Has (takeCount wants slot) := by grind [takeCount]
  have hcursor : ∀ wants slot, k.Has (takeCursor wants slot) := by grind [takeCursor]
  rw [copyVariadic_eq]
  refine .ite (.reading (fun _ => rfl) (.reading (fun _ => rfl) ?_)) (.pure _)
  grind

/-- **The steps in front of a body.** -/
theorem has_copyIncoming : k.Has copyIncoming :=
  .reading (fun _ => rfl) <| (has_copyParams _).next fun _ => (has_copyResultPointer _).next fun _ =>
    (has_copyVariadic _).next fun _ => .pure _

end StepKind

end Codegen6502.Proofs.Selecting.Steps
