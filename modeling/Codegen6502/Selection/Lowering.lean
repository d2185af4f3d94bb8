import Codegen6502.Selection.Arithmetic
import Codegen6502.Selection.Branching
import Codegen6502.Selection.Calls

/-!
# Instruction selection

`selectFunction` turns the body of a function into code over virtual byte registers and frame
bytes.  Every temporary gets its registers first; then used parameters and hidden values are copied
out of the argument slots; then the nodes are lowered one after the other.
-/

namespace Codegen6502

/-- The code of a function before allocation. -/
structure SelectedCode where
  name : String
  code : List Line
  /-- The calls by the index of their line. -/
  calls : Std.TreeMap Nat CallTarget
  /-- The support routines that the code goes to, in order. -/
  routines : List Routine
  /-- The frame bytes that the program itself uses. -/
  locals : UInt8
  /-- The number of virtual registers. -/
  vregs : UInt32

namespace CallTarget

/-- The names that a call reaches. -/
def names : CallTarget → List String
  | .function name => [name]
  | .trampoline bank callee => [(Routine.trampoline bank).name, callee]
  | .routine r => [r.name]
  | .fixed .. => []

end CallTarget

/-- The names of everything that control may reach from the code. -/
def SelectedCode.callees (s : SelectedCode) : List String :=
  sortedNames (s.routines.map Routine.name ++ s.calls.values.flatMap CallTarget.names)

def SelectedCode.toJson (s : SelectedCode) : Json :=
  .obj [("name", .str s.name), ("code", .ofList (fun line => .str line.text) s.code),
    ("calls", .ofList (fun (i, target) => .arr [.ofNat i, target.toJson]) s.calls.toList),
    ("runtime", .ofList (fun r => .str r.name) s.routines), ("locals", .ofUInt8 s.locals),
    ("vregs", .ofUInt32 s.vregs), ("callees", .ofList .str s.callees)]

namespace Selection

/-! ### Places that a node mentions -/

def placeOf : Value → List Place
  | .memory p => [p]
  | _ => []

def placeOfOption : Option Value → List Place
  | some v => placeOf v
  | none => []

def placesIn : Node → List Place
  | .copy _ value _ => placeOf value
  | .binary _ _ lhs rhs _ | .branch _ lhs rhs .. => placeOf lhs ++ placeOf rhs
  | .store value dest _ | .storeField value dest _ => placeOf value ++ [dest]
  | .call _ _ args _ buffer => (args.flatMap fun a => placeOf a.value) ++ buffer.toList
  | .asmCall _ a x y .. => placeOfOption a ++ placeOfOption x ++ placeOfOption y
  | .ret value => placeOfOption value
  | .setJmp _ buffer => [buffer]
  | .longJmp buffer value => buffer :: placeOf value
  | .loadField _ src _ => [src]
  | .jump _ | .label _ | .vaStart _ | .vaArg .. | .vaCount _ => []

/-- The number of bytes that a node reads or writes at each of its places. -/
def accessSize : Node → UInt16
  | .copy _ _ type | .binary _ _ _ _ type | .store _ _ type | .branch _ _ _ type .. =>
    max type.size 1
  | .call _ _ args type _ => (args.map fun a => a.type.size).foldl max (max type.size 1)
  | .ret _ | .longJmp .. => 2
  | _ => 1

/-- The end of the furthest access, after one more place. -/
def placeTop (size top : UInt16) : Place → Compile UInt16
  | .frameByte offset => do return max top (← addWords offset.toUInt16 size)
  | _ => .ok top

/-- The end of the furthest access, after one more node. -/
def nodeTop (top : UInt16) (node : Node) : Compile UInt16 :=
  (placesIn node).foldlM (placeTop (accessSize node)) top

/-- The end of the furthest access to the frame. -/
def frameTop (body : List Node) : Compile UInt16 := body.foldlM nodeTop 0

/-- The frame bytes that a function needs for itself. -/
def frameLocals (f : FunctionDef) : Compile UInt8 := do
  let top ← frameTop f.body
  if top ≤ 0xFF then .ok top.toUInt8
  else .error (.invalidProgram f.name "local frame larger than 255 bytes")

/-! ### Temporaries -/

/-- The temporary that a node defines, with its type. -/
def defines? : Node → Option (Temp × ValueType)
  | .copy result _ type | .binary result _ _ _ type | .vaArg result _ type => some (result, type)
  | .call result _ _ type _ => result.map fun r => (r, type)
  | .asmCall _ _ _ _ _ result => result.map fun r => (r, .u8)
  | .setJmp result _ => some (result, .i16)
  | .vaStart cursor => some (cursor, .ptr)
  | .vaCount result | .loadField result .. => some (result, .u8)
  | _ => none

/-- The temporaries so far and the number of the next virtual register. -/
structure Numbering where
  temps : Std.TreeMap Temp TempInfo := ∅
  nextVReg : UInt32 := 0

/-- Gives a temporary its registers; a second definition must have the same size. -/
def Numbering.define (n : Numbering) (f : FunctionDef) (t : Temp) (type : ValueType) :
    Compile Numbering :=
  match n.temps[t]? with
  | some info =>
    if info.type.size ≠ type.size then
      .error (.invalidProgram f.name (Node.tempText t ++ " redefined as " ++ type.text ++
        " after " ++ info.type.text))
    else .ok n
  | none =>
    let vregs := (List.range type.size.toNat).map fun k => ⟨n.nextVReg + UInt32.ofNat k⟩
    .ok ⟨n.temps.insert t ⟨vregs, type⟩, n.nextVReg + type.size.toUInt32⟩

/-- Gives the temporary of a node its registers. -/
def Numbering.defineNode (c : Convention) (f : FunctionDef) (n : Numbering) (node : Node) :
    Compile Numbering :=
  match defines? node with
  | some (t, type) =>
    if type.isScalar then n.define f t type
    else .error (.unsupportedOperation f.name node.describe c.target)
  | none => .ok n

/-- The registers of all temporaries of a function. -/
def numberTemps (c : Convention) (f : FunctionDef) (b : Binding) : Compile Numbering := do
  let params := f.params.zip (b.params.map (·.type))
  let n ← params.foldlM (fun (n : Numbering) (t, type) => n.define f t type) {}
  f.body.foldlM (Numbering.defineNode c f) n

/-! ### Incoming values -/

/-- Copies argument slots to virtual registers. -/
def copySlots (slot : UInt8) : List VReg → Lower Unit
  | [] => pure ()
  | v :: rest => do
    op .lda (.zeroPage ((← read).convention.zeroPage.arg slot))
    op .sta (.virtual v)
    copySlots (slot + 1) rest

/-- Copies the parameters that are used. -/
def copyParams : List (Temp × ParamSlot) → Lower Unit
  | [] => pure ()
  | (t, param) :: rest => do
    if usesOf (← read).function t ≠ 0 then
      copySlots param.slot (← tempInfo t).vregs
    copyParams rest

def isReturnSlot : Place → Bool
  | .returnSlot _ => true
  | _ => false

def isVaStart : Node → Bool
  | .vaStart _ => true
  | _ => false

def isVaCount : Node → Bool
  | .vaCount _ => true
  | _ => false

/-- Copies the hidden result pointer if the body goes through it. -/
def copyResultPointer (body : List Node) : Lower (Option PointerPair) := do
  if body.any fun n => (placesIn n).any isReturnSlot then
    match (← read).binding.resultSlot with
    | some slot =>
      let (lo, hi) ← newPair
      copySlots slot [lo, hi]
      return some (lo, hi)
    | none => invalid "return slot used by a function that does not return a structure"
  else return none

/-- Copies the number of variadic bytes and the pointer to them if the body asks for them. -/
def copyVariadic (body : List Node) : Lower (Option VReg × Option PointerPair) := do
  let wantsCount := body.any isVaCount
  let wantsPointer := body.any isVaStart
  if wantsCount || wantsPointer then
    let b := (← read).binding
    match b.vaCountSlot, b.vaPtrSlot with
    | some countSlot, some pointerSlot =>
      let count ←
        if wantsCount then do
          let v ← newVReg
          copySlots countSlot [v]
          pure (some v)
        else pure none
      let pointer ←
        if wantsPointer then do
          let (lo, hi) ← newPair
          copySlots pointerSlot [lo, hi]
          pure (some (lo, hi))
        else pure none
      return (count, pointer)
    | _, _ => invalid "variadic access in a function that is not variadic"
  else return (none, none)

/-- Copies everything that comes in and gives the hidden values. -/
def copyIncoming : Lower Hidden := do
  let c ← read
  copyParams (c.function.params.zip c.binding.params)
  let resultPointer ← copyResultPointer c.function.body
  let (vaCount, vaPointer) ← copyVariadic c.function.body
  return { resultPointer, vaCount, vaPointer }

/-! ### Nodes -/

/-- Lowers one node.  Tells whether the next node was taken along. -/
def lowerNode (node : Node) (next : Option Node) : Lower Bool := do
  match node with
  | .copy result value type => lowerCopy node result value type
  | .binary result op lhs rhs type => return ← lowerBinary node result op lhs rhs type next
  | .store value dest type => lowerStore node value dest type
  | .call result callee args type buffer => lowerCall node result callee args type buffer
  | .asmCall address a x y clobbers result => lowerAsmCall address a x y clobbers result
  | .branch op lhs rhs type ifTrue ifFalse => lowerBranch node op lhs rhs type ifTrue ifFalse next
  | .jump target => jumpTo target next
  | .label id => label (Naming.nodeLabel (← read).function.name id)
  | .ret value => lowerReturn value next.isNone
  | .setJmp result buffer => lowerSetJmp node result buffer
  | .longJmp buffer value => lowerLongJmp node buffer value
  | .vaStart cursor => lowerVaStart cursor
  | .vaArg result cursor type => lowerVaArg node result cursor type
  | .vaCount result => lowerVaCount result
  | .loadField result src field => lowerLoadField node result src field
  | .storeField value dest field => lowerStoreField node value dest field
  return false

/-- Lowers nodes one after the other. -/
def lowerBody : List Node → Lower Unit
  | [] => pure ()
  | [node] => do
    let _ ← lowerNode node none
  | node :: next :: rest => do
    if ← lowerNode node (some next) then lowerBody rest
    else lowerBody (next :: rest)

end Selection

open Selection in
/-- Selects instructions for a function with a body. -/
def selectFunction (c : Convention) (bindings : Std.TreeMap String Binding) (limits : Limits)
    (f : FunctionDef) : Compile SelectedCode := do
  let some binding := bindings[f.name]?
    | throw (.internal ("function '" ++ f.name ++ "' was never bound"))
  let numbering ← numberTemps c f binding
  let context : Context :=
    { convention := c, bindings, limits, function := f, binding, temps := numbering.temps }
  let start : State :=
    { draft := .create c.zeroPage.pointerLo numbering.nextVReg, nextLabel := 0 }
  let (hidden, s) ← (copyIncoming.run context).run start
  let body : Lower Unit := do
    lowerBody f.body
    label (Naming.exitLabel f.name)
  let (_, s) ← (body.run { context with hidden }).run s
  let locals ← frameLocals f
  return {
    name := f.name
    code := s.draft.code
    calls := .ofList s.draft.calls
    routines := Routine.sorted s.draft.routines
    locals
    vregs := s.draft.nextVReg }

end Codegen6502
