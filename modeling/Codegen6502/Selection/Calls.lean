import Codegen6502.Selection.Context

/-!
# Calls, returns, jumps out of functions and variadic access
-/

namespace Codegen6502.Selection

/-- The location of an argument slot. -/
def argLoc (slot : UInt8) : Lower ByteLoc := do
  return .direct (.zeroPage ((← read).convention.zeroPage.arg slot))

/-- Stores a byte in an argument slot. -/
def passByte (slot : UInt8) (byte : ByteLoc) : Lower Unit := do
  loadA byte
  storeA (← argLoc slot)

/-- Stores bytes in argument slots from `slot` on. -/
def passBytes (slot : UInt8) : List ByteLoc → Lower Unit
  | [] => pure ()
  | byte :: rest => do
    passByte slot byte
    passBytes (slot + 1) rest

/-- Stores a word that was returned in A and X.  X is moved out first, because a store to a frame
byte goes through X. -/
def storeWord (dst : List ByteLoc) : Lower Unit := do
  match dst with
  | [lo, hi] =>
    bare .tay
    bare .txa
    storeA hi
    bare .tya
    storeA lo
  | _ => internal "word result of unexpected width"

/-! ### Calls -/

/-- Checks a call against the callee's shape. -/
def checkCall (callee : String) (shape : Binding) (args : List Argument) (buffer : Option Place) :
    Lower Unit := do
  let fixed := shape.params.length
  if args.length < fixed || (!shape.variadic && args.length ≠ fixed) then
    invalid s!"call to '{callee}' passes {args.length} arguments, expected {fixed}{orMore}"
  if let some (arg, param) := (args.zip shape.params).find? mismatched then
    invalid ("argument of type " ++ arg.type.text ++ " passed to '" ++ callee ++ "' for a " ++
      param.type.text ++ " parameter")
  match shape.resultSlot, buffer with
  | some _, none => invalid ("call to '" ++ callee ++ "' needs a buffer for its structure result")
  | none, some _ => invalid ("call to '" ++ callee ++ "' passes a result buffer it does not use")
  | _, _ => pure ()
where
  orMore : String := if shape.variadic then " or more" else ""
  mismatched (pair : Argument × ParamSlot) : Bool :=
    pair.1.type.size ≠ pair.2.size.toUInt16

/-- Pushes bytes, the last one first. -/
def pushBytes (bytes : List ByteLoc) : Lower Unit :=
  bytes.reverse.forM fun byte => do
    loadA byte
    bare .pha

/-- Pushes variadic arguments, the last one first, and gives their total size. -/
def pushVariadic (node : Node) : List Argument → Lower UInt16
  | [] => return 0
  | arg :: rest => do
    let above ← pushVariadic node rest
    checkScalar arg.type node
    pushBytes (← valueBytes arg.value arg.type)
    addWords above arg.type.size

/-- Pushes the block of variadic arguments and passes its address and size. -/
def passVariadic (node : Node) (callee : String) (shape : Binding) (extra : List Argument) :
    Lower UInt16 := do
  let block ← pushVariadic node extra
  if block > 0xFF then
    invalid (toString block.toNat ++ " bytes of variadic arguments to '" ++ callee ++ "'")
  match shape.vaCountSlot, shape.vaPtrSlot with
  | some count, some pointer =>
    bare .tsx
    bare .inx
    op .stx (.zeroPage ((← read).convention.zeroPage.arg pointer))
    passByte (pointer + 1) (.byte 0x01)
    passByte count (.byte block.toUInt8)
    return block
  | _, _ => internal "variadic callee without variadic slots"

/-- Passes the fixed arguments. -/
def passArguments : List (Argument × ParamSlot) → Lower Unit
  | [] => pure ()
  | (arg, param) :: rest => do
    passBytes param.slot (← valueBytes arg.value param.type)
    passArguments rest

/-- The call itself, directly or through a trampoline. -/
def emitCall (callee : String) : Convention.CallKind → Lower Unit
  | .direct => call callee (.function callee)
  | .trampoline bank => do
    op .lda (.symbolByte callee (-1) .lo)
    op .ldx (.symbolByte callee (-1) .hi)
    modifyDraft (·.uses (.trampoline bank))
    call (Routine.trampoline bank).name (.trampoline bank callee)

/-- Stores the result of a call. -/
def storeResult (callee : String) (shape : Binding) (result : Temp) : Lower Unit := do
  let dst ← destination result
  match shape.returnKind, dst with
  | .byte, [byte] => storeA byte
  | .word, [lo, hi] => storeWord [lo, hi]
  | kind, _ =>
    invalid ("result " ++ Node.tempText result ++ " of " ++ toString dst.length ++
      " bytes taken from '" ++ callee ++ "', which returns " ++ kind.text)

def lowerCall (node : Node) (result : Option Temp) (callee : String) (args : List Argument)
    (type : ValueType) (buffer : Option Place) : Lower Unit := do
  let c ← read
  let shape ←
    match c.bindings[callee]? with
    | some shape => pure shape
    | none => c.convention.bindImplied callee args type
  let kind ← c.convention.callKind c.binding shape
  checkCall callee shape args buffer
  commitOnly do
    let block ←
      if shape.variadic then passVariadic node callee shape (args.drop shape.params.length)
      else pure 0
    match shape.resultSlot, buffer with
    | some slot, some dest =>
      let (lo, hi) ← addressBytes dest node
      passBytes slot [lo, hi]
    | _, _ => pure ()
    passArguments (args.zip shape.params)
    emitCall callee kind
    if let some r := result then storeResult callee shape r
    times block.toNat (bare .pla)

/-! ### Calls of fixed addresses -/

/-- The byte of a register argument, in plain memory. -/
def registerByte : Option Value → Lower (Option ByteLoc)
  | none => return none
  | some value => do
    match ← valueBytes value .u8 with
    | byte :: _ => return some (← materialize byte)
    | [] => internal "value without bytes"

/-- Loads Y. -/
def loadY (y : ByteLoc) : Lower Unit := do
  match y.byte? with
  | some c => op .ldy (.byte c)
  | none =>
    loadA y
    bare .tay

/-- Loads A and X, X last. -/
def loadAX (a x : Option ByteLoc) : Lower Unit := do
  match a, x with
  | none, none => pure ()
  | some a, none => loadA a
  | a, some x =>
    match x.byte?, a with
    | some c, a =>
      if let some a := a then loadA a
      op .ldx (.byte c)
    | none, some a =>
      loadA a
      bare .pha
      loadA x
      bare .tax
      bare .pla
    | none, none =>
      loadA x
      bare .tax

/-- Calls a fixed address.  All arguments are in plain memory before the first register is
loaded. -/
def lowerAsmCall (address : UInt16) (a x y : Option Value) (clobbers : DeclaredClobbers)
    (result : Option Temp) : Lower Unit :=
  commitOnly do
    let a ← registerByte a
    let x ← registerByte x
    let y ← registerByte y
    if let some y := y then loadY y
    loadAX a x
    modifyDraft (·.callAddress address (.fixed address clobbers.toClobbers))
    if let some r := result then
      match ← destination r with
      | dst :: _ => storeA dst
      | [] => internal "temporary without registers"

/-! ### Returns -/

/-- The candidates that put the result into its registers. -/
def returnCandidates (value : Option Value) : Lower (List Draft) := do
  let b := (← read).binding
  match b.returnKind, value with
  | .void, none | .struct _, none => return [← candidate (pure ())]
  | .void, some _ => invalid "value returned from a void function"
  | .struct _, some _ =>
    invalid "a structure result is written through the return slot, not returned"
  | .byte, none | .word, none => invalid ("missing return value of type " ++ b.returnType.text)
  | .byte, some v =>
    return [← candidate do
      match ← valueBytes v b.returnType with
      | byte :: _ => loadA byte
      | [] => internal "value without bytes"]
  | .word, some v =>
    let s ← get
    set { s with draft := s.draft.fork }
    let bytes ← valueBytes v b.returnType
    let base := (← get).draft
    set { (← get) with draft := s.draft }
    match bytes with
    | [lo, hi] => return wordCandidates base lo hi
    | _ => internal "word result of unexpected width"
where
  /-- The ways of loading A and X from two bytes. -/
  wordCandidates (base : Draft) (lo hi : ByteLoc) : List Draft :=
    let constantHi := match hi.byte? with
      | some h => [(base.loadA lo).op .ldx (.byte h)]
      | none => []
    let constantLo := match lo.byte? with
      | some l => [((base.loadA hi).bare .tax).op .lda (.byte l)]
      | none => []
    constantHi ++ constantLo ++
      [((((base.loadA lo).bare .pha).loadA hi).bare .tax).bare .pla]

/-- Returns; the last node of the body falls through to the exit. -/
def lowerReturn (value : Option Value) (isLast : Bool) : Lower Unit := do
  let candidates ← returnCandidates value
  if isLast then commitCheapest candidates
  else
    let exit := Naming.exitLabel (← read).function.name
    commitCheapest (candidates.map (·.jmp exit))

/-! ### Jumps out of functions -/

/-- Captures the state in a buffer.  The result is zero the first time and what a jump hands over
afterwards. -/
def lowerSetJmp (node : Node) (result : Temp) (buffer : Place) : Lower Unit :=
  commitOnly do
    let (lo, hi) ← addressBytes buffer node
    passBytes 0 [lo, hi]
    modifyDraft (·.uses .setJmp)
    call Routine.setJmp.name (.routine .setJmp)
    storeWord (← destination result)

/-- Goes back to where a buffer was captured. -/
def lowerLongJmp (node : Node) (buffer : Place) (value : Value) : Lower Unit :=
  commitOnly do
    let (lo, hi) ← addressBytes buffer node
    match ← valueBytes value .u8 with
    | byte :: _ =>
      let byte ← materialize byte
      passBytes 0 [lo, hi, byte]
      modifyDraft (·.uses .longJmp)
      op .jmp (.symbol Routine.longJmp.name)
    | [] => internal "value without bytes"

/-! ### Variadic access -/

def lowerVaStart (cursor : Temp) : Lower Unit := do
  match (← read).hidden.vaPointer with
  | some (lo, hi) =>
    let dst ← destination cursor
    commitOnly (copyBytes [.vreg lo, .vreg hi] dst)
  | none => invalid "va_start in a function that is not variadic"

/-- Copies bytes from behind a pointer. -/
def loadBehind (pointer : PointerPair) (offset : UInt8) : List ByteLoc → Lower Unit
  | [] => pure ()
  | dst :: rest => do
    loadA (.indirect pointer offset)
    storeA dst
    loadBehind pointer (offset + 1) rest

def lowerVaArg (node : Node) (result cursor : Temp) (type : ValueType) : Lower Unit := do
  checkScalar type node
  let info ← tempInfo cursor
  match info.vregs with
  | [lo, hi] =>
    let dst ← destination result
    commitOnly do
      loadBehind (lo, hi) 0 dst
      loadA (.vreg lo)
      bare .clc
      op .adc (.byte type.size.toUInt8)
      storeA (.vreg lo)
      loadA (.vreg hi)
      op .adc (.byte 0)
      storeA (.vreg hi)
  | _ =>
    invalid ("va_arg cursor " ++ Node.tempText cursor ++ " is " ++ info.type.text ++
      ", not a pointer")

def lowerVaCount (result : Temp) : Lower Unit := do
  match (← read).hidden.vaCount with
  | some count =>
    let dst ← destination result
    commitOnly (copyBytes [.vreg count] dst)
  | none => invalid "va_count in a function that is not variadic"

end Codegen6502.Selection
