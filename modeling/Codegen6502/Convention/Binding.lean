import Codegen6502.Clobbers
import Codegen6502.Convention.Sequence
import Codegen6502.Error
import Codegen6502.Program.Function
import Codegen6502.Total

/-!
# Calling shapes

Binding a signature fixes where each parameter lives in the argument area, how the result comes
back, which bank the code is placed in and how it is entered.  The argument area holds, one after
the other from slot 0: the hidden result pointer, the parameters, the number of variadic bytes and
the pointer to them.
-/

namespace Codegen6502

/-- The place of a parameter in the argument area. -/
structure ParamSlot where
  slot : UInt8
  size : UInt8
  type : ValueType
  deriving DecidableEq

def ParamSlot.toJson (p : ParamSlot) : Json :=
  .arr [.ofUInt8 p.slot, .ofUInt8 p.size, p.type.toJson]

/-- The calling shape of a function. -/
structure Binding where
  name : String
  entry : EntryKind
  /-- The bank that the signature names. -/
  bank : Bank
  /-- The bank in which the code is placed; the common area where banks are not switched. -/
  placement : Bank
  variadic : Bool
  params : List ParamSlot
  returnKind : ReturnKind
  returnType : ValueType
  visible : Bool
  declaredClobbers : Option Clobbers
  resultSlot : Option UInt8
  vaCountSlot : Option UInt8
  /-- The first of the two slots of the pointer to the variadic arguments. -/
  vaPtrSlot : Option UInt8
  isExternal : Bool := false
  address : Option UInt16 := none
  deriving DecidableEq

namespace Binding

def isInterrupt (b : Binding) : Bool := b.entry.isInterrupt

/-- The bytes of the argument area in use. -/
def argBytes (b : Binding) : UInt8 :=
  let params := b.params.foldr (fun p n => p.size + n) 0
  let result : UInt8 := if b.resultSlot.isSome then 2 else 0
  let va : UInt8 := if b.variadic then 3 else 0
  params + result + va

def toJson (b : Binding) : Json :=
  .obj [("name", .str b.name), ("interrupt", .str b.entry.text),
    ("is_interrupt", .bool b.isInterrupt), ("bank", .str b.bank.text),
    ("placement", .str b.placement.text), ("variadic", .bool b.variadic),
    ("params", .ofList ParamSlot.toJson b.params), ("return_kind", .str b.returnKind.text),
    ("return_type", b.returnType.toJson), ("visible", .bool b.visible),
    ("declared_clobbers", .ofOption Clobbers.toJson b.declaredClobbers),
    ("sret_slot", .ofOption .ofUInt8 b.resultSlot),
    ("va_count_slot", .ofOption .ofUInt8 b.vaCountSlot),
    ("va_ptr_slot", .ofOption .ofUInt8 b.vaPtrSlot), ("external", .bool b.isExternal),
    ("address", .ofOption .ofUInt16 b.address), ("arg_bytes", .ofUInt8 b.argBytes)]

end Binding

/-- The conventions of one compilation. -/
structure Convention where
  zeroPage : ZeroPage
  /-- Whether the target switches banks. -/
  banking : Bool
  target : String
  bankSelect : UInt16
  deriving DecidableEq

/-- The clobber set of a declaration. -/
def DeclaredClobbers.toClobbers (d : DeclaredClobbers) : Clobbers :=
  { regs := ⟨d.a, d.x, d.y⟩, cells := .ofList d.zeroPage }

namespace Convention

/-- What an interrupt handler's signature must not have. -/
def interruptFault? (s : Signature) : Option String :=
  if !s.entry.isInterrupt then none
  else if s.variadic then
    some (if s.entry = .nestedInterrupt then "a recursive interrupt handler cannot be variadic"
      else "an interrupt handler cannot be variadic")
  else if !s.params.isEmpty then some "an interrupt handler cannot take parameters"
  else if !s.returnType.isVoid then some "an interrupt handler must return void"
  else if !s.bank.isCommon then
    some ("interrupt handler placed in bank " ++ s.bank.text ++
      "; handlers must live in the common area")
  else none

/-- How a result of a type comes back, if it can. -/
def returnKind? : ValueType → Option ReturnKind
  | .void => some .void
  | .u8 | .i8 => some .byte
  | .u16 | .i16 | .ptr => some .word
  | .struct size => some (.struct size)
  | .u32 | .i32 => none

/-- The slots of the parameters, the first one at `next`. -/
def paramSlots (next : Nat) : List ValueType → List ParamSlot
  | [] => []
  | type :: rest =>
    ⟨UInt8.ofNat next, type.size.toUInt8, type⟩ :: paramSlots (next + type.size.toNat) rest

/-- The total size of the parameters. -/
def paramBytes (types : List ValueType) : Nat := totalOf (fun t => t.size.toNat) types

def bindSignature (c : Convention) (s : Signature) : Compile Binding := do
  if let some reason := interruptFault? s then throw (.invalidConvention s.name reason)
  let some kind := returnKind? s.returnType
    | throw (.unsupportedOperation s.name ("return of type " ++ s.returnType.text) c.target)
  if let some type := s.params.find? fun t => !t.isScalar then
    throw (.unsupportedOperation s.name ("parameter of type " ++ type.text) c.target)
  let first := if s.returnType.isStruct then 2 else 0
  let vaBase := first + paramBytes s.params
  let needed := if s.variadic then vaBase + 3 else vaBase
  if needed > c.zeroPage.argSlots.toNat then
    throw (.invalidConvention s.name
      s!"arguments need {needed} bytes but the argument area holds {c.zeroPage.argSlots.toNat}")
  return {
    name := s.name
    entry := s.entry
    bank := s.bank
    placement := if c.banking then s.bank else .common
    variadic := s.variadic
    params := paramSlots first s.params
    returnKind := kind
    returnType := s.returnType
    visible := s.visible
    declaredClobbers := s.clobbers.map DeclaredClobbers.toClobbers
    resultSlot := if s.returnType.isStruct then some 0 else none
    vaCountSlot := if s.variadic then some (UInt8.ofNat vaBase) else none
    vaPtrSlot := if s.variadic then some (UInt8.ofNat (vaBase + 1)) else none }

/-- Binds a function of the program.  A function with a body has one temporary per parameter. -/
def bind (c : Convention) (f : FunctionDef) : Compile Binding := do
  let b ← c.bindSignature f.signature
  if !f.isExternal && f.params.length != f.signature.params.length then
    throw (.invalidProgram f.name
      s!"{f.params.length} parameter temporaries for {f.signature.params.length} declared parameters")
  return { b with isExternal := f.isExternal, address := f.address }

/-- Binds a callee that the program never declares, from the call itself.  Its symbol stays
undefined. -/
def bindImplied (c : Convention) (name : String) (args : List Argument) (returnType : ValueType) :
    Compile Binding := do
  let b ← c.bindSignature { name, params := args.map (·.type), returnType, visible := false }
  return { b with isExternal := true }

/-- How a call reaches its callee. -/
inductive CallKind where
  | direct
  | trampoline (bank : UInt8)
  deriving DecidableEq

/-- A call goes through a trampoline exactly when the callee lies in a bank other than the
caller's. -/
def callKind (_c : Convention) (caller callee : Binding) : Compile CallKind :=
  if callee.isInterrupt then
    .error (.invalidConvention caller.name ("cannot call interrupt handler '" ++ callee.name ++ "'"))
  else match callee.placement with
    | .paged n => if callee.placement ≠ caller.placement then .ok (.trampoline n) else .ok .direct
    | .common => .ok .direct

end Convention

end Codegen6502
