import Codegen6502.Convention.Binding
import Codegen6502.Naming
import Codegen6502.Platform.Limits
import Codegen6502.Selection.Draft
import Std.Data.TreeMap

/-!
# The setting of a lowering

Lowering a function reads a context that is fixed for the whole function and changes a state: the
code so far and the number of the next inner label.  A candidate is built on a fork of the code; its
labels stay used even if it is dropped.
-/

namespace Codegen6502.Selection

/-- The virtual registers of a temporary, low byte first, and its type. -/
structure TempInfo where
  vregs : List VReg
  type : ValueType

/-- Incoming values that no parameter stands for. -/
structure Hidden where
  resultPointer : Option PointerPair := none
  vaCount : Option VReg := none
  vaPointer : Option PointerPair := none

structure Context where
  convention : Convention
  bindings : Std.TreeMap String Binding
  limits : Limits
  function : FunctionDef
  binding : Binding
  temps : Std.TreeMap Temp TempInfo
  hidden : Hidden := {}

/-- The code so far and the number of the next inner label. -/
structure State where
  draft : Draft
  /-- Counted without bound: a word of 32 bits would run out behind `2 ^ 32` labels of one
  function. -/
  nextLabel : Nat

/-- A lowering step. -/
abbrev Lower := ReaderT Context (StateT State Compile)

/-! ### Errors -/

def invalid (problem : String) : Lower α := do
  throw (.invalidProgram (← read).function.name problem)

def unsupported (node : Node) : Lower α := do
  let c ← read
  throw (.unsupportedOperation c.function.name node.describe c.convention.target)

def internal (problem : String) : Lower α := throw (.internal problem)

/-! ### Emitting -/

def modifyDraft (f : Draft → Draft) : Lower Unit := modify fun s => { s with draft := f s.draft }

/-- Changes the draft by a step that may fail. -/
def tryDraft (f : Draft → Compile Draft) : Lower Unit := do
  let s ← get
  let d ← f s.draft
  set { s with draft := d }

def op (opcode : Opcode) (operand : Operand) : Lower Unit := modifyDraft (·.op opcode operand)

def bare (opcode : Opcode) : Lower Unit := modifyDraft (·.bare opcode)

def label (name : String) : Lower Unit := modifyDraft (·.label name)

def branch (opcode : Opcode) (target : String) : Lower Unit :=
  modifyDraft (·.branch opcode target)

def jmp (target : String) : Lower Unit := modifyDraft (·.jmp target)

def call (name : String) (target : CallTarget) : Lower Unit := modifyDraft (·.call name target)

def newVReg : Lower VReg := do
  let s ← get
  let (v, d) := s.draft.newVReg
  set { s with draft := d }
  return v

def newPair : Lower PointerPair := do
  let lo ← newVReg
  let hi ← newVReg
  return (lo, hi)

def loadA (loc : ByteLoc) : Lower Unit := modifyDraft (·.loadA loc)

def storeA (loc : ByteLoc) : Lower Unit := tryDraft (·.storeA loc)

def compute (opcode : Opcode) (loc : ByteLoc) : Lower Unit := tryDraft (·.compute opcode loc)

def test (loc : ByteLoc) : Lower Unit := modifyDraft (·.test loc)

def materialize (loc : ByteLoc) : Lower ByteLoc := do
  let s ← get
  let (loc, d) ← s.draft.materialize loc
  set { s with draft := d }
  return loc

/-- A label of the function that has not been used. -/
def newLabel : Lower String := do
  let s ← get
  set { s with nextLabel := s.nextLabel + 1 }
  return Naming.innerLabel (← read).function.name s.nextLabel

/-- Repeats a step. -/
def times : Nat → Lower Unit → Lower Unit
  | 0, _ => pure ()
  | n + 1, step => do
    step
    times n step

/-! ### Candidates -/

/-- Builds a candidate on a fork of the code so far. -/
def candidate (build : Lower Unit) : Lower Draft := do
  let s ← get
  set { s with draft := s.draft.fork }
  build
  let t ← get
  set { t with draft := s.draft }
  return t.draft

def commit (d : Draft) : Lower Unit := modifyDraft (·.commit d)

/-- Builds the only candidate and commits it. -/
def commitOnly (build : Lower Unit) : Lower Unit := do commit (← candidate build)

/-- Commits the first of the cheapest candidates. -/
def commitCheapest (candidates : List Draft) : Lower Unit := do
  match Cost.cheapest? Draft.cost candidates with
  | some d => commit d
  | none => internal "no candidate pattern produced"

/-! ### Constants -/

/-- The number of bits of a type. -/
def bitsOf (type : ValueType) : Nat := type.size.toNat * 8

/-- The word with only bit `n` set. -/
def bit (n : Nat) : Int64 := 1 <<< Int64.ofNat n

/-- The least and greatest value of a type in two's complement, whatever the limits. -/
def typeBounds (type : ValueType) : Int64 × Int64 :=
  if type.isSigned then (-bit (bitsOf type - 1), bit (bitsOf type - 1) - 1)
  else (0, bit (bitsOf type) - 1)

/-- The value of a type that agrees with a number modulo the size of the type. -/
def wrap (value : Int64) (type : ValueType) : Int64 :=
  let v := value &&& (bit (bitsOf type) - 1)
  if type.isSigned && v ≥ bit (bitsOf type - 1) then v - bit (bitsOf type) else v

/-- Byte `k` of a constant, counted from the low end. -/
def constByte (value : Int64) (k : Nat) : UInt8 :=
  (value >>> Int64.ofNat (8 * k)).toUInt64.toUInt8

/-- The bytes of a constant, low byte first. -/
def constBytes (value : Int64) (size : Nat) : List ByteLoc :=
  (List.range size).map fun k => .byte (constByte value k)

/-- Refuses a type that cannot be computed with. -/
def checkScalar (type : ValueType) (node : Node) : Lower Unit := do
  if !type.isScalar then unsupported node

/-- Refuses a constant outside the configured range of its type. -/
def checkConstant (value : Int64) (type : ValueType) : Lower Unit := do
  let c ← read
  if !c.limits.fits value type.size.toNat type.isSigned then
    throw (.constantOutOfRange c.function.name value type.text)

/-! ### Temporaries and places -/

def tempInfo (t : Temp) : Lower TempInfo := do
  match (← read).temps[t]? with
  | some info => return info
  | none => invalid ("use of undefined temporary " ++ Node.tempText t)

/-- The bytes of a temporary as a destination. -/
def destination (t : Temp) : Lower (List ByteLoc) := do
  return (← tempInfo t).vregs.map .vreg

/-- The pointer held in a temporary. -/
def pointerOf (t : Temp) : Lower PointerPair := do
  let info ← tempInfo t
  match info.vregs with
  | [lo, hi] => return (lo, hi)
  | _ => invalid (Node.tempText t ++ " used as a pointer but is " ++ info.type.text)

/-- The hidden pointer to the caller's result buffer. -/
def resultPointer : Lower PointerPair := do
  match (← read).hidden.resultPointer with
  | some pointer => return pointer
  | none => internal "return slot pointer was not copied in"

/-- The address of a control block field. -/
def iocbAddress (channel : UInt8) (field : IocbField) : Lower UInt16 := do
  match field.address? channel with
  | some address => return address
  | none => invalid ("no IOCB field " ++ field.text ++ " on channel " ++ toString channel.toNat)

/-- The location of the byte at a place. -/
def placeLoc : Place → Lower ByteLoc
  | .absolute address =>
    return .direct (if address < 0x100 then .zeroPage address.toUInt8 else .fixed address)
  | .global name offset =>
    return .direct (.absolute (.symbol name (Int32.ofNat offset.toNat)))
  | .frameByte offset => return .direct (.frame offset)
  | .indirect base offset => return .indirect (← pointerOf base) offset
  | .banked (.paged bank) offset => return .direct (.absolute (.bankRelative bank offset))
  | .banked .common _ => invalid "banked reference into the common area"
  | .iocb channel field => return .direct (.fixed (← iocbAddress channel field))
  | .returnSlot offset => return .indirect (← resultPointer) offset

/-- The locations of the first `size` bytes from a place on. -/
def placeBytes (place : Place) (size : Nat) : Lower (List ByteLoc) :=
  (List.range size).mapM fun k => placeLoc (place.displaced (UInt16.ofNat k))

/-- A new virtual register with `$FF` if the byte is negative and `$00` otherwise. -/
def signByte (top : ByteLoc) : Lower ByteLoc := do
  let v ← newVReg
  loadA top
  bare .asl
  op .lda (.byte 0)
  op .adc (.byte 0xFF)
  op .eor (.byte 0xFF)
  storeA (.vreg v)
  return .vreg v

/-- The bytes of a value taken as a type.  A temporary that is narrower is extended by its own sign,
before any carry chain begins. -/
def valueBytes (value : Value) (type : ValueType) : Lower (List ByteLoc) := do
  let size := type.size.toNat
  match value with
  | .constant c =>
    checkConstant c type
    return constBytes c size
  | .temp t =>
    let info ← tempInfo t
    let bytes := (info.vregs.take size).map ByteLoc.vreg
    if bytes.length < size then
      let fill ←
        if info.type.isSigned then
          match info.vregs.getLast? with
          | some top => signByte (.vreg top)
          | none => internal "temporary without registers"
        else pure (.byte 0)
      return bytes ++ List.replicate (size - bytes.length) fill
    else return bytes
  | .memory place => placeBytes place size

/-- The bytes of a value, those behind a pointer copied out. -/
def operandBytes (value : Value) (type : ValueType) : Lower (List ByteLoc) := do
  (← valueBytes value type).mapM materialize

/-- A pointer plus an offset. -/
def pointerPlus (pointer : PointerPair) (offset : UInt8) : Lower (ByteLoc × ByteLoc) := do
  if offset = 0 then return (.vreg pointer.1, .vreg pointer.2)
  let (lo, hi) ← newPair
  loadA (.vreg pointer.1)
  bare .clc
  op .adc (.byte offset)
  storeA (.vreg lo)
  loadA (.vreg pointer.2)
  op .adc (.byte 0)
  storeA (.vreg hi)
  return (.vreg lo, .vreg hi)

/-- The two bytes of a fixed address. -/
def addressConstant (address : UInt16) : ByteLoc × ByteLoc :=
  (.byte address.toUInt8, .byte (address >>> 8).toUInt8)

/-- The two bytes of the address of a place. -/
def addressBytes (place : Place) (node : Node) : Lower (ByteLoc × ByteLoc) := do
  match place with
  | .absolute address => return addressConstant address
  | .iocb channel field => return addressConstant (← iocbAddress channel field)
  | .global name offset =>
    let addend := Int32.ofNat offset.toNat
    return (.direct (.symbolByte name addend .lo), .direct (.symbolByte name addend .hi))
  | .indirect base offset => pointerPlus (← pointerOf base) offset
  | .returnSlot offset => pointerPlus (← resultPointer) offset
  | .frameByte _ | .banked .. => unsupported node

/-- Copies bytes through A, leaving out those that are in place. -/
def copyBytes : List ByteLoc → List ByteLoc → Lower Unit
  | src :: srcs, dst :: dsts => do
    if src ≠ dst then
      loadA src
      storeA dst
    copyBytes srcs dsts
  | _, _ => pure ()

end Codegen6502.Selection
