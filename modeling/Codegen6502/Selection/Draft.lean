import Codegen6502.Error
import Codegen6502.Selection.Cost
import Codegen6502.Selection.Knowledge
import Codegen6502.Support

/-!
# Drafts

A draft is a piece of code under construction together with what is known about the machine at its
end.  Loads of what A already holds, tests of what the flags already describe and set-ups of what
the scratch pointer already holds are left out.

A candidate starts as a fork of the code so far: empty, with the same knowledge.  Committing it
appends it.
-/

namespace Codegen6502

/-- What a call in generated code reaches. -/
inductive CallTarget where
  | function (name : String)
  | trampoline (bank : UInt8) (callee : String)
  | routine (routine : Routine)
  /-- A routine at a fixed address with what it is declared to overwrite. -/
  | fixed (address : UInt16) (clobbers : Clobbers)
  deriving DecidableEq

namespace CallTarget

def ofJson? (j : Json) : Option CallTarget := do
  let c ← j.case?
  match c.tag with
  | "Function" => c.carrying fun d => d.string?.map .function
  | "Trampoline" => c.carrying fun d => do
    let r ← d.record? ["bank", "callee"]
    return .trampoline (← r.required "bank" Json.uint8?) (← r.required "callee" Json.string?)
  | "Runtime" => c.carrying fun d => (Routine.ofJson? d).map .routine
  | "Fixed" => c.carrying fun d => do
    let r ← d.record? ["address", "clobbers"]
    return .fixed (← r.required "address" Json.uint16?) (← r.required "clobbers" Clobbers.ofJson?)
  | _ => none

def toJson : CallTarget → Json
  | .function name => .tagged "Function" (.str name)
  | .trampoline bank callee =>
    .tagged "Trampoline" (.obj [("bank", .ofUInt8 bank), ("callee", .str callee)])
  | .routine r => .tagged "Runtime" r.toJson
  | .fixed address clobbers =>
    .tagged "Fixed" (.obj [("address", .ofUInt16 address), ("clobbers", clobbers.toJson)])

end CallTarget

/-- A byte that generated code can read or write. -/
inductive ByteLoc where
  | direct (operand : Operand)
  /-- Through a pointer in two virtual registers. -/
  | indirect (pointer : PointerPair) (offset : UInt8)
  deriving DecidableEq

namespace ByteLoc

def vreg (v : VReg) : ByteLoc := .direct (.virtual v)

def byte (value : UInt8) : ByteLoc := .direct (.byte value)

/-- The constant that the byte is. -/
def byte? : ByteLoc → Option UInt8
  | .direct (.immediate (.byte b)) => some b
  | _ => none

def isIndirect : ByteLoc → Bool
  | .indirect .. => true
  | .direct _ => false

def ofJson? (j : Json) : Option ByteLoc := do
  let c ← j.case?
  match c.tag with
  | "Direct" => c.carrying fun d => (Operand.ofJson? d).map .direct
  | "Indirect" => c.carrying fun d => do
    let r ← d.record? ["ptr", "offset"]
    let [lo, hi] ← r.required "ptr" (Json.list? Json.uint32?) | none
    return .indirect (⟨lo⟩, ⟨hi⟩) (← r.required "offset" Json.uint8?)
  | _ => none

end ByteLoc

structure Draft where
  code : List Line := []
  /-- The calls by the index of their line. -/
  calls : List (Nat × CallTarget) := []
  /-- The support routines that the code goes to. -/
  routines : List Routine := []
  known : Knowledge := {}
  nextVReg : UInt32
  /-- The first cell of the scratch pointer. -/
  pointerCell : UInt8

namespace Draft

/-- The empty draft about which nothing is known. -/
def create (pointerCell : UInt8) (nextVReg : UInt32) : Draft := { nextVReg, pointerCell }

/-- The empty draft that goes on from this one. -/
def fork (d : Draft) : Draft :=
  { known := d.known, nextVReg := d.nextVReg, pointerCell := d.pointerCell }

/-- Appends a candidate. -/
def commit (d other : Draft) : Draft :=
  { code := d.code ++ other.code
    calls := d.calls ++ other.calls.map fun (i, target) => (d.code.length + i, target)
    routines := d.routines ++ other.routines
    known := other.known
    nextVReg := other.nextVReg
    pointerCell := d.pointerCell }

def cost (d : Draft) : Cost := .ofCode d.code

def newVReg (d : Draft) : VReg × Draft := (⟨d.nextVReg⟩, { d with nextVReg := d.nextVReg + 1 })

/-! ### Single lines -/

def push (d : Draft) (line : Line) : Draft :=
  { d with code := d.code ++ [line], known := d.known.after d.pointerCell line }

def op (d : Draft) (opcode : Opcode) (operand : Operand) : Draft := d.push (.op opcode operand)

def bare (d : Draft) (opcode : Opcode) : Draft := d.push (.bare opcode)

def label (d : Draft) (name : String) : Draft := d.push (.label name)

def branch (d : Draft) (opcode : Opcode) (target : String) : Draft :=
  d.push (.branch opcode target)

def jmp (d : Draft) (target : String) : Draft := d.push (.jmp target)

/-- A recorded call of a named routine. -/
def call (d : Draft) (name : String) (target : CallTarget) : Draft :=
  { d with calls := d.calls ++ [(d.code.length, target)] }.push (.jsr name)

/-- A recorded call of a fixed address. -/
def callAddress (d : Draft) (address : UInt16) (target : CallTarget) : Draft :=
  { d with calls := d.calls ++ [(d.code.length, target)] }.push (.op .jsr (.fixed address))

/-- Notes that the code goes to a support routine. -/
def uses (d : Draft) (routine : Routine) : Draft := { d with routines := d.routines ++ [routine] }

/-! ### Bytes -/

/-- Puts a constant into Y. -/
def setY (d : Draft) (value : UInt8) : Draft :=
  if d.known.y = some value then d else d.op .ldy (.byte value)

/-- Loads A from an operand unless it holds its value. -/
def loadOperand (d : Draft) (operand : Operand) : Draft :=
  if d.known.aHolds operand then d else d.op .lda operand

/-- Copies a pointer into the scratch pointer unless it is there. -/
def setPointer (d : Draft) (pointer : PointerPair) : Draft :=
  if d.known.pointer = some pointer then d
  else
    let d := (d.loadOperand (.virtual pointer.1)).op .sta (.zeroPage d.pointerCell)
    let d := (d.loadOperand (.virtual pointer.2)).op .sta (.zeroPage (d.pointerCell + 1))
    { d with known := { d.known with pointer := some pointer } }

/-- Loads A from a byte. -/
def loadA (d : Draft) : ByteLoc → Draft
  | .direct operand => d.loadOperand operand
  | .indirect pointer offset =>
    ((d.setPointer pointer).setY offset).op .lda (.indirectY d.pointerCell)

/-- Stores A to a byte.  A is kept in a new virtual register while the scratch pointer is set up. -/
def storeA (d : Draft) : ByteLoc → Compile Draft
  | .direct operand =>
    if operand.isMemory then .ok (d.op .sta operand)
    else .error (.internal ("store to non-memory operand " ++ operand.text))
  | .indirect pointer offset =>
    let d :=
      if d.known.pointer = some pointer then d
      else
        let (scratch, d) := d.newVReg
        ((d.op .sta (.virtual scratch)).setPointer pointer).op .lda (.virtual scratch)
    .ok ((d.setY offset).op .sta (.indirectY d.pointerCell))

/-- Computes with a byte.  A byte behind a pointer must be behind the scratch pointer already. -/
def compute (d : Draft) (opcode : Opcode) : ByteLoc → Compile Draft
  | .direct operand => .ok (d.op opcode operand)
  | .indirect pointer offset =>
    if d.known.pointer = some pointer then
      .ok ((d.setY offset).op opcode (.indirectY d.pointerCell))
    else
      .error (.internal (opcode.mnemonic ++ " operand through a pointer that is not loaded"))

/-- Makes N and Z describe a byte. -/
def test (d : Draft) (loc : ByteLoc) : Draft :=
  match loc with
  | .direct operand => if d.known.flagsDescribe operand then d else d.op .lda operand
  | .indirect .. => d.loadA loc

/-- Copies a byte behind a pointer to a new virtual register. -/
def materialize (d : Draft) (loc : ByteLoc) : Compile (ByteLoc × Draft) :=
  if loc.isIndirect then
    let (v, d) := d.newVReg
    match (d.loadA loc).storeA (.vreg v) with
    | .ok d => .ok (.vreg v, d)
    | .error e => .error e
  else .ok (loc, d)

end Draft

end Codegen6502
