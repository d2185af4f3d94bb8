import Codegen6502.Json.Decode
import Codegen6502.Text.Hex

/-!
# Registers and operands

There is one form of operand per addressing mode, and two forms that exist only before allocation:
virtual byte registers and bytes of the stack frame.
-/

namespace Codegen6502

inductive Register where
  | a | x | y
  deriving DecidableEq

namespace Register

def all : List Register := [.a, .x, .y]

def text : Register → String
  | .a => "A"
  | .x => "X"
  | .y => "Y"

def ofJson? (j : Json) : Option Register := do
  let c ← j.case?
  match c.tag with
  | "A" => c.bare .a
  | "X" => c.bare .x
  | "Y" => c.bare .y
  | _ => none

def toJson (r : Register) : Json := .str r.text

end Register

/-- A virtual byte register. -/
structure VReg where
  index : UInt32
  deriving DecidableEq

def VReg.text (v : VReg) : String := "v" ++ toString v.index.toNat

/-- One byte of a 16-bit address. -/
inductive Half where
  | lo | hi
  deriving DecidableEq

/-- The sum of a symbol's address and an addend, as it is written after the name. -/
def addendText (addend : Int32) : String :=
  if addend = 0 then ""
  else if 0 < addend then "+" ++ toString addend.toInt
  else toString addend.toInt

inductive Immediate where
  | byte (value : UInt8)
  /-- One byte of the address of a symbol plus an addend. -/
  | symbol (name : String) (addend : Int32) (half : Half)
  deriving DecidableEq

inductive Address where
  | absolute (value : UInt16)
  /-- A function, a global or a routine of the support code. -/
  | symbol (name : String) (addend : Int32)
  /-- A label of the function at hand. -/
  | label (name : String)
  /-- An offset into the window of a bank. -/
  | bankRelative (bank : UInt8) (offset : UInt16)
  deriving DecidableEq

namespace Address

def symbolName? : Address → Option String
  | .symbol name _ => some name
  | _ => none

def text : Address → String
  | .absolute value => "$" ++ hexWord value
  | .symbol name addend => name ++ addendText addend
  | .label name => name
  | .bankRelative bank offset => "bank" ++ toString bank.toNat ++ "+$" ++ hexWord offset

end Address

inductive Operand where
  | implied
  | accumulator
  | immediate (value : Immediate)
  | zeroPage (cell : UInt8)
  | absolute (address : Address)
  | absoluteX (address : Address)
  | absoluteY (address : Address)
  /-- Through a zero-page pointer, indexed by Y. -/
  | indirectY (cell : UInt8)
  /-- Through a pointer in memory; jumps only. -/
  | indirect (address : Address)
  /-- The target of a branch. -/
  | relative (label : String)
  | virtual (reg : VReg)
  | frame (offset : UInt8)
  deriving DecidableEq

namespace Operand

/-- A constant byte. -/
def byte (value : UInt8) : Operand := .immediate (.byte value)

/-- A fixed address. -/
def fixed (address : UInt16) : Operand := .absolute (.absolute address)

/-- The address of a symbol. -/
def symbol (name : String) : Operand := .absolute (.symbol name 0)

/-- The address of a label. -/
def label (name : String) : Operand := .absolute (.label name)

/-- One byte of the address of a symbol. -/
def symbolByte (name : String) (addend : Int32) (half : Half) : Operand :=
  .immediate (.symbol name addend half)

def vreg? : Operand → Option VReg
  | .virtual v => some v
  | _ => none

/-- Whether allocation has still to replace the operand. -/
def isPreAllocation : Operand → Bool
  | .virtual _ | .frame _ => true
  | _ => false

/-- Whether the operand names a memory location. -/
def isMemory : Operand → Bool
  | .zeroPage _ | .absolute _ | .absoluteX _ | .absoluteY _ | .indirectY _ | .virtual _
  | .frame _ => true
  | _ => false

/-- The symbol that the operand refers to. -/
def symbolName? : Operand → Option String
  | .absolute a | .absoluteX a | .absoluteY a | .indirect a => a.symbolName?
  | .immediate (.symbol name ..) => some name
  | _ => none

def symbolByteText (name : String) (addend : Int32) (half : Half) : String :=
  let mark := match half with
    | .lo => "<"
    | .hi => ">"
  if addend = 0 then "#" ++ mark ++ name
  else "#" ++ mark ++ "(" ++ name ++ addendText addend ++ ")"

def text : Operand → String
  | .implied => ""
  | .accumulator => "A"
  | .immediate (.byte b) => "#$" ++ hexByte b
  | .immediate (.symbol name addend half) => symbolByteText name addend half
  | .zeroPage cell => "$" ++ hexByte cell
  | .absolute a => a.text
  | .absoluteX a => a.text ++ ",X"
  | .absoluteY a => a.text ++ ",Y"
  | .indirectY cell => "($" ++ hexByte cell ++ "),Y"
  | .indirect a => "(" ++ a.text ++ ")"
  | .relative label => label
  | .virtual v => v.text
  | .frame offset => "frame+" ++ toString offset.toNat

end Operand

/-! ### JSON form -/

def Half.ofJson? (j : Json) : Option Half := do
  let c ← j.case?
  match c.tag with
  | "Lo" => c.bare .lo
  | "Hi" => c.bare .hi
  | _ => none

def Half.toJson : Half → Json
  | .lo => .str "Lo"
  | .hi => .str "Hi"

def Immediate.ofJson? (j : Json) : Option Immediate := do
  let c ← j.case?
  match c.tag with
  | "Byte" => c.carrying fun d => d.uint8?.map .byte
  | "Symbol" => c.carrying fun d => do
    let r ← d.record? ["name", "addend", "part"]
    return .symbol (← r.required "name" Json.string?) (← r.required "addend" Json.int32?)
      (← r.required "part" Half.ofJson?)
  | _ => none

def Address.ofJson? (j : Json) : Option Address := do
  let c ← j.case?
  match c.tag with
  | "Abs" => c.carrying fun d => d.uint16?.map .absolute
  | "Symbol" => c.carrying fun d => do
    let r ← d.record? ["name", "addend"]
    return .symbol (← r.required "name" Json.string?) (← r.required "addend" Json.int32?)
  | "Label" => c.carrying fun d => d.string?.map .label
  | "BankRelative" => c.carrying fun d => do
    let r ← d.record? ["bank", "offset"]
    return .bankRelative (← r.required "bank" Json.uint8?) (← r.required "offset" Json.uint16?)
  | _ => none

def Operand.ofJson? (j : Json) : Option Operand := do
  let c ← j.case?
  match c.tag with
  | "Implied" => c.bare .implied
  | "Accumulator" => c.bare .accumulator
  | "Immediate" => c.carrying fun d => (Immediate.ofJson? d).map .immediate
  | "ZeroPage" => c.carrying fun d => d.uint8?.map .zeroPage
  | "Absolute" => c.carrying fun d => (Address.ofJson? d).map .absolute
  | "AbsoluteX" => c.carrying fun d => (Address.ofJson? d).map .absoluteX
  | "AbsoluteY" => c.carrying fun d => (Address.ofJson? d).map .absoluteY
  | "IndirectY" => c.carrying fun d => d.uint8?.map .indirectY
  | "Indirect" => c.carrying fun d => (Address.ofJson? d).map .indirect
  | "Relative" => c.carrying fun d => d.string?.map .relative
  | "Virtual" => c.carrying fun d => d.uint32?.map fun n => .virtual ⟨n⟩
  | "Frame" => c.carrying fun d => d.uint8?.map .frame
  | _ => none

end Codegen6502
