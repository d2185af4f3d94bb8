import Codegen6502.Platform.Bank
import Codegen6502.Platform.Iocb
import Codegen6502.Program.Type
import Codegen6502.Text.Hex

/-!
# Places and values

A place is a memory location as a program names it; a value is a constant, a temporary or the
contents of a place.
-/

namespace Codegen6502

/-- The number of a temporary. -/
abbrev Temp := UInt32

/-- The number of a label. -/
abbrev LabelId := UInt32

inductive Place where
  | absolute (address : UInt16)
  | global (name : String) (offset : UInt16)
  /-- A byte of the function's own frame. -/
  | frameByte (offset : UInt8)
  /-- Through a pointer held in a temporary. -/
  | indirect (base : Temp) (offset : UInt8)
  /-- Read-only data, relative to the window of its bank. -/
  | banked (bank : Bank) (offset : UInt16)
  | iocb (channel : UInt8) (field : IocbField)
  /-- Through the hidden pointer to the caller's result buffer. -/
  | returnSlot (offset : UInt8)
  deriving DecidableEq

namespace Place

/-- The place `delta` bytes further on.  Offsets wrap at their width; a control block field becomes
the address it stands for. -/
def displaced (p : Place) (delta : UInt16) : Place :=
  match p with
  | .absolute address => .absolute (address + delta)
  | .global name offset => .global name (offset + delta)
  | .frameByte offset => .frameByte (offset + delta.toUInt8)
  | .indirect base offset => .indirect base (offset + delta.toUInt8)
  | .banked bank offset => .banked bank (offset + delta)
  | .iocb channel field =>
    match field.address? channel with
    | some address => .absolute (address + delta)
    | none => .iocb channel field
  | .returnSlot offset => .returnSlot (offset + delta.toUInt8)

/-- The pointer temporary that the place goes through. -/
def baseTemp? : Place → Option Temp
  | .indirect base _ => some base
  | _ => none

def text : Place → String
  | .absolute address => "[$" ++ hexWord address ++ "]"
  | .global name offset =>
    if offset = 0 then "[@" ++ name ++ "]" else "[@" ++ name ++ "+" ++ toString offset.toNat ++ "]"
  | .frameByte offset => "[local+" ++ toString offset.toNat ++ "]"
  | .indirect base offset => "[%" ++ toString base.toNat ++ "+" ++ toString offset.toNat ++ "]"
  | .banked bank offset => "[bank " ++ bank.text ++ ":$" ++ hexWord offset ++ "]"
  | .iocb channel field => "[iocb" ++ toString channel.toNat ++ "." ++ field.text ++ "]"
  | .returnSlot offset => "[sret+" ++ toString offset.toNat ++ "]"

def ofJson? (j : Json) : Option Place := do
  let c ← j.case?
  match c.tag with
  | "Absolute" => c.carrying fun d => d.uint16?.map .absolute
  | "Global" => c.carrying fun d => do
    let r ← d.record? ["name", "offset"]
    return .global (← r.required "name" Json.string?) (← r.required "offset" Json.uint16?)
  | "Local" => c.carrying fun d => do
    let r ← d.record? ["offset"]
    return .frameByte (← r.required "offset" Json.uint8?)
  | "Indirect" => c.carrying fun d => do
    let r ← d.record? ["base", "offset"]
    return .indirect (← r.required "base" Json.uint32?) (← r.required "offset" Json.uint8?)
  | "Banked" => c.carrying fun d => do
    let r ← d.record? ["bank", "offset"]
    return .banked (← r.required "bank" Bank.ofJson?) (← r.required "offset" Json.uint16?)
  | "Iocb" => c.carrying fun d => do
    let r ← d.record? ["channel", "field"]
    return .iocb (← r.required "channel" Json.uint8?) (← r.required "field" IocbField.ofJson?)
  | "ReturnSlot" => c.carrying fun d => do
    let r ← d.record? ["offset"]
    return .returnSlot (← r.required "offset" Json.uint8?)
  | _ => none

def toJson : Place → Json
  | .absolute address => .tagged "Absolute" (.ofUInt16 address)
  | .global name offset =>
    .tagged "Global" (.obj [("name", .str name), ("offset", .ofUInt16 offset)])
  | .frameByte offset => .tagged "Local" (.obj [("offset", .ofUInt8 offset)])
  | .indirect base offset =>
    .tagged "Indirect" (.obj [("base", .ofUInt32 base), ("offset", .ofUInt8 offset)])
  | .banked bank offset =>
    .tagged "Banked" (.obj [("bank", bank.toJson), ("offset", .ofUInt16 offset)])
  | .iocb channel field =>
    .tagged "Iocb" (.obj [("channel", .ofUInt8 channel), ("field", field.toJson)])
  | .returnSlot offset => .tagged "ReturnSlot" (.obj [("offset", .ofUInt8 offset)])

end Place

inductive Value where
  | constant (value : Int64)
  | temp (id : Temp)
  | memory (place : Place)
  deriving DecidableEq

namespace Value

def constant? : Value → Option Int64
  | .constant c => some c
  | _ => none

def temp? : Value → Option Temp
  | .temp t => some t
  | _ => none

def text : Value → String
  | .constant c => toString c.toInt
  | .temp t => "%" ++ toString t.toNat
  | .memory p => p.text

def ofJson? (j : Json) : Option Value := do
  let c ← j.case?
  match c.tag with
  | "Constant" => c.carrying fun d => d.int64?.map .constant
  | "Temp" => c.carrying fun d => d.uint32?.map .temp
  | "Memory" => c.carrying fun d => (Place.ofJson? d).map .memory
  | _ => none

def toJson : Value → Json
  | .constant c => .tagged "Constant" (.int c.toInt)
  | .temp t => .tagged "Temp" (.ofUInt32 t)
  | .memory p => .tagged "Memory" p.toJson

end Value

/-- A call argument with its type. -/
structure Argument where
  value : Value
  type : ValueType
  deriving DecidableEq

namespace Argument

def text (a : Argument) : String := a.type.text ++ " " ++ a.value.text

def ofJson? (j : Json) : Option Argument := do
  let r ← j.record? ["value", "ty"]
  return { value := ← r.required "value" Value.ofJson?, type := ← r.required "ty" ValueType.ofJson? }

def toJson (a : Argument) : Json := .obj [("value", a.value.toJson), ("ty", a.type.toJson)]

end Argument

end Codegen6502
