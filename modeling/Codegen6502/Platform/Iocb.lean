import Codegen6502.Json.Decode

/-!
# I/O control blocks

Eight control blocks of sixteen bytes stand one after the other at a fixed address.

```text
offset  size  field
  0      1    HID  handler id
  1      1    DNO  device number
  2      1    CMD  command
  3      1    STA  status
  4      2    BA   buffer address (low byte first)
  6      2    PT   put address (low byte first)
  8      2    BL   buffer length (low byte first)
 10      6    AX   auxiliary bytes
```
-/

namespace Codegen6502

inductive IocbField where
  | handlerId
  | deviceNumber
  | command
  | status
  | bufferAddress
  | putAddress
  | bufferLength
  | aux (index : UInt8)
  deriving DecidableEq

namespace IocbField

/-- The address of the first control block. -/
def base : UInt16 := 0x0340

/-- The distance from one control block to the next. -/
def stride : UInt16 := 16

/-- The number of control blocks. -/
def channels : UInt8 := 8

def offset : IocbField → UInt16
  | .handlerId => 0
  | .deviceNumber => 1
  | .command => 2
  | .status => 3
  | .bufferAddress => 4
  | .putAddress => 6
  | .bufferLength => 8
  | .aux i => 10 + i.toUInt16

def size : IocbField → UInt16
  | .bufferAddress | .putAddress | .bufferLength => 2
  | _ => 1

/-- Whether the field exists: there are six auxiliary bytes. -/
def exists? : IocbField → Bool
  | .aux i => i < 6
  | _ => true

/-- The address of the field in a control block, if both exist. -/
def address? (f : IocbField) (channel : UInt8) : Option UInt16 :=
  if channel < channels && f.exists? then
    some (base + channel.toUInt16 * stride + f.offset)
  else none

/-- The fields in the order of their offsets. -/
def all : List IocbField :=
  [.handlerId, .deviceNumber, .command, .status, .bufferAddress, .putAddress, .bufferLength,
    .aux 0, .aux 1, .aux 2, .aux 3, .aux 4, .aux 5]

/-- The size of a whole control block. -/
def recordSize : UInt16 := all.foldl (fun n f => n + f.size) 0

def text : IocbField → String
  | .handlerId => "HID"
  | .deviceNumber => "DNO"
  | .command => "CMD"
  | .status => "STA"
  | .bufferAddress => "BA"
  | .putAddress => "PT"
  | .bufferLength => "BL"
  | .aux i => "AX" ++ toString (i + 1).toNat

def ofJson? (j : Json) : Option IocbField := do
  let c ← j.case?
  match c.tag with
  | "HandlerId" => c.bare .handlerId
  | "DeviceNumber" => c.bare .deviceNumber
  | "Command" => c.bare .command
  | "Status" => c.bare .status
  | "BufferAddress" => c.bare .bufferAddress
  | "PutAddress" => c.bare .putAddress
  | "BufferLength" => c.bare .bufferLength
  | "Aux" => c.carrying fun d => d.uint8?.map .aux
  | _ => none

def toJson : IocbField → Json
  | .handlerId => .str "HandlerId"
  | .deviceNumber => .str "DeviceNumber"
  | .command => .str "Command"
  | .status => .str "Status"
  | .bufferAddress => .str "BufferAddress"
  | .putAddress => .str "PutAddress"
  | .bufferLength => .str "BufferLength"
  | .aux i => .tagged "Aux" (.ofUInt8 i)

end IocbField

end Codegen6502
