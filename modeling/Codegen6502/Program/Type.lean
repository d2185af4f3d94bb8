import Codegen6502.Json.Decode

/-!
# Types of values

Scalars of one, two and four bytes, and aggregates that are only ever moved through memory.  Only
the one- and two-byte scalars can be computed with.
-/

namespace Codegen6502

inductive ValueType where
  | void
  | u8
  | i8
  | u16
  | i16
  /-- A 16-bit data pointer. -/
  | ptr
  | u32
  | i32
  | struct (size : UInt16)
  deriving DecidableEq

namespace ValueType

/-- The size in bytes. -/
def size : ValueType → UInt16
  | .void => 0
  | .u8 | .i8 => 1
  | .u16 | .i16 | .ptr => 2
  | .u32 | .i32 => 4
  | .struct size => size

def isSigned : ValueType → Bool
  | .i8 | .i16 | .i32 => true
  | _ => false

/-- Whether values of the type can be computed with. -/
def isScalar : ValueType → Bool
  | .u8 | .i8 | .u16 | .i16 | .ptr => true
  | _ => false

def isStruct : ValueType → Bool
  | .struct _ => true
  | _ => false

def isVoid : ValueType → Bool
  | .void => true
  | _ => false

def text : ValueType → String
  | .void => "void"
  | .u8 => "u8"
  | .i8 => "i8"
  | .u16 => "u16"
  | .i16 => "i16"
  | .ptr => "ptr"
  | .u32 => "u32"
  | .i32 => "i32"
  | .struct size => "struct[" ++ toString size.toNat ++ "]"

def ofJson? (j : Json) : Option ValueType := do
  let c ← j.case?
  match c.tag with
  | "Void" => c.bare .void
  | "U8" => c.bare .u8
  | "I8" => c.bare .i8
  | "U16" => c.bare .u16
  | "I16" => c.bare .i16
  | "Ptr" => c.bare .ptr
  | "U32" => c.bare .u32
  | "I32" => c.bare .i32
  | "Struct" => c.carrying fun d => do
    let r ← d.record? ["size"]
    return .struct (← r.required "size" Json.uint16?)
  | _ => none

def toJson : ValueType → Json
  | .void => .str "Void"
  | .u8 => .str "U8"
  | .i8 => .str "I8"
  | .u16 => .str "U16"
  | .i16 => .str "I16"
  | .ptr => .str "Ptr"
  | .u32 => .str "U32"
  | .i32 => .str "I32"
  | .struct size => .tagged "Struct" (.obj [("size", .ofUInt16 size)])

end ValueType

end Codegen6502
