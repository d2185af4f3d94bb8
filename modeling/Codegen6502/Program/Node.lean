import Codegen6502.Platform.BitField
import Codegen6502.Program.Value

/-!
# Nodes

The body of a function is a flat list of nodes; control flow is written with labels, jumps and
two-way branches.
-/

namespace Codegen6502

inductive BinaryOp where
  | add | sub | mul | div | mod | and | or | xor | shl
  /-- Arithmetic for signed types, logical otherwise. -/
  | shr
  deriving DecidableEq

namespace BinaryOp

def isCommutative : BinaryOp → Bool
  | .add | .mul | .and | .or | .xor => true
  | _ => false

def text : BinaryOp → String
  | .add => "add"
  | .sub => "sub"
  | .mul => "mul"
  | .div => "div"
  | .mod => "mod"
  | .and => "and"
  | .or => "or"
  | .xor => "xor"
  | .shl => "shl"
  | .shr => "shr"

def ofJson? (j : Json) : Option BinaryOp := do
  let c ← j.case?
  match c.tag with
  | "Add" => c.bare .add
  | "Sub" => c.bare .sub
  | "Mul" => c.bare .mul
  | "Div" => c.bare .div
  | "Mod" => c.bare .mod
  | "And" => c.bare .and
  | "Or" => c.bare .or
  | "Xor" => c.bare .xor
  | "Shl" => c.bare .shl
  | "Shr" => c.bare .shr
  | _ => none

def toJson : BinaryOp → Json
  | .add => .str "Add"
  | .sub => .str "Sub"
  | .mul => .str "Mul"
  | .div => .str "Div"
  | .mod => .str "Mod"
  | .and => .str "And"
  | .or => .str "Or"
  | .xor => .str "Xor"
  | .shl => .str "Shl"
  | .shr => .str "Shr"

end BinaryOp

inductive CompareOp where
  | eq | ne | lt | le | gt | ge
  deriving DecidableEq

namespace CompareOp

/-- The comparison with its operands exchanged. -/
def swapped : CompareOp → CompareOp
  | .eq => .eq
  | .ne => .ne
  | .lt => .gt
  | .le => .ge
  | .gt => .lt
  | .ge => .le

def text : CompareOp → String
  | .eq => "eq"
  | .ne => "ne"
  | .lt => "lt"
  | .le => "le"
  | .gt => "gt"
  | .ge => "ge"

def ofJson? (j : Json) : Option CompareOp := do
  let c ← j.case?
  match c.tag with
  | "Eq" => c.bare .eq
  | "Ne" => c.bare .ne
  | "Lt" => c.bare .lt
  | "Le" => c.bare .le
  | "Gt" => c.bare .gt
  | "Ge" => c.bare .ge
  | _ => none

def toJson : CompareOp → Json
  | .eq => .str "Eq"
  | .ne => .str "Ne"
  | .lt => .str "Lt"
  | .le => .str "Le"
  | .gt => .str "Gt"
  | .ge => .str "Ge"

end CompareOp

/-- What code outside the program is declared to overwrite. -/
structure DeclaredClobbers where
  a : Bool := false
  x : Bool := false
  y : Bool := false
  zeroPage : List UInt8 := []
  deriving DecidableEq

namespace DeclaredClobbers

/-- All registers and no memory. -/
def registers : DeclaredClobbers := { a := true, x := true, y := true }

def ofJson? (j : Json) : Option DeclaredClobbers := do
  let r ← j.record? ["a", "x", "y", "zero_page"]
  return {
    a := ← r.withDefault "a" false Json.bool?
    x := ← r.withDefault "x" false Json.bool?
    y := ← r.withDefault "y" false Json.bool?
    zeroPage := ← r.withDefault "zero_page" [] (Json.list? Json.uint8?) }

def toJson (d : DeclaredClobbers) : Json :=
  .obj [("a", .bool d.a), ("x", .bool d.x), ("y", .bool d.y), ("zero_page", .ofBytes d.zeroPage)]

end DeclaredClobbers

inductive Node where
  /-- Gives `result` the value. -/
  | copy (result : Temp) (value : Value) (type : ValueType)
  /-- Gives `result` the outcome of `lhs op rhs`. -/
  | binary (result : Temp) (op : BinaryOp) (lhs rhs : Value) (type : ValueType)
  /-- Writes the value to `dest`. -/
  | store (value : Value) (dest : Place) (type : ValueType)
  /-- A call by name; `buffer` receives the result of a function that returns a structure. -/
  | call (result : Option Temp) (callee : String) (args : List Argument) (type : ValueType)
      (buffer : Option Place)
  /-- A call of a fixed address with arguments in registers; the result is what it leaves in A. -/
  | asmCall (address : UInt16) (a x y : Option Value) (clobbers : DeclaredClobbers)
      (result : Option Temp)
  | branch (op : CompareOp) (lhs rhs : Value) (type : ValueType) (ifTrue ifFalse : LabelId)
  | jump (target : LabelId)
  | label (id : LabelId)
  | ret (value : Option Value)
  | setJmp (result : Temp) (buffer : Place)
  | longJmp (buffer : Place) (value : Value)
  /-- Points `cursor` at the first variadic argument. -/
  | vaStart (cursor : Temp)
  /-- Reads the argument at `cursor`, which advances. -/
  | vaArg (result cursor : Temp) (type : ValueType)
  /-- Gives `result` the number of variadic bytes. -/
  | vaCount (result : Temp)
  | loadField (result : Temp) (src : Place) (field : BitField)
  | storeField (value : Value) (dest : Place) (field : BitField)
  deriving DecidableEq

namespace Node

/-- The temporary that the node defines. -/
def result? : Node → Option Temp
  | .copy result .. | .binary result .. | .setJmp result _ | .vaArg result .. | .vaCount result
  | .loadField result .. => some result
  | .vaStart cursor => some cursor
  | .call result .. => result
  | .asmCall _ _ _ _ _ result => result
  | _ => none

/-- Whether control never goes on to the next node by itself. -/
def isTerminator : Node → Bool
  | .jump _ | .branch .. | .ret _ | .longJmp .. => true
  | _ => false

/-- The name of the node in a report that nothing can be generated for it. -/
def describe : Node → String
  | .copy _ _ type => "copy (" ++ type.text ++ ")"
  | .binary _ op _ _ type => "binary " ++ op.text ++ " (" ++ type.text ++ ")"
  | .store _ _ type => "store (" ++ type.text ++ ")"
  | .call _ callee .. => "call @" ++ callee
  | .asmCall address .. => "asm call $" ++ hexWord address
  | .branch op _ _ type .. => "branch " ++ op.text ++ " (" ++ type.text ++ ")"
  | .jump _ => "jump"
  | .label _ => "label"
  | .ret _ => "return"
  | .setJmp .. => "setjmp"
  | .longJmp .. => "longjmp"
  | .vaStart _ => "va_start"
  | .vaArg _ _ type => "va_arg (" ++ type.text ++ ")"
  | .vaCount _ => "va_count"
  | .loadField .. => "load bit-field"
  | .storeField .. => "store bit-field"

/-! ### Text -/

def tempText (t : Temp) : String := "%" ++ toString t.toNat

/-- The left-hand side of a node that may have a result. -/
def assignText : Option Temp → String
  | some t => tempText t ++ " = "
  | none => ""

def labelText (l : LabelId) : String := "L" ++ toString l.toNat

def registerText (name : String) : Option Value → String
  | some v => " " ++ name ++ "=" ++ v.text
  | none => ""

/-- The bits of a field, the end excluded. -/
def bitsText (f : BitField) : String :=
  toString f.bitOffset.toNat ++ ".." ++ toString (f.bitOffset + f.width).toNat

def text : Node → String
  | .copy result value type => tempText result ++ " = " ++ type.text ++ " " ++ value.text
  | .binary result op lhs rhs type =>
    tempText result ++ " = " ++ op.text ++ " " ++ type.text ++ " " ++ lhs.text ++ ", " ++ rhs.text
  | .store value dest type => "store " ++ type.text ++ " " ++ value.text ++ ", " ++ dest.text
  | .call result callee args type buffer =>
    assignText result ++ "call " ++ type.text ++ " @" ++ callee ++ "(" ++
      ", ".intercalate (args.map Argument.text) ++ ")" ++
      (match buffer with
        | some place => " sret " ++ place.text
        | none => "")
  | .asmCall address a x y _ result =>
    assignText result ++ "asmcall $" ++ hexWord address ++ registerText "a" a ++
      registerText "x" x ++ registerText "y" y
  | .branch op lhs rhs type ifTrue ifFalse =>
    "br " ++ op.text ++ " " ++ type.text ++ " " ++ lhs.text ++ ", " ++ rhs.text ++ ", " ++
      labelText ifTrue ++ ", " ++ labelText ifFalse
  | .jump target => "jmp " ++ labelText target
  | .label id => labelText id ++ ":"
  | .ret (some v) => "ret " ++ v.text
  | .ret none => "ret void"
  | .setJmp result buffer => tempText result ++ " = setjmp " ++ buffer.text
  | .longJmp buffer value => "longjmp " ++ buffer.text ++ ", " ++ value.text
  | .vaStart cursor => tempText cursor ++ " = va_start"
  | .vaArg result cursor type =>
    tempText result ++ " = va_arg " ++ type.text ++ " " ++ tempText cursor
  | .vaCount result => tempText result ++ " = va_count"
  | .loadField result src field =>
    tempText result ++ " = ldfield " ++ src.text ++ " bits " ++ bitsText field
  | .storeField value dest field =>
    "stfield " ++ value.text ++ ", " ++ dest.text ++ " bits " ++ bitsText field

/-! ### JSON form -/

def ofJson? (j : Json) : Option Node := do
  let c ← j.case?
  match c.tag with
  | "Copy" => c.carrying fun d => do
    let r ← d.record? ["result", "value", "ty"]
    return .copy (← r.required "result" Json.uint32?) (← r.required "value" Value.ofJson?)
      (← r.required "ty" ValueType.ofJson?)
  | "Binary" => c.carrying fun d => do
    let r ← d.record? ["result", "op", "lhs", "rhs", "ty"]
    return .binary (← r.required "result" Json.uint32?) (← r.required "op" BinaryOp.ofJson?)
      (← r.required "lhs" Value.ofJson?) (← r.required "rhs" Value.ofJson?)
      (← r.required "ty" ValueType.ofJson?)
  | "Store" => c.carrying fun d => do
    let r ← d.record? ["value", "dest", "ty"]
    return .store (← r.required "value" Value.ofJson?) (← r.required "dest" Place.ofJson?)
      (← r.required "ty" ValueType.ofJson?)
  | "Call" => c.carrying fun d => do
    let r ← d.record? ["result", "callee", "args", "ty", "sret"]
    return .call (← r.optional "result" Json.uint32?) (← r.required "callee" Json.string?)
      (← r.required "args" (Json.list? Argument.ofJson?)) (← r.required "ty" ValueType.ofJson?)
      (← r.optional "sret" Place.ofJson?)
  | "AsmCall" => c.carrying fun d => do
    let r ← d.record? ["address", "a", "x", "y", "clobbers", "result"]
    return .asmCall (← r.required "address" Json.uint16?) (← r.optional "a" Value.ofJson?)
      (← r.optional "x" Value.ofJson?) (← r.optional "y" Value.ofJson?)
      (← r.required "clobbers" DeclaredClobbers.ofJson?) (← r.optional "result" Json.uint32?)
  | "Branch" => c.carrying fun d => do
    let r ← d.record? ["op", "lhs", "rhs", "ty", "true_label", "false_label"]
    return .branch (← r.required "op" CompareOp.ofJson?) (← r.required "lhs" Value.ofJson?)
      (← r.required "rhs" Value.ofJson?) (← r.required "ty" ValueType.ofJson?)
      (← r.required "true_label" Json.uint32?) (← r.required "false_label" Json.uint32?)
  | "Jump" => c.carrying fun d => d.uint32?.map .jump
  | "Label" => c.carrying fun d => d.uint32?.map .label
  | "Return" => c.carrying fun d => (d.nullable? Value.ofJson?).map .ret
  | "SetJmp" => c.carrying fun d => do
    let r ← d.record? ["result", "buffer"]
    return .setJmp (← r.required "result" Json.uint32?) (← r.required "buffer" Place.ofJson?)
  | "LongJmp" => c.carrying fun d => do
    let r ← d.record? ["buffer", "value"]
    return .longJmp (← r.required "buffer" Place.ofJson?) (← r.required "value" Value.ofJson?)
  | "VaStart" => c.carrying fun d => do
    let r ← d.record? ["cursor"]
    return .vaStart (← r.required "cursor" Json.uint32?)
  | "VaArg" => c.carrying fun d => do
    let r ← d.record? ["result", "cursor", "ty"]
    return .vaArg (← r.required "result" Json.uint32?) (← r.required "cursor" Json.uint32?)
      (← r.required "ty" ValueType.ofJson?)
  | "VaCount" => c.carrying fun d => do
    let r ← d.record? ["result"]
    return .vaCount (← r.required "result" Json.uint32?)
  | "LoadField" => c.carrying fun d => do
    let r ← d.record? ["result", "src", "field"]
    return .loadField (← r.required "result" Json.uint32?) (← r.required "src" Place.ofJson?)
      (← r.required "field" BitField.ofJson?)
  | "StoreField" => c.carrying fun d => do
    let r ← d.record? ["value", "dest", "field"]
    return .storeField (← r.required "value" Value.ofJson?) (← r.required "dest" Place.ofJson?)
      (← r.required "field" BitField.ofJson?)
  | _ => none

def toJson : Node → Json
  | .copy result value type =>
    .tagged "Copy" (.obj [("result", .ofUInt32 result), ("value", value.toJson),
      ("ty", type.toJson)])
  | .binary result op lhs rhs type =>
    .tagged "Binary" (.obj [("result", .ofUInt32 result), ("op", op.toJson), ("lhs", lhs.toJson),
      ("rhs", rhs.toJson), ("ty", type.toJson)])
  | .store value dest type =>
    .tagged "Store" (.obj [("value", value.toJson), ("dest", dest.toJson), ("ty", type.toJson)])
  | .call result callee args type buffer =>
    .tagged "Call" (.obj [("result", .ofOption .ofUInt32 result), ("callee", .str callee),
      ("args", .ofList Argument.toJson args), ("ty", type.toJson),
      ("sret", .ofOption Place.toJson buffer)])
  | .asmCall address a x y clobbers result =>
    .tagged "AsmCall" (.obj [("address", .ofUInt16 address), ("a", .ofOption Value.toJson a),
      ("x", .ofOption Value.toJson x), ("y", .ofOption Value.toJson y),
      ("clobbers", clobbers.toJson), ("result", .ofOption .ofUInt32 result)])
  | .branch op lhs rhs type ifTrue ifFalse =>
    .tagged "Branch" (.obj [("op", op.toJson), ("lhs", lhs.toJson), ("rhs", rhs.toJson),
      ("ty", type.toJson), ("true_label", .ofUInt32 ifTrue), ("false_label", .ofUInt32 ifFalse)])
  | .jump target => .tagged "Jump" (.ofUInt32 target)
  | .label id => .tagged "Label" (.ofUInt32 id)
  | .ret value => .tagged "Return" (.ofOption Value.toJson value)
  | .setJmp result buffer =>
    .tagged "SetJmp" (.obj [("result", .ofUInt32 result), ("buffer", buffer.toJson)])
  | .longJmp buffer value =>
    .tagged "LongJmp" (.obj [("buffer", buffer.toJson), ("value", value.toJson)])
  | .vaStart cursor => .tagged "VaStart" (.obj [("cursor", .ofUInt32 cursor)])
  | .vaArg result cursor type =>
    .tagged "VaArg" (.obj [("result", .ofUInt32 result), ("cursor", .ofUInt32 cursor),
      ("ty", type.toJson)])
  | .vaCount result => .tagged "VaCount" (.obj [("result", .ofUInt32 result)])
  | .loadField result src field =>
    .tagged "LoadField" (.obj [("result", .ofUInt32 result), ("src", src.toJson),
      ("field", field.toJson)])
  | .storeField value dest field =>
    .tagged "StoreField" (.obj [("value", value.toJson), ("dest", dest.toJson),
      ("field", field.toJson)])

end Node

end Codegen6502
