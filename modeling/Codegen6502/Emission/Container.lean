import Codegen6502.Emission.Layout
import Codegen6502.Word

/-!
# Position-independent containers

```text
"M65B" version
count of names (word), then each name: length (byte), text
records:
  1 function  name (word) bank (byte, $FF for the common area)
  2 label     name
  3 operation mnemonic (byte) mode (byte) operand
  4 data      name bank length (word) bytes
  5 external  name address (word)
  0 end
```

Whatever names code or data does so by an index into the table of names, so that the container can
be placed anywhere.  Words have their low byte first.
-/

namespace Codegen6502

namespace Container

/-- The letters `M65B`. -/
def magic : List UInt8 := [0x4D, 0x36, 0x35, 0x42]

def version : UInt8 := 1

/-! ### Names -/

/-- The names in the order of their first use. -/
structure NameTable where
  names : Array String := #[]
  indices : Std.TreeMap String Nat := ∅

namespace NameTable

def insert (t : NameTable) (name : String) : NameTable :=
  if t.indices.contains name then t
  else
    let index := t.names.size
    ⟨t.names.push name, t.indices.insert name index⟩

def ofList (names : List String) : NameTable := names.foldl insert {}

/-- The index of a name as it is written.  Indices are words. -/
def reference (t : NameTable) (name : String) : Compile (List UInt8) :=
  match t.indices[name]? with
  | some i =>
    if i < 0x10000 then .ok (wordBytes (UInt16.ofNat i))
    else .error (.internal "more than 65535 symbols in one unit")
  | none => .error (.internal ("'" ++ name ++ "' is not in the table of names"))

/-- The length and the bytes of a name. -/
def nameBytes (name : String) : Compile (List UInt8) :=
  if name.utf8ByteSize < 0x100 then
    .ok (UInt8.ofNat name.utf8ByteSize :: name.toUTF8.data.toList)
  else .error (.invalidProgram name "symbol name longer than 255 bytes")

/-- The table as it is written. -/
def bytes (t : NameTable) : Compile (List UInt8) := do
  let names ← t.names.toList.mapM nameBytes
  return wordBytes (UInt16.ofNat t.names.size) ++ names.flatten

end NameTable

/-- The name in an address. -/
def addressName? : Address → Option String
  | .symbol name _ | .label name => some name
  | .absolute _ | .bankRelative .. => none

/-- The name in an operand. -/
def operandName? : Operand → Option String
  | .immediate (.symbol name ..) => some name
  | .absolute a | .absoluteX a | .absoluteY a | .indirect a => addressName? a
  | .relative label => some label
  | _ => none

/-- The name in a line. -/
def lineName? : Line → Option String
  | .label name => some name
  | .op _ operand => operandName? operand
  | .comment _ => none

/-- Every name that an emission mentions, in the order of the records. -/
def mentions (e : Emission) : List String :=
  e.functions.flatMap (fun f => f.header.name :: f.code.filterMap lineName?) ++
    e.data.map (·.name) ++ e.externals.keys

/-! ### Operands -/

/-- The number of a mnemonic: its position in the alphabet. -/
def opcodeNumber (op : Opcode) : UInt8 := UInt8.ofNat (Opcode.all.idxOf op)

def modeNumber (mode : Mode) : UInt8 := UInt8.ofNat (Mode.all.idxOf mode)

/-- An addend as a signed word. -/
def addendBytes (addend : Int32) : Compile (List UInt8) :=
  if -0x8000 ≤ addend.toInt && addend.toInt ≤ 0x7FFF then
    .ok (wordBytes addend.toInt16.toUInt16)
  else .error (.internal s!"symbol addend {addend.toInt} out of range")

def addressBytes (t : NameTable) : Address → Compile (List UInt8)
  | .absolute value => .ok (0 :: wordBytes value)
  | .symbol name addend => do return 1 :: (← t.reference name) ++ (← addendBytes addend)
  | .label name => do return 1 :: (← t.reference name) ++ wordBytes 0
  | .bankRelative bank offset => .ok (2 :: bank :: wordBytes offset)

def immediateBytes (t : NameTable) : Immediate → Compile (List UInt8)
  | .byte b => .ok [0, b]
  | .symbol name addend half => do
    let tag : UInt8 := match half with
      | .lo => 1
      | .hi => 2
    return tag :: (← t.reference name) ++ (← addendBytes addend)

def operandBytes (t : NameTable) (line : Line) : Operand → Compile (List UInt8)
  | .implied | .accumulator => .ok []
  | .immediate value => immediateBytes t value
  | .zeroPage cell | .indirectY cell => .ok [cell]
  | .absolute a | .absoluteX a | .absoluteY a | .indirect a => addressBytes t a
  | .relative label => t.reference label
  | .virtual _ | .frame _ => .error (.internal ("unallocated operand in '" ++ line.text ++ "'"))

/-! ### Records -/

def bankByte : Bank → UInt8
  | .common => 0xFF
  | .paged n => n

def lineRecord (t : NameTable) (line : Line) : Compile (List UInt8) :=
  match line with
  | .label name => do return 2 :: (← t.reference name)
  | .comment _ => .ok []
  | .op opcode operand => do
    return [3, opcodeNumber opcode, modeNumber operand.mode] ++ (← operandBytes t line operand)

def functionRecords (t : NameTable) (f : EmittedFunction) : Compile (List UInt8) := do
  let start := 1 :: (← t.reference f.header.name) ++ [bankByte f.header.declaredBank]
  return start ++ (← f.code.mapM (lineRecord t)).flatten

def dataRecord (t : NameTable) (o : DataObject) : Compile (List UInt8) := do
  if o.size ≥ 0x10000 then throw (.invalidProgram o.name "data object larger than 64K")
  return 4 :: (← t.reference o.name) ++ bankByte o.bank :: wordBytes (UInt16.ofNat o.size) ++
    o.bytes

def externalRecord (t : NameTable) (external : String × UInt16) : Compile (List UInt8) := do
  return 5 :: (← t.reference external.1) ++ wordBytes external.2

/-- The container of an emission. -/
def bytes (e : Emission) : Compile (List UInt8) := do
  let t := NameTable.ofList (mentions e)
  let functions ← e.functions.mapM (functionRecords t)
  let data ← e.data.mapM (dataRecord t)
  let externals ← e.externals.toList.mapM (externalRecord t)
  let names ← t.bytes
  return magic ++ [version] ++ names ++ functions.flatten ++ data.flatten ++ externals.flatten ++ [0]

end Container

end Codegen6502
