import Codegen6502.Emission.Layout

/-!
# Assembly listings

Each function under a line with its name, offset and notes, then the data objects and the external
symbols.
-/

namespace Codegen6502

namespace Listing

/-- What is remarkable about a function. -/
def notes (h : FunctionHeader) : List String :=
  (match h.declaredBank with
    | .paged n => ["bank " ++ toString n.toNat]
    | .common => []) ++
  (if h.entry.isInterrupt then [h.entry.text] else []) ++
  (if h.visible then [] else ["internal"])

/-- The line over a function. -/
def heading (h : FunctionHeader) (offset : UInt16) : String :=
  let start := "; " ++ h.name ++ " @ $" ++ hexWord offset
  match notes h with
  | [] => start
  | notes => start ++ " (" ++ ", ".intercalate notes ++ ")"

def functionText (table : SymbolTable) (f : EmittedFunction) : String :=
  let offset := match table.get? f.header.name with
    | some d => d.offset
    | none => 0
  heading f.header offset ++ "\n" ++ listing f.code ++ "\n"

/-- A row of bytes. -/
def byteRow (bytes : List UInt8) : String :=
  "    .byte " ++ ", ".intercalate (bytes.map fun b => "$" ++ hexByte b)

/-- Bytes in rows of eight; the last row may be shorter. -/
def byteRows (bytes : List UInt8) : List String :=
  (List.range ((bytes.length + 7) / 8)).map fun i => byteRow ((bytes.drop (8 * i)).take 8)

/-- The lines of a data object.  Zeros in writable memory are reserved, not listed. -/
def objectLines (o : DataObject) : List String :=
  (o.name ++ ":") ::
    match o.bank with
    | .common =>
      if o.bytes.all (· = 0) then ["    .res " ++ toString o.size] else byteRows o.bytes
    | .paged n => ("    ; bank " ++ toString n.toNat) :: byteRows o.bytes

/-- Lines of text, each ended by a line break. -/
def joinLines (lines : List String) : String := String.join (lines.map (· ++ "\n"))

def dataText (data : List DataObject) : String :=
  if data.isEmpty then ""
  else "; data\n" ++ joinLines (data.flatMap objectLines) ++ "\n"

def externalsText (e : Emission) : String :=
  joinLines (e.externals.toList.map fun (name, address) => name ++ " = $" ++ hexWord address)

/-- The listing of an emission. -/
def render (e : Emission) (table : SymbolTable) : String :=
  String.join (e.functions.map (functionText table)) ++ dataText e.data ++ externalsText e

end Listing

end Codegen6502
