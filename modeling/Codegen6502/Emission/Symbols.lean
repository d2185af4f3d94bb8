import Codegen6502.Asm.Operand
import Codegen6502.Error
import Codegen6502.Platform.Bank
import Std.Data.TreeMap

/-!
# Symbols

A definition gives a name a place in some segment of the output; a reference records which function
named a symbol.  References are resolved once, when everything has been emitted.
-/

namespace Codegen6502

/-- An area of the output. -/
inductive Segment where
  /-- Code that is always mapped. -/
  | common
  | bank (number : UInt8)
  /-- Writable memory. -/
  | data
  /-- Addresses outside every segment. -/
  | absolute
  deriving DecidableEq

namespace Segment

/-- The order of segments: common, the banks by number, data, absolute. -/
def rank : Segment → Nat
  | .common => 0
  | .bank n => n.toNat + 1
  | .data => 257
  | .absolute => 258

def text : Segment → String
  | .common => "common"
  | .bank n => toString n.toNat
  | .data => "data"
  | .absolute => "absolute"

def isBank : Segment → Bool
  | .bank _ => true
  | _ => false

/-- The segment of code in a bank. -/
def ofCode : Bank → Segment
  | .common => .common
  | .paged n => .bank n

/-- The segment of data in a bank. -/
def ofData : Bank → Segment
  | .common => .data
  | .paged n => .bank n

def ofJson? (j : Json) : Option Segment := do
  let c ← j.case?
  match c.tag with
  | "Common" => c.bare .common
  | "Bank" => c.carrying fun d => d.uint8?.map .bank
  | "Data" => c.bare .data
  | "Absolute" => c.bare .absolute
  | _ => none

def toJson : Segment → Json
  | .common => .str "Common"
  | .bank n => .tagged "Bank" (.ofUInt8 n)
  | .data => .str "Data"
  | .absolute => .str "Absolute"

end Segment

inductive SymbolKind where
  | function (visible : Bool)
  /-- A label inside a function. -/
  | label
  | data
  | external
  deriving DecidableEq

namespace SymbolKind

def isCode : SymbolKind → Bool
  | .function _ | .label => true
  | _ => false

def ofJson? (j : Json) : Option SymbolKind := do
  let c ← j.case?
  match c.tag with
  | "Function" => c.carrying fun d => d.bool?.map .function
  | "Label" => c.bare .label
  | "Data" => c.bare .data
  | "External" => c.bare .external
  | _ => none

def toJson : SymbolKind → Json
  | .function visible => .tagged "Function" (.bool visible)
  | .label => .str "Label"
  | .data => .str "Data"
  | .external => .str "External"

end SymbolKind

/-- What a symbol stands for: an offset into a segment. -/
structure Definition where
  segment : Segment
  offset : UInt16
  kind : SymbolKind
  deriving DecidableEq

/-- A name that a function mentions. -/
structure Reference where
  symbol : String
  referencedFrom : String
  deriving DecidableEq

/-- The order of references: by symbol, then by function. -/
def Reference.le (a b : Reference) : Bool :=
  if a.symbol = b.symbol then a.referencedFrom ≤ b.referencedFrom else a.symbol ≤ b.symbol

/-- Where a visible function has been placed. -/
structure Relocation where
  symbol : String
  segment : Segment
  offset : UInt16
  deriving DecidableEq

def Relocation.toJson (r : Relocation) : Json :=
  .obj [("symbol", .str r.symbol), ("bank", r.segment.toJson), ("offset", .ofUInt16 r.offset)]

structure SymbolTable where
  definitions : Std.TreeMap String Definition := ∅
  references : List Reference := []

namespace SymbolTable

def get? (t : SymbolTable) (name : String) : Option Definition := t.definitions[name]?

def define (t : SymbolTable) (name : String) (d : Definition) : Compile SymbolTable :=
  if t.definitions.contains name then
    .error (.invalidProgram name "symbol defined more than once")
  else .ok { t with definitions := t.definitions.insert name d }

def refer (t : SymbolTable) (reference : Reference) : SymbolTable :=
  { t with references := reference :: t.references }

/-- The references to symbols that nobody defines. -/
def unresolved (t : SymbolTable) : List Reference :=
  t.references.filter fun r => !t.definitions.contains r.symbol

/-- Fails on the first unresolved reference in their order. -/
def checkResolved (t : SymbolTable) : Compile Unit :=
  match (t.unresolved.mergeSort Reference.le).head? with
  | some r => .error (.unresolvedSymbol r.symbol r.referencedFrom)
  | none => .ok ()

/-- The visible functions by name. -/
def relocations (t : SymbolTable) : List Relocation :=
  t.definitions.toList.filterMap fun (name, d) =>
    if d.kind = .function true then some ⟨name, d.segment, d.offset⟩ else none

/-- The definitions by name. -/
def toJson (t : SymbolTable) : Json :=
  .ofList (fun (name, d) => .arr [.str name, .str d.segment.text, .ofUInt16 d.offset, d.kind.toJson,
    .bool d.kind.isCode]) t.definitions.toList

end SymbolTable

/-- The name that an operand refers to, labels of the function included. -/
def Operand.referencedName? : Operand → Option String
  | .relative label | .absolute (.label label) => some label
  | operand => operand.symbolName?

end Codegen6502
