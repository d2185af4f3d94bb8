import Codegen6502.Program.Node

/-!
# Functions

A function is a signature, one temporary per parameter and a body.  An external function is a
declaration of code elsewhere, possibly at a known address.
-/

namespace Codegen6502

structure Signature where
  name : String
  params : List ValueType
  returnType : ValueType
  variadic : Bool := false
  entry : EntryKind := .subroutine
  bank : Bank := .common
  visible : Bool := true
  /-- Declared for external functions only. -/
  clobbers : Option DeclaredClobbers := none
  deriving DecidableEq

structure FunctionDef where
  signature : Signature
  params : List Temp := []
  body : List Node := []
  isExternal : Bool := false
  /-- The entry point of an external function. -/
  address : Option UInt16 := none
  deriving DecidableEq

/-- A list of names in order and without repetition. -/
def sortedNames (names : List String) : List String :=
  (names.mergeSort (· ≤ ·)).eraseReps

namespace FunctionDef

def name (f : FunctionDef) : String := f.signature.name

/-- The name that a node calls. -/
def calleeOf? : Node → Option String
  | .call _ callee .. => some callee
  | _ => none

/-- The names called in the body. -/
def callees (f : FunctionDef) : List String := sortedNames (f.body.filterMap calleeOf?)

end FunctionDef

/-! ### JSON form -/

namespace Signature

def ofJson? (j : Json) : Option Signature := do
  let r ← j.record? ["name", "params", "return_type", "variadic", "interrupt", "bank",
    "externally_visible", "clobbers"]
  return {
    name := ← r.required "name" Json.string?
    params := ← r.required "params" (Json.list? ValueType.ofJson?)
    returnType := ← r.required "return_type" ValueType.ofJson?
    variadic := ← r.withDefault "variadic" false Json.bool?
    entry := ← r.withDefault "interrupt" .subroutine EntryKind.ofJson?
    bank := ← r.withDefault "bank" .common Bank.ofJson?
    visible := ← r.withDefault "externally_visible" true Json.bool?
    clobbers := ← r.withDefault "clobbers" none (Json.nullable? DeclaredClobbers.ofJson?) }

def toJson (s : Signature) : Json :=
  .obj [("name", .str s.name), ("params", .ofList ValueType.toJson s.params),
    ("return_type", s.returnType.toJson), ("variadic", .bool s.variadic),
    ("interrupt", s.entry.toJson), ("bank", s.bank.toJson),
    ("externally_visible", .bool s.visible),
    ("clobbers", .ofOption DeclaredClobbers.toJson s.clobbers)]

end Signature

namespace FunctionDef

def ofJson? (j : Json) : Option FunctionDef := do
  let r ← j.record? ["signature", "params", "body", "is_external", "address"]
  return {
    signature := ← r.required "signature" Signature.ofJson?
    params := ← r.required "params" (Json.list? Json.uint32?)
    body := ← r.required "body" (Json.list? Node.ofJson?)
    isExternal := ← r.withDefault "is_external" false Json.bool?
    address := ← r.withDefault "address" none (Json.nullable? Json.uint16?) }

def toJson (f : FunctionDef) : Json :=
  .obj [("signature", f.signature.toJson), ("params", .ofList .ofUInt32 f.params),
    ("body", .ofList Node.toJson f.body), ("is_external", .bool f.isExternal),
    ("address", .ofOption .ofUInt16 f.address)]

end FunctionDef

end Codegen6502
