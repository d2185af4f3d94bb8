import Codegen6502.Json.Parse
import Codegen6502.Json.Print
import Codegen6502.Program.Function

/-!
# Programs

A program is one unit of compilation: functions and global variables.
-/

namespace Codegen6502

structure GlobalVar where
  name : String
  size : UInt16
  /-- The first bytes; the rest is zero. -/
  init : Option (List UInt8) := none
  /-- Where it lives: in the common area it is writable, in a bank it is read-only. -/
  bank : Bank := .common
  deriving DecidableEq

/-- The initial contents, cut or padded with zeros to the size. -/
def GlobalVar.bytes (g : GlobalVar) : List UInt8 :=
  let given := (g.init.getD []).take g.size.toNat
  given ++ List.replicate (g.size.toNat - given.length) 0

structure Program where
  name : String
  functions : List FunctionDef := []
  globals : List GlobalVar := []
  deriving DecidableEq

namespace Program

/-- The first function of a name. -/
def function? (p : Program) (name : String) : Option FunctionDef :=
  p.functions.find? fun f => f.name = name

/-- The first global of a name. -/
def global? (p : Program) (name : String) : Option GlobalVar :=
  p.globals.find? fun g => g.name = name

end Program

/-! ### JSON form -/

namespace GlobalVar

def ofJson? (j : Json) : Option GlobalVar := do
  let r ← j.record? ["name", "size", "init", "bank"]
  return {
    name := ← r.required "name" Json.string?
    size := ← r.required "size" Json.uint16?
    init := ← r.withDefault "init" none (Json.nullable? (Json.list? Json.uint8?))
    bank := ← r.withDefault "bank" .common Bank.ofJson? }

def toJson (g : GlobalVar) : Json :=
  .obj [("name", .str g.name), ("size", .ofUInt16 g.size), ("init", .ofOption .ofBytes g.init),
    ("bank", g.bank.toJson)]

end GlobalVar

namespace Program

def ofJson? (j : Json) : Option Program := do
  let r ← j.record? ["name", "functions", "globals"]
  return {
    name := ← r.required "name" Json.string?
    functions := ← r.required "functions" (Json.list? FunctionDef.ofJson?)
    globals := ← r.withDefault "globals" [] (Json.list? GlobalVar.ofJson?) }

def toJson (p : Program) : Json :=
  .obj [("name", .str p.name), ("functions", .ofList FunctionDef.toJson p.functions),
    ("globals", .ofList GlobalVar.toJson p.globals)]

/-- The program that a text stands for. -/
def parse? (text : String) : Option Program := (Json.parse? text).bind ofJson?

/-- The text of a program, laid out over lines. -/
def render (p : Program) : String := p.toJson.pretty

end Program

end Codegen6502
