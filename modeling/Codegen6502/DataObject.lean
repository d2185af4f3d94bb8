import Codegen6502.Error
import Codegen6502.Naming
import Codegen6502.Program.Basic

/-!
# Data objects

The global variables of a program and the save areas of its interrupt handlers, in the order of
their definition.  An object of the common area is writable memory; one in a bank can be read only
while that bank is selected.
-/

namespace Codegen6502

structure DataObject where
  name : String
  bytes : List UInt8
  bank : Bank
  deriving DecidableEq

namespace DataObject

def size (o : DataObject) : Nat := o.bytes.length

def ofGlobal (g : GlobalVar) : DataObject := ⟨g.name, g.bytes, g.bank⟩

/-- The memory in which an interrupt handler saves what it overwrites. -/
def saveArea (function : String) (size : UInt16) : DataObject :=
  ⟨Naming.saveArea function, List.replicate size.toNat 0, .common⟩

def ofJson? (j : Json) : Option DataObject := do
  let r ← j.record? ["name", "bytes", "bank"]
  return {
    name := ← r.required "name" Json.string?
    bytes := ← r.required "bytes" (Json.list? Json.uint8?)
    bank := ← r.required "bank" Bank.ofJson? }

end DataObject

/-- Data objects with names of their own. -/
structure DataObjects where
  objects : List DataObject := []

namespace DataObjects

def contains (d : DataObjects) (name : String) : Bool := d.objects.any fun o => o.name = name

def add (d : DataObjects) (object : DataObject) : Compile DataObjects :=
  if d.contains object.name then
    .error (.invalidProgram object.name "data object defined more than once")
  else .ok ⟨d.objects ++ [object]⟩

/-- Why a global variable is refused. -/
def globalFault? (g : GlobalVar) : Option String :=
  let given := (g.init.getD []).length
  if given > g.size.toNat then
    some s!"{given} initial bytes for a {g.size.toNat}-byte object"
  else if Naming.isReserved g.name then
    some "names starting with '__' are reserved for the runtime"
  else none

def addGlobal (d : DataObjects) (g : GlobalVar) : Compile DataObjects :=
  match globalFault? g with
  | some problem => .error (.invalidProgram g.name problem)
  | none => d.add (.ofGlobal g)

/-- Adds the save area of a handler; a handler that saves nothing has none. -/
def addSaveArea (d : DataObjects) (function : String) (size : UInt16) : Compile DataObjects :=
  if size = 0 then .ok d else d.add (.saveArea function size)

end DataObjects

end Codegen6502
