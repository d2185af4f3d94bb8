import Codegen6502.Asm.Encoding
import Codegen6502.DataObject
import Codegen6502.Emission.Symbols
import Codegen6502.Total

/-!
# Emission

The record of everything that has been emitted: finished functions, data objects and external
symbols, and the function that is open.  Functions are emitted one at a time, each as an entry
sequence, the lines of its body and an exit sequence.

An operation that is refused may still have had an effect, so operations are computations over the
record that can fail.
-/

namespace Codegen6502

/-- What is known of a function besides its code. -/
structure FunctionHeader where
  name : String
  /-- The bank that the signature names. -/
  declaredBank : Bank := .common
  /-- The bank in which the code is placed. -/
  placement : Bank := .common
  visible : Bool := false
  entry : EntryKind := .subroutine
  deriving DecidableEq

structure EmittedFunction where
  header : FunctionHeader
  code : List Line
  /-- The number of lines of the entry sequence. -/
  bodyStart : Nat := 0
  /-- The index of the first line of the exit sequence. -/
  exitStart : Nat := 0
  deriving DecidableEq

structure Emission where
  functions : List EmittedFunction := []
  data : List DataObject := []
  externals : Std.TreeMap String UInt16 := ∅
  /-- The function that has been begun and not finished. -/
  current : Option EmittedFunction := none

/-- A computation that may change the record and may fail. -/
abbrev Emit := EStateM CompileError Emission

/-- The outcome of a computation on a record. -/
def Emit.outcome (action : Emit α) (e : Emission) : Compile (α × Emission) :=
  match action.run e with
  | .ok a e => .ok (a, e)
  | .error error _ => .error error

namespace Emission

/-- Refuses a line whose operand allocation should have replaced. -/
def checkAllocated (function : String) (line : Line) : Compile Unit :=
  match line.operand? with
  | some operand =>
    if operand.isPreAllocation then
      .error (.internal ("'" ++ function ++ "': unallocated operand in '" ++ line.text ++ "'"))
    else .ok ()
  | none => .ok ()

/-- Begins a function with its entry sequence. -/
def beginFunction (header : FunctionHeader) (code : List Line) : Emit Unit := do
  if let some f := (← get).current then
    throw (.internal ("'" ++ header.name ++ "' started while '" ++ f.header.name ++
      "' is still open"))
  MonadExcept.ofExcept (code.forM (checkAllocated header.name))
  modify fun e => { e with current := some { header, code, bodyStart := code.length } }

/-- Appends a line to the open function. -/
def push (line : Line) : Emit Unit := do
  let some f := (← get).current
    | throw (.internal ("'" ++ line.text ++ "' emitted outside a function"))
  MonadExcept.ofExcept (checkAllocated f.header.name line)
  modify fun e => { e with current := some { f with code := f.code ++ [line] } }

/-- Appends lines to the open function one after the other. -/
def pushAll : List Line → Emit Unit
  | [] => pure ()
  | line :: rest => do
    push line
    pushAll rest

/-- Finishes the open function with its exit sequence.  If that is refused, the function is lost. -/
def endFunction (code : List Line) : Emit Unit := do
  let some f := (← get).current | throw (.internal "epilogue emitted outside a function")
  modify fun e => { e with current := none }
  MonadExcept.ofExcept (code.forM (checkAllocated f.header.name))
  let done := { f with code := f.code ++ code, exitStart := f.code.length }
  modify fun e => { e with functions := e.functions ++ [done] }

def addData (e : Emission) (object : DataObject) : Emission := { e with data := e.data ++ [object] }

/-- Gives an external symbol its address; a later address replaces an earlier one. -/
def addExternal (e : Emission) (name : String) (address : UInt16) : Emission :=
  { e with externals := e.externals.insert name address }

/-- Fails while a function is open. -/
def checkClosed (e : Emission) : Compile Unit :=
  match e.current with
  | some f => .error (.internal ("'" ++ f.header.name ++ "' was never finished"))
  | none => .ok ()

/-- The lines of the finished functions, each with the header of its function. -/
def lines (e : Emission) : List (FunctionHeader × Line) :=
  e.functions.flatMap fun f => f.code.map fun line => (f.header, line)

end Emission

/-! ### Statistics -/

/-- Counts over an emission. -/
structure Statistics where
  functions : Nat
  instructions : Nat
  codeBytes : Nat
  cycles : Nat
  dataBytes : Nat
  deriving DecidableEq

namespace Statistics

def ofEmission (e : Emission) : Statistics :=
  let code := (e.functions.flatMap (·.code)).filter fun line => !line.isPseudo
  { functions := e.functions.length
    instructions := code.length
    codeBytes := totalOf (fun line => line.size.toNat) code
    cycles := totalOf Line.cycles code
    dataBytes := totalOf DataObject.size e.data }

def toJson (s : Statistics) : Json :=
  .obj [("functions", .ofNat s.functions), ("instructions", .ofNat s.instructions),
    ("code_bytes", .ofNat s.codeBytes), ("cycles", .ofNat s.cycles),
    ("data_bytes", .ofNat s.dataBytes)]

end Statistics

end Codegen6502
