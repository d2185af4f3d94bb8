import Codegen6502.Program.Basic

/-!
# Building functions

A builder numbers temporaries and labels and appends nodes to the function under way.  Starting a
function numbers afresh; the temporaries of its parameters come first.
-/

namespace Codegen6502

structure Builder where
  current : Option FunctionDef := none
  nextTemp : Temp := 0
  nextLabel : LabelId := 0

namespace Builder

/-- Why a step of the builder fails. -/
inductive Failure where
  | noFunction
  deriving DecidableEq

def Failure.message : Failure → String
  | .noFunction => "No current function"

/-- A step of the builder; the builder is kept when the step fails. -/
abbrev Step (α : Type) := ExceptT Failure (StateM Builder) α

def newTemp : Step Temp := do
  let b ← get
  set { b with nextTemp := b.nextTemp + 1 }
  return b.nextTemp

def newLabel : Step LabelId := do
  let b ← get
  set { b with nextLabel := b.nextLabel + 1 }
  return b.nextLabel

/-- Starts a function and gives the temporaries of its parameters. -/
def startFunction (signature : Signature) : Step (List Temp) := do
  let count := signature.params.length
  let params := (List.range count).map UInt32.ofNat
  set { current := some { signature, params }, nextTemp := UInt32.ofNat count : Builder }
  return params

/-- Hands over the function under way. -/
def finishFunction : Step FunctionDef := do
  let b ← get
  match b.current with
  | some f =>
    set { b with current := none }
    return f
  | none => throw .noFunction

/-- Appends a node. -/
def addNode (node : Node) : Step Unit := do
  let b ← get
  match b.current with
  | some f => set { b with current := some { f with body := f.body ++ [node] } }
  | none => throw .noFunction

/-- Appends a node that defines a new temporary. -/
def addDefining (node : Temp → Node) : Step Temp := do
  let result ← newTemp
  addNode (node result)
  return result

/-- Appends a node that defines a new temporary if `wanted`. -/
def addMaybeDefining (wanted : Bool) (node : Option Temp → Node) : Step (Option Temp) := do
  if wanted then
    return some (← addDefining fun t => node (some t))
  else
    addNode (node none)
    return none

def copy (value : Value) (type : ValueType) : Step Temp :=
  addDefining fun r => .copy r value type

def binary (op : BinaryOp) (lhs rhs : Value) (type : ValueType) : Step Temp :=
  addDefining fun r => .binary r op lhs rhs type

def store (value : Value) (dest : Place) (type : ValueType) : Step Unit :=
  addNode (.store value dest type)

/-- A call; only a scalar result gets a temporary. -/
def call (callee : String) (args : List Argument) (type : ValueType) : Step (Option Temp) :=
  addMaybeDefining (!(type.isVoid || type.isStruct)) fun r => .call r callee args type none

/-- A call whose structure result lands in `dest`. -/
def callInto (callee : String) (args : List Argument) (type : ValueType) (dest : Place) :
    Step Unit :=
  addNode (.call none callee args type (some dest))

def asmCall (address : UInt16) (a x y : Option Value) (clobbers : DeclaredClobbers)
    (wantsResult : Bool) : Step (Option Temp) :=
  addMaybeDefining wantsResult fun r => .asmCall address a x y clobbers r

def branch (op : CompareOp) (lhs rhs : Value) (type : ValueType) (ifTrue ifFalse : LabelId) :
    Step Unit :=
  addNode (.branch op lhs rhs type ifTrue ifFalse)

def jump (label : LabelId) : Step Unit := addNode (.jump label)

def placeLabel (label : LabelId) : Step Unit := addNode (.label label)

def ret (value : Option Value) : Step Unit := addNode (.ret value)

def setJmp (buffer : Place) : Step Temp := addDefining fun r => .setJmp r buffer

def longJmp (buffer : Place) (value : Value) : Step Unit := addNode (.longJmp buffer value)

def vaStart : Step Temp := addDefining .vaStart

def vaArg (cursor : Temp) (type : ValueType) : Step Temp :=
  addDefining fun r => .vaArg r cursor type

def vaCount : Step Temp := addDefining .vaCount

def loadField (src : Place) (field : BitField) : Step Temp :=
  addDefining fun r => .loadField r src field

def storeField (value : Value) (dest : Place) (field : BitField) : Step Unit :=
  addNode (.storeField value dest field)

end Builder

end Codegen6502
