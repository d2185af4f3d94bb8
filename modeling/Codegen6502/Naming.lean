import Codegen6502.Program.Value

/-!
# Names of generated labels and symbols

Every generated label starts with the name of the function it belongs to, and every symbol of the
support code starts with two underscores.
-/

namespace Codegen6502

namespace Naming

/-- The way back from every bank. -/
def trampolineReturn : String := "__tramp_return"

def setJmp : String := "__setjmp"

def longJmp : String := "__longjmp"

/-- The way into a bank. -/
def trampoline (bank : UInt8) : String := "__bank_tramp_" ++ toString bank.toNat

/-- The memory in which an interrupt handler saves what it overwrites. -/
def saveArea (function : String) : String := "__isr_save_" ++ function

/-- Whether a name is reserved for the support code. -/
def isReserved (name : String) : Bool := "__".toList.isPrefixOf name.toList

/-- The label of a label node. -/
def nodeLabel (function : String) (id : LabelId) : String := function ++ "_L" ++ toString id.toNat

/-- The label at which the exit sequence starts. -/
def exitLabel (function : String) : String := function ++ "_exit"

/-- A label for a branch inside generated code. -/
def innerLabel (function : String) (number : Nat) : String := function ++ "_s" ++ toString number

end Naming

end Codegen6502
