import Codegen6502.Asm.Opcode
import Codegen6502.Asm.Operand

/-!
# Lines of assembly

A line is an instruction, a label or a comment; only instructions produce code.
-/

namespace Codegen6502

inductive Line where
  | op (opcode : Opcode) (operand : Operand)
  | label (name : String)
  | comment (text : String)
  deriving DecidableEq

namespace Line

/-- An instruction without operand.  Shifts and rotations then work on the accumulator. -/
def bare (opcode : Opcode) : Line :=
  match opcode with
  | .asl | .lsr | .rol | .ror => .op opcode .accumulator
  | _ => .op opcode .implied

def branch (opcode : Opcode) (target : String) : Line := .op opcode (.relative target)

/-- A jump to a label of the same function. -/
def jmp (target : String) : Line := .op .jmp (.label target)

/-- A call of a named routine. -/
def jsr (name : String) : Line := .op .jsr (.symbol name)

def opcode? : Line → Option Opcode
  | .op opcode _ => some opcode
  | _ => none

def operand? : Line → Option Operand
  | .op _ operand => some operand
  | _ => none

/-- The label that a branch or a jump inside the function goes to. -/
def target? : Line → Option String
  | .op _ (.relative target) => some target
  | .op .jmp (.absolute (.label target)) => some target
  | _ => none

/-- Whether the line produces no code. -/
def isPseudo : Line → Bool
  | .op .. => false
  | _ => true

def text : Line → String
  | .op opcode .implied => "    " ++ opcode.mnemonic
  | .op opcode operand => "    " ++ opcode.mnemonic ++ " " ++ operand.text
  | .label name => name ++ ":"
  | .comment text => "    ; " ++ text

def ofJson? (j : Json) : Option Line := do
  let c ← j.case?
  match c.tag with
  | "Op" => c.carrying fun d =>
    match d with
    | .arr [opcode, operand] => do return .op (← Opcode.ofJson? opcode) (← Operand.ofJson? operand)
    | _ => none
  | "Label" => c.carrying fun d => d.string?.map .label
  | "Comment" => c.carrying fun d => d.string?.map .comment
  | _ => none

end Line

/-- The text of a list of lines, each ended by a line break. -/
def listing (code : List Line) : String :=
  String.join (code.map fun line => line.text ++ "\n")

end Codegen6502
