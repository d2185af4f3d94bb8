import Codegen6502.Asm.Effects
import Codegen6502.ZeroPage

/-!
# Clobber sets

The registers and zero-page cells that a routine may overwrite.
-/

namespace Codegen6502

structure Clobbers where
  regs : RegSet := {}
  cells : CellSet := .empty
  deriving DecidableEq

namespace Clobbers

def empty : Clobbers := {}

/-- All registers and no cells. -/
def registers : Clobbers := { regs := .all }

/-- Everything that a routine could touch under a layout. -/
def everything (z : ZeroPage) : Clobbers :=
  { regs := .all
    cells := ((((CellSet.ofList z.argCells).insert z.pointerLo).insert z.pointerHi).insert
      z.bankShadow).union (.ofList z.pool) }

def insertReg (s : Clobbers) (r : Register) : Clobbers := { s with regs := s.regs.insert r }

def insertCell (s : Clobbers) (cell : UInt8) : Clobbers := { s with cells := s.cells.insert cell }

def union (s t : Clobbers) : Clobbers := ⟨s.regs.union t.regs, s.cells.union t.cells⟩

def containsReg (s : Clobbers) (r : Register) : Bool := s.regs.contains r

def containsCell (s : Clobbers) (cell : UInt8) : Bool := s.cells.contains cell

def isEmpty (s : Clobbers) : Bool := s.regs = {} && s.cells.isEmpty

/-- What a line overwrites by itself; calls are not followed. -/
def ofLine : Line → Clobbers
  | .op .jsr _ => {}
  | .op opcode operand =>
    { regs := (Line.op opcode operand).effects.writes
      cells := match operand with
        | .zeroPage cell => if opcode.writesMemory then .ofList [cell] else .empty
        | _ => .empty }
  | _ => {}

/-- What a list of lines overwrites by itself. -/
def writtenBy (code : List Line) : Clobbers :=
  code.foldl (fun s line => s.union (ofLine line)) {}

def text (s : Clobbers) : String :=
  "\x7b" ++ ", ".intercalate
    (s.regs.toList.map Register.text ++ s.cells.toList.map fun cell => "$" ++ hexByte cell) ++
    "\x7d"

def ofJson? (j : Json) : Option Clobbers := do
  let r ← j.record? ["regs", "zero_page"]
  return {
    regs := .ofList (← r.required "regs" (Json.list? Register.ofJson?))
    cells := .ofList (← r.required "zero_page" (Json.list? Json.uint8?)) }

def toJson (s : Clobbers) : Json :=
  .obj [("regs", .ofList Register.toJson s.regs.toList), ("zero_page", .ofBytes s.cells.toList)]

end Clobbers

/-! ### Jump buffers -/

/-- The bytes of a buffer that holds the state to return to. -/
structure JumpBuffer where
  sp : UInt8
  retLo : UInt8
  retHi : UInt8
  a : UInt8
  x : UInt8
  y : UInt8
  bank : UInt8

namespace JumpBuffer

/-- The offset of each byte. -/
def offsets : JumpBuffer := ⟨0, 1, 2, 3, 4, 5, 6⟩

/-- The size of a buffer in bytes. -/
def size : UInt16 := 7

end JumpBuffer

end Codegen6502
