import Codegen6502.Clobbers
import Codegen6502.Convention.Sequence
import Codegen6502.Naming

/-!
# What an interrupt handler saves

A handler that stays masked saves exactly what it overwrites, in an area of its own.  A handler that
may be entered again pushes P, A, X and Y and the cells it overwrites.
-/

namespace Codegen6502

inductive SaveScheme where
  | area (name : String) (regs : List Register) (cells : List UInt8)
  | stacked (cells : List UInt8)
  deriving DecidableEq

namespace SaveScheme

/-- The plan that saves into the handler's own area. -/
def inArea (function : String) (saves : Clobbers) : SaveScheme :=
  .area (Naming.saveArea function) saves.regs.toList saves.cells.toList

/-- The plan that saves onto the stack. -/
def onStack (saves : Clobbers) : SaveScheme := .stacked saves.cells.toList

/-- The bytes of the area. -/
def areaSize : SaveScheme → Nat
  | .area _ regs cells => regs.length + cells.length
  | .stacked _ => 0

/-- Byte `k` of an area. -/
def slot (name : String) (k : Nat) : Operand := .absolute (.symbol name (Int32.ofNat k))

def storeOp : Register → Opcode
  | .a => .sta
  | .x => .stx
  | .y => .sty

def loadOp : Register → Opcode
  | .a => .lda
  | .x => .ldx
  | .y => .ldy

/-- Pairs each element with its place, counted from `start`. -/
def numbered (start : Nat) (as : List α) : List (Nat × α) :=
  as.zipIdx start |>.map fun (a, k) => (k, a)

def prologue : SaveScheme → Sequence
  | .area name regs cells =>
    .ofLines <|
      (numbered 0 regs).map (fun (k, r) => .op (storeOp r) (slot name k)) ++
      (numbered regs.length cells).flatMap fun (k, cell) =>
        [.op .lda (.zeroPage cell), .op .sta (slot name k)]
  | .stacked cells =>
    .ofLines <|
      [Line.bare .php, .bare .pha, .bare .txa, .bare .pha, .bare .tya, .bare .pha] ++
      cells.flatMap fun cell => [.op .lda (.zeroPage cell), .bare .pha]

/-- The restoring sequence, which ends the interrupt.  A comes last, since cells are copied through
it. -/
def epilogue : SaveScheme → Sequence
  | .area name regs cells =>
    .ofLines <|
      ((numbered regs.length cells).flatMap fun (k, cell) =>
        [.op .lda (slot name k), .op .sta (.zeroPage cell)]) ++
      (numbered 0 regs).reverse.map (fun (k, r) => .op (loadOp r) (slot name k)) ++
      [.bare .rti]
  | .stacked cells =>
    .ofLines <|
      (cells.reverse.flatMap fun cell => [Line.bare .pla, .op .sta (.zeroPage cell)]) ++
      [.bare .pla, .bare .tay, .bare .pla, .bare .tax, .bare .pla, .bare .plp, .bare .rti]

/-- The registers in the order they are saved; `none` stands for P. -/
def savedRegisters : SaveScheme → List (Option Register)
  | .area _ regs _ => regs.map some
  | .stacked _ => [none, some .a, some .x, some .y]

def savedCells : SaveScheme → List UInt8
  | .area _ _ cells => cells
  | .stacked cells => cells

end SaveScheme

end Codegen6502
