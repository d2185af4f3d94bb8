import Codegen6502.Asm.Line

/-!
# Effects of instructions

Which registers and flags an instruction reads and writes.  A call is taken to read and write every
register: arguments may travel in registers, and nothing survives a call.
-/

namespace Codegen6502

/-- A set of registers. -/
structure RegSet where
  a : Bool := false
  x : Bool := false
  y : Bool := false
  deriving DecidableEq

namespace RegSet

def empty : RegSet := {}

def all : RegSet := ⟨true, true, true⟩

def contains (s : RegSet) : Register → Bool
  | .a => s.a
  | .x => s.x
  | .y => s.y

def insert (s : RegSet) : Register → RegSet
  | .a => { s with a := true }
  | .x => { s with x := true }
  | .y => { s with y := true }

def union (s t : RegSet) : RegSet := ⟨s.a || t.a, s.x || t.x, s.y || t.y⟩

/-- The registers of the set in the order A, X, Y. -/
def toList (s : RegSet) : List Register := Register.all.filter s.contains

def ofList (rs : List Register) : RegSet := rs.foldl insert {}

end RegSet

structure Effects where
  reads : RegSet := {}
  writes : RegSet := {}
  /-- Reads N or Z. -/
  readsNZ : Bool := false
  /-- Writes N and Z. -/
  writesNZ : Bool := false
  readsCarry : Bool := false
  writesCarry : Bool := false
  /-- Changes the stack pointer. -/
  movesSP : Bool := false
  deriving DecidableEq

/-- The registers of a set in one word. -/
def RegSet.text (s : RegSet) : String := String.join (s.toList.map Register.text)

def Effects.toJson (e : Effects) : Json :=
  .obj [("reads", .str e.reads.text), ("writes", .str e.writes.text),
    ("reads_nz", .bool e.readsNZ), ("writes_nz", .bool e.writesNZ),
    ("reads_carry", .bool e.readsCarry), ("writes_carry", .bool e.writesCarry),
    ("moves_sp", .bool e.movesSP)]

/-- The index register that an operand uses.  A frame byte uses none until it has been replaced by
an indexed address. -/
def Operand.index : Operand → RegSet
  | .absoluteX _ => { x := true }
  | .absoluteY _ | .indirectY _ => { y := true }
  | _ => {}

/-- The effects of a mnemonic, those of an index register in its operand apart. -/
def Opcode.effects (op : Opcode) (operand : Operand) : Effects :=
  match op with
  | .adc | .sbc =>
    { reads := { a := true }, writes := { a := true }, writesNZ := true, readsCarry := true,
      writesCarry := true }
  | .and | .ora | .eor => { reads := { a := true }, writes := { a := true }, writesNZ := true }
  | .cmp => { reads := { a := true }, writesNZ := true, writesCarry := true }
  | .cpx => { reads := { x := true }, writesNZ := true, writesCarry := true }
  | .cpy => { reads := { y := true }, writesNZ := true, writesCarry := true }
  | .bit => { reads := { a := true }, writesNZ := true }
  | .asl | .lsr | .rol | .ror =>
    let acc : RegSet := { a := operand = .accumulator }
    { reads := acc, writes := acc, writesNZ := true, writesCarry := true,
      readsCarry := op = .rol || op = .ror }
  | .inc | .dec => { writesNZ := true }
  | .inx | .dex => { reads := { x := true }, writes := { x := true }, writesNZ := true }
  | .iny | .dey => { reads := { y := true }, writes := { y := true }, writesNZ := true }
  | .lda => { writes := { a := true }, writesNZ := true }
  | .ldx => { writes := { x := true }, writesNZ := true }
  | .ldy => { writes := { y := true }, writesNZ := true }
  | .sta => { reads := { a := true } }
  | .stx => { reads := { x := true } }
  | .sty => { reads := { y := true } }
  | .tax => { reads := { a := true }, writes := { x := true }, writesNZ := true }
  | .tay => { reads := { a := true }, writes := { y := true }, writesNZ := true }
  | .txa => { reads := { x := true }, writes := { a := true }, writesNZ := true }
  | .tya => { reads := { y := true }, writes := { a := true }, writesNZ := true }
  | .tsx => { writes := { x := true }, writesNZ := true }
  | .txs => { reads := { x := true }, movesSP := true }
  | .pha => { reads := { a := true }, movesSP := true }
  | .php => { readsNZ := true, readsCarry := true, movesSP := true }
  | .pla => { writes := { a := true }, writesNZ := true, movesSP := true }
  | .plp => { writesNZ := true, writesCarry := true, movesSP := true }
  | .beq | .bne | .bmi | .bpl => { readsNZ := true }
  | .bcc | .bcs => { readsCarry := true }
  | .clc | .sec => { writesCarry := true }
  | .jsr | .brk =>
    { reads := .all, writes := .all, writesNZ := true, writesCarry := true, movesSP := true }
  | .rts | .rti => { reads := .all, readsNZ := true, readsCarry := true, movesSP := true }
  | .bvc | .bvs | .cld | .cli | .clv | .jmp | .nop | .sed | .sei => {}

/-- The effects of a line. -/
def Line.effects : Line → Effects
  | .op opcode operand =>
    let e := opcode.effects operand
    { e with reads := e.reads.union operand.index }
  | _ => {}

end Codegen6502
