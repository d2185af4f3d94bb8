import Codegen6502.Asm.Encoding
import Codegen6502.Processor.Machine

/-!
# One instruction

Opcode bytes are decoded by the encoding table, so the machine accepts exactly what can be encoded.
`Machine.step` fetches an opcode byte, reads its operand and executes it.
-/

namespace Codegen6502

/-- The mnemonic and mode of an opcode byte, searched in the encoding table. -/
def decode? (byte : UInt8) : Option (Opcode × Mode) :=
  Opcode.all.findSome? fun op =>
    (Mode.all.find? fun mode => op.encode mode = some byte).map fun mode => (op, mode)

/-- The decoding of every byte. -/
def decodeTable : Vector (Option (Opcode × Mode)) 256 :=
  Vector.ofFn fun i => decode? (UInt8.ofNat i.val)

/-- What an instruction works on. -/
inductive EffectiveOperand where
  | none
  | accumulator
  | value (byte : UInt8)
  | address (at_ : UInt16)

/-- The address of an operand; one that has none counts as address 0. -/
def EffectiveOperand.toAddress : EffectiveOperand → UInt16
  | .address a => a
  | _ => 0

namespace Machine

/-- The byte at the program counter, which advances. -/
def fetch (m : Machine) : UInt8 × Machine :=
  let pc := m.regs.pc
  (m.bus.read pc, { m with regs := { m.regs with pc := pc + 1 } })

def fetchWord (m : Machine) : UInt16 × Machine :=
  let (lo, m) := m.fetch
  let (hi, m) := m.fetch
  (word lo hi, m)

/-- The distance of a branch as a 16-bit number. -/
def signExtend (offset : UInt8) : UInt16 :=
  if offset < 0x80 then offset.toUInt16 else 0xFF00 ||| offset.toUInt16

/-- Fetches the operand bytes of a mode and gives what they stand for. -/
def operand (m : Machine) : Mode → EffectiveOperand × Machine
  | .implied => (.none, m)
  | .accumulator => (.accumulator, m)
  | .immediate =>
    let (byte, m) := m.fetch
    (.value byte, m)
  | .zeroPage =>
    let (byte, m) := m.fetch
    (.address byte.toUInt16, m)
  | .absolute =>
    let (w, m) := m.fetchWord
    (.address w, m)
  | .absoluteX =>
    let (w, m) := m.fetchWord
    (.address (w + m.regs.x.toUInt16), m)
  | .absoluteY =>
    let (w, m) := m.fetchWord
    (.address (w + m.regs.y.toUInt16), m)
  | .indirectY =>
    let (cell, m) := m.fetch
    let base := word (m.bus.read cell.toUInt16) (m.bus.read (cell + 1).toUInt16)
    (.address (base + m.regs.y.toUInt16), m)
  | .indirect =>
    -- The high byte is read from the same page as the low byte.
    let (pointer, m) := m.fetchWord
    let hiAt := (pointer &&& 0xFF00) ||| ((pointer + 1) &&& 0x00FF)
    (.address (word (m.bus.read pointer) (m.bus.read hiAt)), m)
  | .relative =>
    let (offset, m) := m.fetch
    (.address (m.regs.pc + signExtend offset), m)

def readOperand (m : Machine) : EffectiveOperand → UInt8
  | .value byte => byte
  | .address a => m.bus.read a
  | .accumulator => m.regs.a
  | .none => 0

def writeOperand (m : Machine) (target : EffectiveOperand) (value : UInt8) : Machine :=
  match target with
  | .address a => { m with bus := m.bus.write a value }
  | .accumulator => { m with regs := { m.regs with a := value } }
  | _ => m

/-- Goes to the target if the condition holds. -/
def branchIf (m : Machine) (taken : Bool) (target : EffectiveOperand) : Machine :=
  if taken then m.mapRegs fun r => { r with pc := target.toAddress } else m

/-- The result and the new carry of a shift or rotation. -/
def shifted (op : Opcode) (byte : UInt8) (carry : Bool) : UInt8 × Bool :=
  let carryIn : UInt8 := if carry then 1 else 0
  match op with
  | .asl => (byte <<< 1, byte &&& 0x80 != 0)
  | .lsr => (byte >>> 1, byte &&& 0x01 != 0)
  | .rol => (byte <<< 1 ||| carryIn, byte &&& 0x80 != 0)
  | _ => (byte >>> 1 ||| carryIn <<< 7, byte &&& 0x01 != 0)

/-- Executes a decoded instruction. -/
def execute (m : Machine) (op : Opcode) (target : EffectiveOperand) : Machine :=
  match op with
  | .adc =>
    let byte := m.readOperand target
    m.mapRegs (·.add byte)
  | .sbc =>
    let byte := m.readOperand target
    m.mapRegs (·.add (byte ^^^ 0xFF))
  | .and =>
    let byte := m.readOperand target
    m.mapRegs fun r => r.loadA (r.a &&& byte)
  | .ora =>
    let byte := m.readOperand target
    m.mapRegs fun r => r.loadA (r.a ||| byte)
  | .eor =>
    let byte := m.readOperand target
    m.mapRegs fun r => r.loadA (r.a ^^^ byte)
  | .cmp =>
    let byte := m.readOperand target
    m.mapRegs fun r => r.compare r.a byte
  | .cpx =>
    let byte := m.readOperand target
    m.mapRegs fun r => r.compare r.x byte
  | .cpy =>
    let byte := m.readOperand target
    m.mapRegs fun r => r.compare r.y byte
  | .bit =>
    let byte := m.readOperand target
    m.mapRegs fun r =>
      ((r.setFlag .z (r.a &&& byte = 0)).setFlag .n (byte &&& 0x80 != 0)).setFlag .v
        (byte &&& 0x40 != 0)
  | .asl | .lsr | .rol | .ror =>
    let (result, carry) := shifted op (m.readOperand target) (m.regs.flag .c)
    (m.mapRegs fun r => (r.setFlag .c carry).setNZ result).writeOperand target result
  | .inc =>
    let result := m.readOperand target + 1
    (m.mapRegs (·.setNZ result)).writeOperand target result
  | .dec =>
    let result := m.readOperand target - 1
    (m.mapRegs (·.setNZ result)).writeOperand target result
  | .inx => m.mapRegs fun r => r.loadX (r.x + 1)
  | .iny => m.mapRegs fun r => r.loadY (r.y + 1)
  | .dex => m.mapRegs fun r => r.loadX (r.x - 1)
  | .dey => m.mapRegs fun r => r.loadY (r.y - 1)
  | .lda =>
    let byte := m.readOperand target
    m.mapRegs (·.loadA byte)
  | .ldx =>
    let byte := m.readOperand target
    m.mapRegs (·.loadX byte)
  | .ldy =>
    let byte := m.readOperand target
    m.mapRegs (·.loadY byte)
  | .sta =>
    let byte := m.regs.a
    m.writeOperand target byte
  | .stx =>
    let byte := m.regs.x
    m.writeOperand target byte
  | .sty =>
    let byte := m.regs.y
    m.writeOperand target byte
  | .bcc => m.branchIf (!m.regs.flag .c) target
  | .bcs => m.branchIf (m.regs.flag .c) target
  | .beq => m.branchIf (m.regs.flag .z) target
  | .bne => m.branchIf (!m.regs.flag .z) target
  | .bmi => m.branchIf (m.regs.flag .n) target
  | .bpl => m.branchIf (!m.regs.flag .n) target
  | .bvc => m.branchIf (!m.regs.flag .v) target
  | .bvs => m.branchIf (m.regs.flag .v) target
  | .jmp => m.mapRegs fun r => { r with pc := target.toAddress }
  | .jsr =>
    let back := m.regs.pc - 1
    (m.pushWord back).mapRegs fun r => { r with pc := target.toAddress }
  | .rts =>
    let (w, m) := m.pullWord
    m.mapRegs fun r => { r with pc := w + 1 }
  | .rti =>
    let (status, m) := m.pull
    let (w, m) := (m.mapRegs fun r => { r with p := Registers.pulledStatus status }).pullWord
    m.mapRegs fun r => { r with pc := w }
  | .brk =>
    let back := m.regs.pc + 1
    let status := m.regs.pushedStatus
    let m := (m.pushWord back).push status
    let vector := m.bus.readWord 0xFFFE
    m.mapRegs fun r => { r.setFlag .i true with pc := vector }
  | .pha =>
    let byte := m.regs.a
    m.push byte
  | .php =>
    let status := m.regs.pushedStatus
    m.push status
  | .pla =>
    let (byte, m) := m.pull
    m.mapRegs (·.loadA byte)
  | .plp =>
    let (status, m) := m.pull
    m.mapRegs fun r => { r with p := Registers.pulledStatus status }
  | .clc => m.mapRegs (·.setFlag .c false)
  | .sec => m.mapRegs (·.setFlag .c true)
  | .cli => m.mapRegs (·.setFlag .i false)
  | .sei => m.mapRegs (·.setFlag .i true)
  | .cld => m.mapRegs (·.setFlag .d false)
  | .sed => m.mapRegs (·.setFlag .d true)
  | .clv => m.mapRegs (·.setFlag .v false)
  | .tax => m.mapRegs fun r => r.loadX r.a
  | .tay => m.mapRegs fun r => r.loadY r.a
  | .txa => m.mapRegs fun r => r.loadA r.x
  | .tya => m.mapRegs fun r => r.loadA r.y
  | .tsx => m.mapRegs fun r => r.loadX r.sp
  | .txs => m.mapRegs fun r => { r with sp := r.x }
  | .nop => m

/-- Runs one instruction.  An opcode byte that is no instruction is a fault; the program counter has
then passed it. -/
def step (m : Machine) : Option MachineFault × Machine :=
  let pc := m.regs.pc
  let (byte, m) := m.fetch
  match decodeTable.get byte.toFin with
  | none => (some (.illegalOpcode byte pc), m)
  | some (op, mode) =>
    let (target, m) := m.operand mode
    (none, { m with steps := m.steps + 1 }.execute op target)

end Machine

end Codegen6502
