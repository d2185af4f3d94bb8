import Codegen6502.Asm.Line

/-!
# Encoding, size and time

The opcode byte of each mnemonic in each addressing mode, the length of an instruction and its base
cycle count, without the penalties for taken branches and crossed pages.
-/

namespace Codegen6502

/-- The addressing mode of an encoded instruction. -/
inductive Mode where
  | implied | accumulator | immediate | zeroPage | absolute | absoluteX | absoluteY | indirectY
  | indirect | relative
  deriving DecidableEq

namespace Mode

def all : List Mode :=
  [.implied, .accumulator, .immediate, .zeroPage, .absolute, .absoluteX, .absoluteY, .indirectY,
    .indirect, .relative]

def text : Mode → String
  | .implied => "Implied"
  | .accumulator => "Accumulator"
  | .immediate => "Immediate"
  | .zeroPage => "ZeroPage"
  | .absolute => "Absolute"
  | .absoluteX => "AbsoluteX"
  | .absoluteY => "AbsoluteY"
  | .indirectY => "IndirectY"
  | .indirect => "Indirect"
  | .relative => "Relative"

/-- The length of an instruction, its opcode byte included. -/
def length : Mode → UInt16
  | .implied | .accumulator => 1
  | .immediate | .zeroPage | .indirectY | .relative => 2
  | .absolute | .absoluteX | .absoluteY | .indirect => 3

end Mode

/-- The mode that an operand is encoded in.  A virtual register counts as a zero-page cell and a
frame byte as an indexed address, which is what allocation makes of them. -/
def Operand.mode : Operand → Mode
  | .implied => .implied
  | .accumulator => .accumulator
  | .immediate _ => .immediate
  | .zeroPage _ | .virtual _ => .zeroPage
  | .absolute _ => .absolute
  | .absoluteX _ | .frame _ => .absoluteX
  | .absoluteY _ => .absoluteY
  | .indirectY _ => .indirectY
  | .indirect _ => .indirect
  | .relative _ => .relative

namespace Opcode

/-- The row of an instruction that computes with the accumulator. -/
def computing (imm zp abs absX absY indY : UInt8) : Mode → Option UInt8
  | .immediate => some imm
  | .zeroPage => some zp
  | .absolute => some abs
  | .absoluteX => some absX
  | .absoluteY => some absY
  | .indirectY => some indY
  | _ => none

/-- The row of a shift or rotation. -/
def shifting (acc zp abs absX : UInt8) : Mode → Option UInt8
  | .accumulator => some acc
  | .zeroPage => some zp
  | .absolute => some abs
  | .absoluteX => some absX
  | _ => none

/-- The row of an instruction without operand. -/
def operandless (byte : UInt8) : Mode → Option UInt8
  | .implied => some byte
  | _ => none

/-- The row of a branch. -/
def branching (byte : UInt8) : Mode → Option UInt8
  | .relative => some byte
  | _ => none

/-- The row of an index register comparison. -/
def comparing (imm zp abs : UInt8) : Mode → Option UInt8
  | .immediate => some imm
  | .zeroPage => some zp
  | .absolute => some abs
  | _ => none

/-- The row of an instruction on a plain memory location. -/
def direct (zp abs : UInt8) : Mode → Option UInt8
  | .zeroPage => some zp
  | .absolute => some abs
  | _ => none

/-- The row of an increment or decrement of memory. -/
def counting (zp abs absX : UInt8) : Mode → Option UInt8
  | .zeroPage => some zp
  | .absolute => some abs
  | .absoluteX => some absX
  | _ => none

/-- The opcode byte in a mode, if the processor has the combination. -/
def encode : Opcode → Mode → Option UInt8
  | .adc => computing 0x69 0x65 0x6D 0x7D 0x79 0x71
  | .and => computing 0x29 0x25 0x2D 0x3D 0x39 0x31
  | .cmp => computing 0xC9 0xC5 0xCD 0xDD 0xD9 0xD1
  | .eor => computing 0x49 0x45 0x4D 0x5D 0x59 0x51
  | .lda => computing 0xA9 0xA5 0xAD 0xBD 0xB9 0xB1
  | .ora => computing 0x09 0x05 0x0D 0x1D 0x19 0x11
  | .sbc => computing 0xE9 0xE5 0xED 0xFD 0xF9 0xF1
  | .sta => fun
    | .zeroPage => some 0x85
    | .absolute => some 0x8D
    | .absoluteX => some 0x9D
    | .absoluteY => some 0x99
    | .indirectY => some 0x91
    | _ => none
  | .asl => shifting 0x0A 0x06 0x0E 0x1E
  | .lsr => shifting 0x4A 0x46 0x4E 0x5E
  | .rol => shifting 0x2A 0x26 0x2E 0x3E
  | .ror => shifting 0x6A 0x66 0x6E 0x7E
  | .inc => counting 0xE6 0xEE 0xFE
  | .dec => counting 0xC6 0xCE 0xDE
  | .bit => direct 0x24 0x2C
  | .cpx => comparing 0xE0 0xE4 0xEC
  | .cpy => comparing 0xC0 0xC4 0xCC
  | .ldx => fun
    | .immediate => some 0xA2
    | .zeroPage => some 0xA6
    | .absolute => some 0xAE
    | .absoluteY => some 0xBE
    | _ => none
  | .ldy => fun
    | .immediate => some 0xA0
    | .zeroPage => some 0xA4
    | .absolute => some 0xAC
    | .absoluteX => some 0xBC
    | _ => none
  | .stx => direct 0x86 0x8E
  | .sty => direct 0x84 0x8C
  | .jmp => fun
    | .absolute => some 0x4C
    | .indirect => some 0x6C
    | _ => none
  | .jsr => fun
    | .absolute => some 0x20
    | _ => none
  | .bcc => branching 0x90
  | .bcs => branching 0xB0
  | .beq => branching 0xF0
  | .bmi => branching 0x30
  | .bne => branching 0xD0
  | .bpl => branching 0x10
  | .bvc => branching 0x50
  | .bvs => branching 0x70
  | .brk => operandless 0x00
  | .clc => operandless 0x18
  | .cld => operandless 0xD8
  | .cli => operandless 0x58
  | .clv => operandless 0xB8
  | .dex => operandless 0xCA
  | .dey => operandless 0x88
  | .inx => operandless 0xE8
  | .iny => operandless 0xC8
  | .nop => operandless 0xEA
  | .pha => operandless 0x48
  | .php => operandless 0x08
  | .pla => operandless 0x68
  | .plp => operandless 0x28
  | .rti => operandless 0x40
  | .rts => operandless 0x60
  | .sec => operandless 0x38
  | .sed => operandless 0xF8
  | .sei => operandless 0x78
  | .tax => operandless 0xAA
  | .tay => operandless 0xA8
  | .tsx => operandless 0xBA
  | .txa => operandless 0x8A
  | .txs => operandless 0x9A
  | .tya => operandless 0x98

/-- The base cycle count in a mode. -/
def cycles (op : Opcode) (mode : Mode) : Nat :=
  match op with
  | .jsr | .rts | .rti => 6
  | .brk => 7
  | .pha | .php => 3
  | .pla | .plp => 4
  | .jmp => if mode = .indirect then 5 else 3
  | .asl | .lsr | .rol | .ror | .inc | .dec =>
    match mode with
    | .accumulator => 2
    | .zeroPage => 5
    | .absolute => 6
    | _ => 7
  | .sta =>
    match mode with
    | .zeroPage => 3
    | .absolute => 4
    | .absoluteX | .absoluteY => 5
    | .indirectY => 6
    | _ => 4
  | _ =>
    match mode with
    | .implied | .accumulator | .immediate | .relative => 2
    | .zeroPage => 3
    | .absolute | .absoluteX | .absoluteY => 4
    | .indirectY | .indirect => 5

end Opcode

namespace Line

/-- The encoded size in bytes. -/
def size : Line → UInt16
  | .op _ operand => operand.mode.length
  | _ => 0

/-- The base cycle count. -/
def cycles : Line → Nat
  | .op opcode operand => opcode.cycles operand.mode
  | _ => 0

end Line

end Codegen6502
