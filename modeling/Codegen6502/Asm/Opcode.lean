import Codegen6502.Json.Decode

/-!
# Mnemonics

The documented instruction set of the processor.
-/

namespace Codegen6502

inductive Opcode where
  | adc | and | asl | bcc | bcs | beq | bit | bmi | bne | bpl | brk | bvc | bvs | clc
  | cld | cli | clv | cmp | cpx | cpy | dec | dex | dey | eor | inc | inx | iny | jmp
  | jsr | lda | ldx | ldy | lsr | nop | ora | pha | php | pla | plp | rol | ror | rti
  | rts | sbc | sec | sed | sei | sta | stx | sty | tax | tay | tsx | txa | txs | tya
  deriving DecidableEq

namespace Opcode

/-- All mnemonics in alphabetical order. -/
def all : List Opcode :=
  [.adc, .and, .asl, .bcc, .bcs, .beq, .bit, .bmi, .bne, .bpl, .brk, .bvc,
    .bvs, .clc, .cld, .cli, .clv, .cmp, .cpx, .cpy, .dec, .dex, .dey, .eor,
    .inc, .inx, .iny, .jmp, .jsr, .lda, .ldx, .ldy, .lsr, .nop, .ora, .pha,
    .php, .pla, .plp, .rol, .ror, .rti, .rts, .sbc, .sec, .sed, .sei, .sta,
    .stx, .sty, .tax, .tay, .tsx, .txa, .txs, .tya]

def mnemonic : Opcode → String
  | .adc => "ADC"
  | .and => "AND"
  | .asl => "ASL"
  | .bcc => "BCC"
  | .bcs => "BCS"
  | .beq => "BEQ"
  | .bit => "BIT"
  | .bmi => "BMI"
  | .bne => "BNE"
  | .bpl => "BPL"
  | .brk => "BRK"
  | .bvc => "BVC"
  | .bvs => "BVS"
  | .clc => "CLC"
  | .cld => "CLD"
  | .cli => "CLI"
  | .clv => "CLV"
  | .cmp => "CMP"
  | .cpx => "CPX"
  | .cpy => "CPY"
  | .dec => "DEC"
  | .dex => "DEX"
  | .dey => "DEY"
  | .eor => "EOR"
  | .inc => "INC"
  | .inx => "INX"
  | .iny => "INY"
  | .jmp => "JMP"
  | .jsr => "JSR"
  | .lda => "LDA"
  | .ldx => "LDX"
  | .ldy => "LDY"
  | .lsr => "LSR"
  | .nop => "NOP"
  | .ora => "ORA"
  | .pha => "PHA"
  | .php => "PHP"
  | .pla => "PLA"
  | .plp => "PLP"
  | .rol => "ROL"
  | .ror => "ROR"
  | .rti => "RTI"
  | .rts => "RTS"
  | .sbc => "SBC"
  | .sec => "SEC"
  | .sed => "SED"
  | .sei => "SEI"
  | .sta => "STA"
  | .stx => "STX"
  | .sty => "STY"
  | .tax => "TAX"
  | .tay => "TAY"
  | .tsx => "TSX"
  | .txa => "TXA"
  | .txs => "TXS"
  | .tya => "TYA"

def isBranch : Opcode → Bool
  | .bcc | .bcs | .beq | .bmi | .bne | .bpl | .bvc | .bvs => true
  | _ => false

/-- The branch on the opposite condition. -/
def inverted? : Opcode → Option Opcode
  | .bcc => some .bcs
  | .bcs => some .bcc
  | .beq => some .bne
  | .bne => some .beq
  | .bmi => some .bpl
  | .bpl => some .bmi
  | .bvc => some .bvs
  | .bvs => some .bvc
  | _ => none

/-- Whether control never goes on to the next instruction. -/
def endsBlock : Opcode → Bool
  | .jmp | .rts | .rti | .brk => true
  | _ => false

/-- Whether the instruction reads a byte, changes it and writes it back. -/
def isReadModifyWrite : Opcode → Bool
  | .asl | .lsr | .rol | .ror | .inc | .dec => true
  | _ => false

/-- Whether the instruction reads its memory operand. -/
def readsMemory : Opcode → Bool
  | .adc | .and | .bit | .cmp | .cpx | .cpy | .eor | .lda | .ldx | .ldy | .ora | .sbc => true
  | op => op.isReadModifyWrite

/-- Whether the instruction writes its memory operand. -/
def writesMemory : Opcode → Bool
  | .sta | .stx | .sty => true
  | op => op.isReadModifyWrite

/-! ### JSON form -/

/-- The mnemonic with only its first letter in upper case. -/
def tag (op : Opcode) : String :=
  match op.mnemonic.toList with
  | first :: rest => String.ofList (first :: rest.map Char.toLower)
  | [] => ""

def ofJson? (j : Json) : Option Opcode := do
  let c ← j.case?
  let op ← all.find? fun op => op.tag = c.tag
  c.bare op

def toJson (op : Opcode) : Json := .str op.tag

end Opcode

end Codegen6502
