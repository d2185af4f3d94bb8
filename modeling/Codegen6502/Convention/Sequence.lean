import Codegen6502.Asm.Line

/-!
# Entry and exit sequences

Code together with its net effect on the stack: the bytes that it pushes or reserves, less those
that it pulls or releases.
-/

namespace Codegen6502

/-- How a function hands back its result. -/
inductive ReturnKind where
  | void
  /-- In A. -/
  | byte
  /-- The low byte in A, the high byte in X. -/
  | word
  /-- Written through the hidden pointer in the first argument slots. -/
  | struct (size : UInt16)
  deriving DecidableEq

def ReturnKind.text : ReturnKind → String
  | .void => "void"
  | .byte => "A"
  | .word => "A/X"
  | .struct size => "sret[" ++ toString size.toNat ++ "]"

structure Sequence where
  code : List Line := []
  stackEffect : Int := 0
  deriving DecidableEq

namespace Sequence

/-- The bytes that a line pushes. -/
def pushedBy : Line → Int
  | .op .pha _ | .op .php _ => 1
  | .op .pla _ | .op .plp _ => -1
  | _ => 0

/-- Code whose only effect on the stack is that of its pushes and pulls. -/
def ofLines (code : List Line) : Sequence := ⟨code, code.foldr (fun line n => pushedBy line + n) 0⟩

def append (s t : Sequence) : Sequence := ⟨s.code ++ t.code, s.stackEffect + t.stackEffect⟩

instance : Append Sequence := ⟨append⟩

/-! ### Frames

A frame is a block of bytes under the return address.  Frame byte `o` is at `$0101 + SP + o`. -/

/-- Moves the stack pointer by adding or subtracting a constant. -/
def moveSP (flag : Opcode) (op : Opcode) (n : UInt8) : List Line :=
  [.bare .tsx, .bare .txa, .bare flag, .op op (.byte n), .bare .tax, .bare .txs]

/-- Reserves `n` bytes. -/
def reserve (n : UInt8) : Sequence :=
  if n = 0 then {} else ⟨moveSP .sec .sbc n, n.toNat⟩

/-- Releases `n` bytes; A and X are lost. -/
def release (n : UInt8) : Sequence :=
  if n = 0 then {} else ⟨moveSP .clc .adc n, -(n.toNat : Int)⟩

/-- Releases `n` bytes and returns, the result registers kept.  The high byte of a word waits in the
topmost frame byte. -/
def releaseAndReturn (n : UInt8) (kind : ReturnKind) : Sequence :=
  if n = 0 then ofLines [.bare .rts]
  else match kind with
    | .void | .struct _ => release n ++ ofLines [.bare .rts]
    | .byte => ofLines [.bare .tay] ++ release n ++ ofLines [.bare .tya, .bare .rts]
    | .word =>
      ofLines [.bare .tay, .bare .txa, .bare .tsx,
        .op .sta (.absoluteX (.absolute (0x0100 + n.toUInt16)))] ++
      release (n - 1) ++
      ofLines [.bare .pla, .bare .tax, .bare .tya, .bare .rts]

end Sequence

end Codegen6502
