import Codegen6502.Clobbers
import Codegen6502.Naming

/-!
# Support routines

Hand-written routines in the common area: the way into each bank that is called, the way back, and
the pair that captures and restores the state of a computation.

The bank register and its copy in the zero page are written with interrupts masked, so that a
handler never sees the two disagree.
-/

namespace Codegen6502

inductive Routine where
  /-- Entry into a bank; the address of the callee minus one comes in A (low) and X (high). -/
  | trampoline (bank : UInt8)
  /-- Restores the caller's bank after a call through a trampoline. -/
  | trampolineReturn
  | setJmp
  | longJmp
  deriving DecidableEq

namespace Routine

def name : Routine → String
  | .trampoline bank => Naming.trampoline bank
  | .trampolineReturn => Naming.trampolineReturn
  | .setJmp => Naming.setJmp
  | .longJmp => Naming.longJmp

/-- The order of routines in the emitted code: trampolines by bank, then the others. -/
def rank : Routine → Nat
  | .trampoline bank => bank.toNat
  | .trampolineReturn => 256
  | .setJmp => 257
  | .longJmp => 258

/-- The routines that this one goes to. -/
def dependencies : Routine → List Routine
  | .trampoline _ => [.trampolineReturn]
  | _ => []

/-- The bytes of the stack above the stack pointer, indexed by X. -/
def stackByte (address : UInt16) : Operand := .absoluteX (.absolute address)

/-- Writes A to the copy of the bank register and to the register itself, interrupts masked. -/
def selectBank (z : ZeroPage) (bankSelect : UInt16) (load : List Line) : List Line :=
  [Line.bare .php, .bare .sei] ++ load ++
    [Line.op .sta (.zeroPage z.bankShadow), .op .sta (.fixed bankSelect), .bare .plp]

/-- Pushes the caller's bank, the way back and the callee, selects the bank and "returns" to the
callee. -/
def trampolineCode (z : ZeroPage) (bankSelect : UInt16) (bank : UInt8) : List Line :=
  [Line.bare .tay,
    .op .lda (.zeroPage z.bankShadow), .bare .pha,
    .op .lda (.symbolByte Naming.trampolineReturn (-1) .hi), .bare .pha,
    .op .lda (.symbolByte Naming.trampolineReturn (-1) .lo), .bare .pha,
    .bare .txa, .bare .pha,
    .bare .tya, .bare .pha] ++
  selectBank z bankSelect [.op .lda (.byte bank)] ++
  [Line.bare .rts]

/-- Selects the bank on top of the stack and returns, the result registers kept. -/
def trampolineReturnCode (z : ZeroPage) (bankSelect : UInt16) : List Line :=
  [Line.bare .tay, .bare .pla] ++ selectBank z bankSelect [] ++ [Line.bare .tya, .bare .rts]

/-- Stores registers, stack pointer, return address and bank in the buffer. -/
def setJmpCode (z : ZeroPage) : List Line :=
  let buffer := Operand.indirectY (z.arg 0)
  let offset := JumpBuffer.offsets
  [.bare .pha,
    .bare .tya, .op .ldy (.byte offset.y), .op .sta buffer,
    .bare .txa, .bare .dey, .op .sta buffer,
    .bare .pla, .bare .dey, .op .sta buffer,
    .bare .tsx, .bare .txa, .op .ldy (.byte offset.sp), .op .sta buffer,
    .op .lda (stackByte 0x0101), .bare .iny, .op .sta buffer,
    .op .lda (stackByte 0x0102), .bare .iny, .op .sta buffer,
    .op .lda (.zeroPage z.bankShadow), .op .ldy (.byte offset.bank), .op .sta buffer,
    .op .lda (.byte 0), .bare .tax, .bare .rts]

/-- Restores what the buffer holds and returns there with a value other than zero. -/
def longJmpCode (z : ZeroPage) (bankSelect : UInt16) : List Line :=
  let buffer := Operand.indirectY (z.arg 0)
  let offset := JumpBuffer.offsets
  let nonzero := Naming.longJmp ++ "_nz"
  [Line.op .ldy (.byte offset.sp), .op .lda buffer, .bare .tax, .bare .txs,
    .bare .iny, .op .lda buffer, .op .sta (stackByte 0x0101),
    .bare .iny, .op .lda buffer, .op .sta (stackByte 0x0102),
    .op .ldy (.byte offset.bank), .op .lda buffer] ++
  selectBank z bankSelect [] ++
  [Line.op .ldy (.byte offset.y), .op .lda buffer, .bare .tay,
    .op .lda (.zeroPage (z.arg 2)), .branch .bne nonzero, .op .lda (.byte 1), .label nonzero,
    .op .ldx (.byte 0), .bare .rts]

/-- The code of a routine, its label included. -/
def code (r : Routine) (z : ZeroPage) (bankSelect : UInt16) : List Line :=
  .label r.name ::
    match r with
    | .trampoline bank => trampolineCode z bankSelect bank
    | .trampolineReturn => trampolineReturnCode z bankSelect
    | .setJmp => setJmpCode z
    | .longJmp => longJmpCode z bankSelect

/-- Everything that the routine writes. -/
def clobbers (r : Routine) (z : ZeroPage) (bankSelect : UInt16) : Clobbers :=
  .writtenBy (r.code z bankSelect)

/-! ### JSON form -/

def ofJson? (j : Json) : Option Routine := do
  let c ← j.case?
  match c.tag with
  | "Trampoline" => c.carrying fun d => d.uint8?.map .trampoline
  | "TrampolineReturn" => c.bare .trampolineReturn
  | "SetJmp" => c.bare .setJmp
  | "LongJmp" => c.bare .longJmp
  | _ => none

def toJson : Routine → Json
  | .trampoline bank => .tagged "Trampoline" (.ofUInt8 bank)
  | .trampolineReturn => .str "TrampolineReturn"
  | .setJmp => .str "SetJmp"
  | .longJmp => .str "LongJmp"

/-! ### Sets of routines -/

/-- Routines in order and without repetition. -/
def sorted (routines : List Routine) : List Routine :=
  (routines.mergeSort fun r s => r.rank ≤ s.rank).eraseReps

/-- A set of routines with everything they go to. -/
def withDependencies (routines : List Routine) : List Routine :=
  sorted (routines.flatMap fun r => r :: r.dependencies)

end Routine

end Codegen6502
