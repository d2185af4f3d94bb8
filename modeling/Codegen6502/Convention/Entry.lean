import Codegen6502.Convention.Binding
import Codegen6502.Convention.SaveScheme

/-!
# Entry and exit of functions

The entry sequence is the function's label, what an interrupt handler saves, and the frame.  The
exit sequence undoes it and returns.
-/

namespace Codegen6502.Convention

/-- What an interrupt handler must save: what its body overwrites, and what the sequences themselves
use (A and X to set up a frame, A to copy cells). -/
def interruptSaves (body : Clobbers) (frameBytes : UInt8) : Clobbers :=
  let s := if frameBytes > 0 then (body.insertReg .a).insertReg .x else body
  if s.cells.isEmpty then s else s.insertReg .a

def prologue (b : Binding) (frameBytes : UInt8) (saves : Clobbers) : Sequence :=
  let label := Sequence.ofLines [.label b.name]
  match b.entry with
  | .subroutine => label ++ .reserve frameBytes
  | .interrupt => label ++ (SaveScheme.inArea b.name saves).prologue ++ .reserve frameBytes
  | .nestedInterrupt =>
    label ++ (SaveScheme.onStack saves).prologue ++ .reserve frameBytes ++ .ofLines [.bare .cli]

def epilogue (b : Binding) (frameBytes : UInt8) (saves : Clobbers) : Sequence :=
  match b.entry with
  | .subroutine => .releaseAndReturn frameBytes b.returnKind
  | .interrupt => .release frameBytes ++ (SaveScheme.inArea b.name saves).epilogue
  | .nestedInterrupt =>
    .ofLines [.bare .sei] ++ .release frameBytes ++ (SaveScheme.onStack saves).epilogue

/-- The size of the save area that the function needs. -/
def saveAreaSize (b : Binding) (saves : Clobbers) : UInt16 :=
  match b.entry with
  | .interrupt => UInt16.ofNat (SaveScheme.inArea b.name saves).areaSize
  | _ => 0

end Codegen6502.Convention
