import Codegen6502.Emission.Image
import Codegen6502.Processor.Machine

/-!
# Loading images

A machine with the segments of an image in memory and its banks installed, which knows the symbols
of the image.
-/

namespace Codegen6502.Machine

/-- Loads an image into a fresh machine whose banks hold up to `capacity` bytes. -/
def ofImage (image : Image) (capacity : UInt16) : Except MachineFault Machine := do
  let m := create image.bankWindow capacity image.bankSelect
  let bus ← m.bus.load image.common.origin image.common.bytes
  let bus ← bus.load image.data.origin image.data.bytes
  let bus ← image.banks.toList.foldlM (fun (bus : Bus) (n, s) => bus.loadBank n s.bytes) bus
  return image.symbols.toList.foldl (fun m (name, s) => m.defineSymbol name s.address) { m with bus }

end Codegen6502.Machine
