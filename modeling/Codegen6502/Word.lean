/-!
# Words of two bytes

The processor keeps words with the low byte first.
-/

namespace Codegen6502

/-- The word made of a low and a high byte. -/
def word (lo hi : UInt8) : UInt16 := hi.toUInt16 <<< 8 ||| lo.toUInt16

/-- The low byte of a word. -/
def lowByte (w : UInt16) : UInt8 := w.toUInt8

/-- The high byte of a word. -/
def highByte (w : UInt16) : UInt8 := (w >>> 8).toUInt8

/-- The bytes of a word as they stand in memory. -/
def wordBytes (w : UInt16) : List UInt8 := [lowByte w, highByte w]

end Codegen6502
