import Codegen6502.Json.Decode

/-!
# Bit-fields

A bit-field lies inside one byte.  Fields are laid out from the least significant bit up; one that
does not fit into the rest of the current byte starts the next byte.
-/

namespace Codegen6502

structure BitField where
  byteOffset : UInt16
  bitOffset : UInt8
  width : UInt8
  deriving DecidableEq

namespace BitField

/-- The mask of the field moved down to bit 0. -/
def mask (f : BitField) : UInt8 :=
  if f.width ≥ 8 then 0xFF else ((1 <<< f.width.toUInt16) - 1 : UInt16).toUInt8

/-- The mask of the field where it stands. -/
def maskInPlace (f : BitField) : UInt8 := f.mask <<< f.bitOffset

/-- The value of the field in a byte. -/
def extract (f : BitField) (byte : UInt8) : UInt8 := (byte >>> f.bitOffset) &&& f.mask

/-- The byte with a new value in the field and all other bits kept. -/
def insert (f : BitField) (byte value : UInt8) : UInt8 :=
  (byte &&& ~~~f.maskInPlace) ||| ((value &&& f.mask) <<< f.bitOffset)

/-! ### Layout -/

/-- The fields placed so far, last first, and the next free bit. -/
structure Packing where
  placed : List BitField := []
  byte : UInt16 := 0
  bit : UInt8 := 0

/-- Why a sequence of widths has no layout. -/
inductive LayoutError where
  | tooWide (width : UInt8)
  /-- The number of bytes is no word. -/
  | tooLong
  deriving DecidableEq

def LayoutError.message : LayoutError → String
  | .tooWide width => s!"bit-field width {width.toNat} exceeds one byte"
  | .tooLong => "attempt to add with overflow"

/-- The next byte, no bit of it taken. -/
def Packing.close (p : Packing) : Except LayoutError Packing :=
  if p.byte = 0xFFFF then .error .tooLong else .ok { p with byte := p.byte + 1, bit := 0 }

/-- Puts a field behind the bits that are taken. -/
def Packing.push (p : Packing) (width : UInt8) : Packing :=
  ⟨⟨p.byte, p.bit, width⟩ :: p.placed, p.byte, p.bit + width⟩

/-- Places one width.  Width zero closes a byte that has begun. -/
def Packing.place (p : Packing) (width : UInt8) : Except LayoutError Packing :=
  if width > 8 then .error (.tooWide width)
  else if width = 0 then
    if p.bit > 0 then p.close else .ok p
  else if p.bit + width > 8 then p.close.map (·.push width)
  else .ok (p.push width)

/-- Lays out a sequence of widths. -/
def layout (widths : List UInt8) : Except LayoutError (List BitField) :=
  (widths.foldlM Packing.place {}).map fun p => p.placed.reverse

/-! ### JSON form -/

def ofJson? (j : Json) : Option BitField := do
  let r ← j.record? ["byte_offset", "bit_offset", "width"]
  return {
    byteOffset := ← r.required "byte_offset" Json.uint16?
    bitOffset := ← r.required "bit_offset" Json.uint8?
    width := ← r.required "width" Json.uint8? }

def toJson (f : BitField) : Json :=
  .obj [("byte_offset", .ofUInt16 f.byteOffset), ("bit_offset", .ofUInt8 f.bitOffset),
    ("width", .ofUInt8 f.width)]

end BitField

end Codegen6502
