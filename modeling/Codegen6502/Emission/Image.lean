import Codegen6502.Emission.Symbols
import Codegen6502.Word

/-!
# Memory images

Machine code and data as they lie in memory, segment by segment, with the addresses of all symbols.
-/

namespace Codegen6502

structure SegmentImage where
  origin : UInt16
  bytes : List UInt8
  deriving DecidableEq

structure ImageSymbol where
  segment : Segment
  address : UInt16
  deriving DecidableEq

structure Image where
  common : SegmentImage
  /-- The banks by number. -/
  banks : Std.TreeMap UInt8 SegmentImage
  /-- The initial contents of writable memory. -/
  data : SegmentImage
  symbols : Std.TreeMap String ImageSymbol
  bankWindow : UInt16
  bankSelect : UInt16

namespace Image

/-- The address of a symbol. -/
def address? (i : Image) (name : String) : Option UInt16 := i.symbols[name]?.map (·.address)

def segment? (i : Image) (name : String) : Option Segment := i.symbols[name]?.map (·.segment)

/-! ### Binary-load files

The file is `$FFFF` followed by blocks: first address, last address and the bytes between.  Each
bank is preceded by a block of one byte that selects it.  Empty segments are left out.

The last address is computed in 32 bits, of which the length of a segment keeps the lower ones. -/

/-- The block of a segment. -/
def block (s : SegmentImage) : Compile (List UInt8) :=
  if s.bytes.isEmpty then .ok []
  else do
    let stop ← addLongs s.origin.toUInt32 (UInt32.ofNat s.bytes.length)
    let last ← subtractLongs stop 1
    if last ≤ 0xFFFF then .ok (wordBytes s.origin ++ wordBytes last.toUInt16 ++ s.bytes)
    else .error (.internal ("segment at $" ++ hexWord s.origin ++ " of " ++
      toString s.bytes.length ++ " bytes runs past $FFFF"))

/-- The blocks of a bank. -/
def bankBlocks (bankSelect : UInt16) (bank : UInt8 × SegmentImage) : Compile (List UInt8) :=
  if bank.2.bytes.isEmpty then .ok []
  else do return (← block ⟨bankSelect, [bank.1]⟩) ++ (← block bank.2)

/-- The file that loads the image. -/
def binaryLoad (i : Image) : Compile (List UInt8) := do
  let common ← block i.common
  let data ← block i.data
  let banks ← i.banks.toList.mapM (bankBlocks i.bankSelect)
  return [0xFF, 0xFF] ++ common ++ data ++ banks.flatten

end Image

/-! ### JSON form -/

namespace SegmentImage

def ofJson? (j : Json) : Option SegmentImage := do
  let r ← j.record? ["origin", "bytes"]
  return {
    origin := ← r.required "origin" Json.uint16?
    bytes := ← r.required "bytes" (Json.list? Json.uint8?) }

def toJson (s : SegmentImage) : Json :=
  .obj [("origin", .ofUInt16 s.origin), ("bytes", .ofBytes s.bytes)]

end SegmentImage

namespace ImageSymbol

def ofJson? (j : Json) : Option ImageSymbol := do
  let r ← j.record? ["segment", "address"]
  return {
    segment := ← r.required "segment" Segment.ofJson?
    address := ← r.required "address" Json.uint16? }

def toJson (s : ImageSymbol) : Json :=
  .obj [("segment", s.segment.toJson), ("address", .ofUInt16 s.address)]

end ImageSymbol

namespace Image

/-- A number below 256 in decimal digits, without a sign or leading zeros. -/
def bankNumber? (key : String) : Option UInt8 :=
  let digits := key.toList
  if digits.isEmpty || !digits.all Char.isDigit || (digits.head? = some '0' && key ≠ "0") then none
  else
    let n := digits.foldl (fun n c => 10 * n + (c.toNat - '0'.toNat)) 0
    if n < 0x100 then some (UInt8.ofNat n) else none

/-- The members of an object, each key read by one function and each value by another.  Of several
members with one key the last counts. -/
def members? {α β : Type} (key : String → Option α) (value : Json → Option β) :
    Json → Option (List (α × β))
  | .obj members => members.mapM fun (k, v) => do return (← key k, ← value v)
  | _ => none

def ofJson? (j : Json) : Option Image := do
  let r ← j.record? ["common", "banks", "data", "symbols", "bank_window", "bank_select"]
  return {
    common := ← r.required "common" SegmentImage.ofJson?
    banks := .ofList (← r.required "banks" (members? bankNumber? SegmentImage.ofJson?))
    data := ← r.required "data" SegmentImage.ofJson?
    symbols := .ofList (← r.required "symbols" (members? some ImageSymbol.ofJson?))
    bankWindow := ← r.required "bank_window" Json.uint16?
    bankSelect := ← r.required "bank_select" Json.uint16? }

def toJson (i : Image) : Json :=
  .obj [("common", i.common.toJson),
    ("banks", .obj (i.banks.toList.map fun (n, s) => (toString n.toNat, s.toJson))),
    ("data", i.data.toJson),
    ("symbols", .obj (i.symbols.toList.map fun (name, s) => (name, s.toJson))),
    ("bank_window", .ofUInt16 i.bankWindow), ("bank_select", .ofUInt16 i.bankSelect)]

end Image

end Codegen6502
