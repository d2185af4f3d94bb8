/-!
# Sets of zero-page cells

A set of bytes is a word of 256 bits, so that union is bitwise or and equal sets are equal words.
-/

namespace Codegen6502

structure CellSet where
  bits : BitVec 256
  deriving DecidableEq

namespace CellSet

def empty : CellSet := ⟨0⟩

def contains (s : CellSet) (cell : UInt8) : Bool := s.bits.getLsbD cell.toNat

def insert (s : CellSet) (cell : UInt8) : CellSet := ⟨s.bits ||| BitVec.twoPow 256 cell.toNat⟩

def union (s t : CellSet) : CellSet := ⟨s.bits ||| t.bits⟩

def ofList (cells : List UInt8) : CellSet := cells.foldl insert empty

/-- All bytes in ascending order. -/
def everyByte : List UInt8 := (List.range 256).map UInt8.ofNat

/-- The cells of the set in ascending order. -/
def toList (s : CellSet) : List UInt8 := everyByte.filter s.contains

def isEmpty (s : CellSet) : Bool := s.bits = 0

end CellSet

end Codegen6502
