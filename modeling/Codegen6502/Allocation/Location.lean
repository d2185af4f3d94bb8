import Codegen6502.Liveness.Basic

/-!
# Locations

Where a virtual register lives after allocation.
-/

namespace Codegen6502

inductive Location where
  | reg (r : Register)
  | zeroPage (cell : UInt8)
  /-- A byte of the stack frame. -/
  | stack (offset : UInt8)
  deriving DecidableEq

namespace Location

def text : Location → String
  | .reg r => r.text
  | .zeroPage cell => "$" ++ hexByte cell
  | .stack offset => "frame+" ++ toString offset.toNat

def cell? : Location → Option UInt8
  | .zeroPage cell => some cell
  | _ => none

def isReg : Location → Bool
  | .reg _ => true
  | _ => false

def isZeroPage : Location → Bool
  | .zeroPage _ => true
  | _ => false

def isStack : Location → Bool
  | .stack _ => true
  | _ => false

end Location

/-- The locations of virtual registers by number. -/
abbrev Locations := Std.TreeMap UInt32 Location

end Codegen6502
