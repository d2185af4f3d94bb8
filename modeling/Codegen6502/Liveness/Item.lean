import Codegen6502.Asm.Effects

/-!
# Live items

The things whose liveness is tracked: the registers, the flags N and Z together, the carry flag and
the virtual registers.  Sets of items are lists in ascending order without repetition, so that equal
sets are equal lists.
-/

namespace Codegen6502

inductive Item where
  | reg (r : Register)
  /-- The flags N and Z. -/
  | nz
  | carry
  | vreg (v : VReg)
  deriving DecidableEq

namespace Item

/-- The position in the order A, X, Y, NZ, C, then the virtual registers by number. -/
def rank : Item → Nat
  | .reg .a => 0
  | .reg .x => 1
  | .reg .y => 2
  | .nz => 3
  | .carry => 4
  | .vreg v => 5 + v.index.toNat

def text : Item → String
  | .reg r => r.text
  | .nz => "NZ"
  | .carry => "C"
  | .vreg v => v.text

def vreg? : Item → Option VReg
  | .vreg v => some v
  | _ => none

end Item

/-- A set of items, in ascending order. -/
structure LiveSet where
  items : List Item := []
  deriving DecidableEq

namespace LiveSet

def empty : LiveSet := {}

def contains (s : LiveSet) (item : Item) : Bool := s.items.contains item

/-- Merges two ascending lists; what both have is kept once. -/
def merge : List Item → List Item → List Item
  | [], ys => ys
  | xs, [] => xs
  | x :: xs, y :: ys =>
    if x = y then x :: merge xs ys
    else if x.rank < y.rank then x :: merge xs (y :: ys)
    else y :: merge (x :: xs) ys
termination_by xs ys => xs.length + ys.length

def union (s t : LiveSet) : LiveSet := ⟨merge s.items t.items⟩

/-- The items of `s` that are not in `t`. -/
def diff (s t : LiveSet) : LiveSet := ⟨s.items.filter fun item => !t.contains item⟩

def ofRegs (regs : RegSet) : LiveSet := ⟨regs.toList.map .reg⟩

/-- The virtual registers of the set, in ascending order. -/
def vregs (s : LiveSet) : List VReg := s.items.filterMap Item.vreg?

end LiveSet

end Codegen6502
