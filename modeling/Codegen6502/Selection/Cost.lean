import Codegen6502.Asm.Encoding

/-!
# Costs of candidate sequences

A sequence with fewer instructions is cheaper; ties are broken by the cycles, then by the accesses
to zero-page cells and virtual registers.
-/

namespace Codegen6502

structure Cost where
  instructions : Nat := 0
  cycles : Nat := 0
  zeroPageAccesses : Nat := 0
  deriving DecidableEq

namespace Cost

/-- Whether the first cost is strictly smaller, field by field. -/
def less (c d : Cost) : Bool :=
  c.instructions < d.instructions ||
    (c.instructions = d.instructions &&
      (c.cycles < d.cycles || (c.cycles = d.cycles && c.zeroPageAccesses < d.zeroPageAccesses)))

def add (c d : Cost) : Cost :=
  ⟨c.instructions + d.instructions, c.cycles + d.cycles, c.zeroPageAccesses + d.zeroPageAccesses⟩

/-- Whether an operand is a zero-page cell, a virtual register or a pointer in the zero page. -/
def touchesZeroPage : Operand → Bool
  | .virtual _ | .zeroPage _ | .indirectY _ => true
  | _ => false

def ofLine : Line → Cost
  | .op opcode operand =>
    ⟨1, (Line.op opcode operand).cycles, if touchesZeroPage operand then 1 else 0⟩
  | _ => {}

def ofCode (code : List Line) : Cost := code.foldl (fun c line => c.add (ofLine line)) {}

/-- The first of the cheapest elements. -/
def cheapest? (cost : α → Cost) : List α → Option α
  | [] => none
  | a :: rest => some (rest.foldl (fun best b => if (cost b).less (cost best) then b else best) a)

end Cost

end Codegen6502
