import Codegen6502.Emission.Layout

/-!
# Long branches

A branch reaches 128 bytes back and 127 bytes on, counted from its end, within its own segment.  A
branch to anywhere else becomes the opposite branch over a jump:

```text
BEQ far        BNE *+5
         =>    JMP far
```

That takes more room, which may put other branches out of reach.  Branches are made long until all
short ones reach their targets.
-/

namespace Codegen6502

namespace Relaxation

/-- Whether a short branch at an offset reaches a place in its own segment. -/
def reaches (offset : Nat) (target : UInt16) : Bool :=
  let distance : Int := target.toNat - (offset + 2)
  distance ≥ -128 && distance ≤ 127

/-- Whether a line is a branch whose target is out of reach.  An undefined target is not: it is
reported later. -/
def isOutOfReach (table : SymbolTable) (p : PlacedLine) : Bool :=
  match p.line with
  | .op opcode (.relative label) =>
    opcode.isBranch &&
      match table.get? label with
      | some d => d.segment ≠ p.segment || !reaches p.offset d.offset
      | none => false
  | _ => false

/-- The long branches after one more pass: those that were, and those out of reach. -/
def extend (layout : Layout) : List Bool :=
  layout.lines.map fun p => p.isLong || isOutOfReach layout.table p

/-- Repeats passes until no branch becomes long. -/
def settle (e : Emission) : Nat → List Bool → Compile Layout
  | 0, long => Layout.make Layout.banked e long
  | bound + 1, long => do
    let layout ← Layout.make Layout.banked e long
    let next := extend layout
    if next = long then return layout else settle e bound next

/-- Whether a line is a conditional branch. -/
def isBranch (line : Line) : Bool :=
  match line with
  | .op opcode (.relative _) => opcode.isBranch
  | _ => false

/-- The layout in which every short branch reaches its target.  Every pass but the last makes a
branch long, which bounds the passes. -/
def layout (e : Emission) : Compile Layout :=
  settle e (e.lines.countP fun l => isBranch l.2) (e.lines.map fun _ => false)

end Relaxation

end Codegen6502
