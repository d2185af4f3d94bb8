import Codegen6502.Allocation.Location

/-!
# Placing accesses

Every access to a virtual register is replaced by one to its location, and every access to a frame
byte by one that is indexed by the stack pointer in X.

Frame byte `o` is at `$0101 + SP + o`, with SP as the entry sequence left it.  Pushes move SP, so
after a `TSX` at push depth `d` it is at `$0101 + o + d,X`.
-/

namespace Codegen6502

namespace Allocation

/-- Where the stack pointer is known to be. -/
structure StackView where
  /-- The bytes pushed since the entry sequence. -/
  depth : Int := 0
  /-- The depth at which X was loaded from the stack pointer, while X still holds it. -/
  indexed : Option Int := none

/-- An access to a frame byte through X loaded at a push depth. -/
def frameAccess (opcode : Opcode) (offset : UInt8) (depth : Int) : Compile Line :=
  let address := 0x0101 + (offset.toNat : Int) + depth
  if 0x0100 ≤ address && address ≤ 0x01FF then
    .ok (.op opcode (.absoluteX (.absolute (UInt16.ofNat address.toNat))))
  else
    .error (.internal s!"frame byte {offset.toNat} at push depth {depth} falls outside the stack page")

/-- The view after a line that is kept as it is. -/
def StackView.after (view : StackView) (line : Line) : StackView :=
  match line with
  | .label _ => { view with indexed := none }
  | .comment _ => view
  | .op opcode _ =>
    let depth := match opcode with
      | .pha | .php => view.depth + 1
      | .pla | .plp => view.depth - 1
      | _ => view.depth
    { depth
      indexed :=
        if opcode = .tsx then some depth
        else if line.effects.writes.x then none
        else view.indexed }

/-- A function whose values have been placed. -/
structure Placement where
  function : String
  live : Liveness
  locations : Locations

namespace Placement

/-- An access to a virtual register; none where it disappears. -/
def access (p : Placement) (opcode : Opcode) (v : VReg) : Compile (Option Line) :=
  match p.locations[v.index]? with
  | none => .error (.internal ("'" ++ p.function ++ "': " ++ v.text ++ " was never allocated"))
  | some (.zeroPage cell) => .ok (some (.op opcode (.zeroPage cell)))
  | some (.stack offset) => .ok (some (.op opcode (.frame offset)))
  | some (.reg r) =>
    match r, opcode with
    | .a, .lda | .a, .sta => .ok none
    | .x, .sta => .ok (some (.bare .tax))
    | .x, .lda => .ok (some (.bare .txa))
    | .y, .sta => .ok (some (.bare .tay))
    | .y, .lda => .ok (some (.bare .tya))
    | _, _ =>
      .error (.internal ("'" ++ p.function ++ "': " ++ v.text ++ " in " ++ r.text ++ " used by " ++
        opcode.mnemonic))

/-- A line with its virtual register placed; none where it disappears. -/
def line (p : Placement) : Line → Compile (Option Line)
  | .op opcode (.virtual v) => p.access opcode v
  | line => .ok (some line)

/-- The code of an access to a frame byte at line `i`.  X is loaded from the stack pointer unless it
has been; where the access leaves flags alone that are still needed, they are saved around that. -/
def frameLines (p : Placement) (view : StackView) (i : Nat) (opcode : Opcode) (offset : UInt8) :
    Compile (List Line × StackView) := do
  match view.indexed with
  | some depth => return ([← frameAccess opcode offset depth], view)
  | none =>
    if (p.live.liveIn i).contains (.reg .x) then
      throw (.internal s!"'{p.function}': X is live across a frame access at instruction {i}")
    let keepsFlags := !(opcode.effects (.frame 0)).writesNZ && p.live.isLiveOut i .nz
    let depth := if keepsFlags then view.depth + 1 else view.depth
    let access ← frameAccess opcode offset depth
    let lines : List Line :=
      if keepsFlags then [.bare .php, .bare .tsx, access, .bare .plp] else [.bare .tsx, access]
    return (lines, { view with indexed := some depth })

/-- Places lines one after the other: `i` is the index of the next line, `pos` that of its code.
Calls move with their lines. -/
def place (p : Placement) (calls : Std.TreeMap Nat CallTarget) (view : StackView) (i pos : Nat) :
    List Line → Compile (List Line × List (Nat × CallTarget))
  | [] => .ok ([], [])
  | line :: rest => do
    match ← p.line line with
    | none => p.place calls view (i + 1) pos rest
    | some (.op opcode (.frame offset)) =>
      let (lines, view) ← p.frameLines view i opcode offset
      let (code, moved) ← p.place calls view (i + 1) (pos + lines.length) rest
      return (lines ++ code, moved)
    | some line =>
      let (code, moved) ← p.place calls (view.after line) (i + 1) (pos + 1) rest
      let call := match calls[i]? with
        | some target => [(pos, target)]
        | none => []
      return (line :: code, call ++ moved)

end Placement

end Allocation

end Codegen6502
