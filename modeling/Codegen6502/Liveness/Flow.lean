import Codegen6502.Liveness.Item
import Codegen6502.Selection.Draft
import Codegen6502.Total
import Std.Data.TreeMap

/-!
# Control flow of selected code

What each line uses and defines, and which lines may run after it.  The index just past the code
stands for the exit sequence.

In a function that captures a state to return to, a call that runs after the capture may come back
there, so it has the line after the capture as a further successor.
-/

namespace Codegen6502

/-! ### Uses and definitions -/

/-- The items that are in the set for a yes. -/
private def flagItems (nz carry : Bool) : List Item :=
  (if nz then [Item.nz] else []) ++ (if carry then [Item.carry] else [])

/-- The registers in which a call takes arguments. -/
def CallTarget.argumentRegs : Option CallTarget → RegSet
  | some (.fixed ..) => .all
  | some (.trampoline ..) => { a := true, x := true }
  | _ => {}

/-- The items that a line reads. -/
def Line.uses (line : Line) (call? : Option CallTarget) : LiveSet :=
  match line with
  | .op .jsr _ => .ofRegs (CallTarget.argumentRegs call?)
  | .op opcode operand =>
    let e := line.effects
    let reads := match operand with
      | .virtual v => if opcode.readsMemory then [.vreg v] else []
      | _ => []
    ⟨e.reads.toList.map .reg ++ flagItems e.readsNZ e.readsCarry ++ reads⟩
  | _ => {}

/-- The items that a line overwrites.  Nothing but virtual registers survives a call. -/
def Line.defs (line : Line) : LiveSet :=
  match line with
  | .op .jsr _ => ⟨RegSet.all.toList.map .reg ++ flagItems true true⟩
  | .op opcode operand =>
    let e := line.effects
    let writes := match operand with
      | .virtual v => if opcode.writesMemory then [.vreg v] else []
      | _ => []
    ⟨e.writes.toList.map .reg ++ flagItems e.writesNZ e.writesCarry ++ writes⟩
  | _ => {}

/-! ### Successors -/

/-- The index of each label.  Of several labels with one name the last counts. -/
def labelIndices (code : List Line) : Std.TreeMap String Nat :=
  code.zipIdx.foldl (fun labels (line, i) =>
    match line with
    | .label name => labels.insert name i
    | _ => labels) ∅

/-- The index of a label that a branch goes to. -/
def labelIndex (labels : Std.TreeMap String Nat) (name : String) : Compile Nat :=
  match labels[name]? with
  | some i => .ok i
  | none => .error (.internal ("branch to undefined label '" ++ name ++ "'"))

/-- The lines that may run after line `i`, coming back to a capture apart. -/
def Line.next (labels : Std.TreeMap String Nat) (i : Nat) : Line → Compile (List Nat)
  | .op opcode (.relative target) =>
    if opcode.isBranch then do return [← labelIndex labels target, i + 1]
    else .ok (if opcode.endsBlock then [] else [i + 1])
  | .op .jmp (.absolute (.label target)) => do return [← labelIndex labels target]
  | .op opcode _ => .ok (if opcode.endsBlock then [] else [i + 1])
  | _ => .ok [i + 1]

/-! ### Captured states -/

/-- Whether control may leave the line for a state captured before. -/
def Line.mayResume (line : Line) (call? : Option CallTarget) : Bool :=
  match line with
  | .op .jsr _ =>
    match call? with
    | some (.function _) | some (.trampoline ..) => true
    | _ => false
  | .op .jmp (.absolute address) => address.symbolName? = some Naming.longJmp
  | _ => false

/-- The lines at which a captured state is taken up again. -/
def resumePoints (size : Nat) (calls : Std.TreeMap Nat CallTarget) : List Nat :=
  calls.toList.filterMap fun (i, target) =>
    if target = .routine .setJmp then some (min (i + 1) size) else none

/-- Marks everything that can be reached from the lines still to visit. -/
def markReached (next : Array (List Nat)) : Nat → List Nat → Array Bool → Array Bool
  | 0, _, reached => reached
  | _, [], reached => reached
  | bound + 1, i :: rest, reached =>
    if reached.getD i true then markReached next bound rest reached
    else markReached next bound (next.getD i [] ++ rest) (reached.setIfInBounds i true)

/-- The lines that can be reached from some points: every line is visited from there and along each
edge. -/
def reachedFrom (next : Array (List Nat)) (points : List Nat) : Array Bool :=
  markReached next (points.length + totalOf List.length next.toList + 1) points
    (Array.replicate next.size false)

/-! ### The graph -/

/-- A line as the analysis sees it. -/
structure FlowNode where
  uses : LiveSet
  defs : LiveSet
  /-- The lines that may run next. -/
  next : List Nat

/-- The nodes of selected code in order. -/
def flowGraph (code : List Line) (calls : Std.TreeMap Nat CallTarget) :
    Compile (Array FlowNode) := do
  let labels := labelIndices code
  let next ← code.zipIdx.mapM fun (line, i) => line.next labels i
  let resumes := resumePoints code.length calls
  let reached := reachedFrom next.toArray resumes
  let node (line : Line) (next : List Nat) (i : Nat) : FlowNode :=
    { uses := line.uses calls[i]?
      defs := line.defs
      next := if reached.getD i false && line.mayResume calls[i]? then next ++ resumes else next }
  return ((code.zip next).zipIdx.map fun ((line, next), i) => node line next i).toArray

end Codegen6502
