import Codegen6502.Allocation.Frame
import Codegen6502.Allocation.Scan
import Codegen6502.Convention.Binding
import Codegen6502.Selection.Lowering

/-!
# Register allocation

Gives every virtual register of selected code a location and replaces all accesses to virtual
registers and frame bytes.  Running out of registers and cells is no error: what is left goes to the
stack frame.
-/

namespace Codegen6502

/-- Code whose operands are all final. -/
structure AllocatedCode where
  name : String
  code : List Line
  /-- The calls by the index of their line. -/
  calls : Std.TreeMap Nat CallTarget
  /-- The size of the frame: locals and slots. -/
  frameBytes : UInt8
  locations : Locations
  /-- The number of frame slots for values. -/
  slots : Nat
  /-- The number of times that X was given up for addressing the frame. -/
  reruns : Nat

namespace AllocatedCode

/-- What the code overwrites by itself. -/
def ownClobbers (a : AllocatedCode) : Clobbers := .writtenBy a.code

/-- The cells of the pool that hold values. -/
def poolCells (a : AllocatedCode) : CellSet :=
  .ofList (a.locations.values.filterMap Location.cell?)

/-- How many values are in each kind of location. -/
def countsJson (a : AllocatedCode) : Json :=
  let count (test : Location → Bool) : Json := .ofNat (a.locations.values.countP test)
  .obj [("in_registers", count Location.isReg), ("in_zero_page", count Location.isZeroPage),
    ("spilled", count Location.isStack), ("spill_slots", .ofNat a.slots),
    ("reruns", .ofNat a.reruns)]

def toJson (a : AllocatedCode) : Json :=
  .obj [("name", .str a.name), ("code", .ofList (fun line => .str line.text) a.code),
    ("calls", .ofList (fun (i, target) => .arr [.ofNat i, target.toJson]) a.calls.toList),
    ("frame_bytes", .ofUInt8 a.frameBytes),
    ("locations", .ofList (fun (v, location) => .arr [.str (VReg.text ⟨v⟩), .str location.text])
      a.locations.toList),
    ("pool_cells", .ofBytes a.poolCells.toList), ("clobbers", .str a.ownClobbers.text),
    ("stats", a.countsJson)]

end AllocatedCode

/-- The registers in which a result is handed back. -/
def ReturnKind.registers : ReturnKind → RegSet
  | .byte => { a := true }
  | .word => { a := true, x := true }
  | .void | .struct _ => {}

/-- Places the values of selected code.  If some end up in the frame while another is in X, X is
needed for addressing the frame, and all are placed again without it. -/
def Allocation.assign (p : Allocation.Problem) : Allocation.Scan × Nat :=
  let first := p.scan
  if first.slotEnds.length > 0 && first.locations.values.any (· = .reg .x) then
    ({ p with useX := false }.scan, 1)
  else (first, 0)

open Allocation in
/-- Allocates one function.  `callClobbers` is what each call may overwrite, by the index of its
line. -/
def allocate (z : ZeroPage) (selected : SelectedCode) (binding : Binding)
    (callClobbers : Std.TreeMap Nat Clobbers) : Compile AllocatedCode := do
  let live ← Liveness.compute selected.code selected.calls binding.returnKind.registers
  let problem : Problem :=
    { code := selected.code
      live
      zeroPage := z
      callClobbers
      reserved := if binding.isInterrupt then z.interruptReserved else .empty
      locals := selected.locals
      useX := selected.locals = 0 }
  let (scan, reruns) := assign problem
  let slots := scan.slotEnds.length
  let frame := selected.locals.toNat + slots
  if frame > 255 then
    throw (.invalidProgram selected.name s!"stack frame of {frame} bytes exceeds 255")
  let placement : Placement := { function := selected.name, live, locations := scan.locations }
  let (code, calls) ← placement.place selected.calls {} 0 0 selected.code
  return {
    name := selected.name
    code
    calls := .ofList calls
    frameBytes := UInt8.ofNat frame
    locations := scan.locations
    slots
    reruns }

end Codegen6502
