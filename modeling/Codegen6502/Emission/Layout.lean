import Codegen6502.Emission.Basic

/-!
# Layout

Lines and data objects are placed one behind the other, each segment counting for itself, and every
label, object and external symbol is defined.

A branch may be marked as long.  It then takes the room of the opposite branch and a jump.

Offsets are words of 32 bits.  They are counted in full here, and `checkCounted` ends the
compilation where one has left its word; since offsets only grow, that is where the last one of a
segment has.
-/

namespace Codegen6502

/-- The next free offset of each segment, counted in full. -/
structure Cursors where
  /-- Segments and offsets by the rank of the segment. -/
  offsets : Std.TreeMap Nat (Segment × Nat) := ∅

namespace Cursors

def offset (c : Cursors) (s : Segment) : Nat :=
  match c.offsets[s.rank]? with
  | some (_, offset) => offset
  | none => 0

/-- Takes up bytes of a segment. -/
def advance (c : Cursors) (s : Segment) (size : Nat) : Cursors :=
  ⟨c.offsets.insert s.rank (s, c.offset s + size)⟩

/-- The segments in use with their sizes, in order. -/
def sizes (c : Cursors) : List (Segment × Nat) := c.offsets.values

end Cursors

/-- A line to be placed. -/
structure UnplacedLine where
  owner : FunctionHeader
  line : Line
  /-- Whether it is a branch that does not reach its target by itself. -/
  isLong : Bool

/-- The size of the opposite branch and a jump. -/
def longBranchSize : Nat := 5

def UnplacedLine.size (u : UnplacedLine) : Nat :=
  if u.isLong then longBranchSize else u.line.size.toNat

structure PlacedLine extends UnplacedLine where
  segment : Segment
  offset : Nat

/-- The offset just past the line. -/
def PlacedLine.stop (p : PlacedLine) : Nat := p.offset + p.size

structure PlacedData where
  object : DataObject
  segment : Segment
  offset : Nat

/-- The offset just past the object. -/
def PlacedData.stop (p : PlacedData) : Nat := p.offset + p.object.size

structure Layout where
  lines : List PlacedLine
  data : List PlacedData
  /-- The sizes of the segments. -/
  ends : Cursors
  table : SymbolTable

namespace Layout

/-- Which segments code and data go to. -/
structure Areas where
  code : Bank → Segment
  data : Bank → Segment

/-- Everything in one code segment, whatever its bank. -/
def flat : Areas := ⟨fun _ => .common, fun _ => .data⟩

/-- Every bank in a segment of its own. -/
def banked : Areas := ⟨.ofCode, .ofData⟩

def placeLines (areas : Areas) (c : Cursors) : List UnplacedLine → List PlacedLine × Cursors
  | [] => ([], c)
  | u :: rest =>
    let segment := areas.code u.owner.placement
    let (placed, done) := placeLines areas (c.advance segment u.size) rest
    ({ u with segment, offset := c.offset segment } :: placed, done)

def placeData (areas : Areas) (c : Cursors) : List DataObject → List PlacedData × Cursors
  | [] => ([], c)
  | object :: rest =>
    let segment := areas.data object.bank
    let (placed, done) := placeData areas (c.advance segment object.size) rest
    (⟨object, segment, c.offset segment⟩ :: placed, done)

/-! ### Definitions and references -/

/-- Defines a line that is a label: the function's name or a label inside it. -/
def defineLine (t : SymbolTable) (p : PlacedLine) : Compile SymbolTable :=
  match p.line with
  | .label name =>
    let kind := if name = p.owner.name then .function p.owner.visible else .label
    t.define name ⟨p.segment, UInt16.ofNat p.offset, kind⟩
  | _ => .ok t

def defineData (t : SymbolTable) (p : PlacedData) : Compile SymbolTable :=
  t.define p.object.name ⟨p.segment, UInt16.ofNat p.offset, .data⟩

def defineExternal (t : SymbolTable) (external : String × UInt16) : Compile SymbolTable :=
  t.define external.1 ⟨.absolute, external.2, .external⟩

/-- Records the name that a line refers to. -/
def referLine (t : SymbolTable) (p : PlacedLine) : SymbolTable :=
  match p.line.operand?.bind Operand.referencedName? with
  | some name => t.refer ⟨name, p.owner.name⟩
  | none => t

/-! ### The layout of an emission -/

/-- Marks lines as long, in order; lines without a mark are not. -/
def mark : List (FunctionHeader × Line) → List Bool → List UnplacedLine
  | [], _ => []
  | (owner, line) :: rest, [] => ⟨owner, line, false⟩ :: mark rest []
  | (owner, line) :: rest, isLong :: marks => ⟨owner, line, isLong⟩ :: mark rest marks

/-- The layout with the given branches long. -/
def make (areas : Areas) (e : Emission) (long : List Bool) : Compile Layout := do
  let (lines, cursors) := placeLines areas {} (mark e.lines long)
  let (data, ends) := placeData areas cursors e.data
  let table ← lines.foldlM defineLine {}
  let table ← data.foldlM defineData table
  let table ← e.externals.toList.foldlM defineExternal table
  return { lines, data, ends, table := lines.foldl referLine table }

/-- The layout for targets that do not switch banks. -/
def ofFlat (e : Emission) : Compile Layout := make flat e []

/-- Refuses a layout of which an offset is no word of 32 bits. -/
def checkCounted (l : Layout) : Compile Unit :=
  if l.ends.sizes.all fun segment => segment.2 < 0x100000000 then .ok ()
  else .error (.overflow "add")

end Layout

end Codegen6502
