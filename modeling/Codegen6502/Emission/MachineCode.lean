import Codegen6502.Emission.Image
import Codegen6502.Emission.Relaxation
import Codegen6502.Options
import Codegen6502.Total

/-!
# Machine code

Places an emission in the memory map and encodes it.  Code may refer to its own bank, to what is
always mapped and to fixed addresses; taking the address of something in another bank is allowed,
going there or reading it is not.
-/

namespace Codegen6502

namespace MemoryMap

/-- The address at which a segment starts. -/
def origin (m : MemoryMap) : Segment → UInt16
  | .common => m.codeOrigin
  | .bank _ => m.bankWindow
  | .data => m.dataOrigin
  | .absolute => 0

/-- The room in a segment. -/
def capacity? (m : MemoryMap) : Segment → Option Nat
  | .common => some m.codeCapacity.toNat
  | .bank _ => some m.bankCapacity.toNat
  | .data => some m.dataCapacity.toNat
  | .absolute => none

/-- The address of a symbol. -/
def address (m : MemoryMap) (d : Definition) : UInt16 := m.origin d.segment + d.offset

end MemoryMap

namespace MachineCode

/-! ### Checks -/

/-- The bank that an address is relative to, in the modes that allow it. -/
def bankOf? : Operand → Option UInt8
  | .absolute (.bankRelative bank _) | .absoluteX (.bankRelative bank _)
  | .absoluteY (.bankRelative bank _) => some bank
  | _ => none

/-- The symbol that a line accesses or goes to; taking an address is neither. -/
def accessedSymbol? : Operand → Option String
  | .immediate _ => none
  | operand => operand.symbolName?

/-- What a line needs of a bank other than its own. -/
def crossBankFault? (table : SymbolTable) (p : PlacedLine) : Option CompileError :=
  match p.line with
  | .op opcode operand =>
    let far := (bankOf? operand).filter fun bank => p.segment ≠ .bank bank
    match far with
    | some bank => some (.crossBankReference p.owner.name s!"bank {bank.toNat} data")
    | none => do
      let symbol ← accessedSymbol? operand
      let d ← table.get? symbol
      if d.segment.isBank && d.segment ≠ p.segment then
        if (opcode = .jsr || opcode = .jmp) && d.kind.isCode then
          some (.directCrossBankCall p.owner.name symbol)
        else some (.crossBankReference p.owner.name symbol)
      else none
  | _ => none

/-- Refuses the first line that needs another bank. -/
def checkBanks (l : Layout) : Compile Unit :=
  match l.lines.findSome? (crossBankFault? l.table) with
  | some error => .error error
  | none => .ok ()

/-- The first function or else the first object that ends past the room of its segment. -/
def overflowing (l : Layout) (segment : Segment) (capacity : Nat) : String :=
  let line := l.lines.find? fun p => p.segment = segment && p.stop > capacity
  let object := l.data.find? fun p => p.segment = segment && p.stop > capacity
  ((line.map (·.owner.name)).or (object.map (·.object.name))).getD ""

def checkSegment (m : MemoryMap) (l : Layout) (segment : Segment × Nat) : Compile Unit :=
  match m.capacity? segment.1 with
  | some capacity =>
    if segment.2 ≤ capacity then .ok ()
    else .error (.bankOverflow (overflowing l segment.1 capacity) segment.1.text segment.2 capacity)
  | none => .ok ()

/-- Refuses the first segment without enough room. -/
def checkCapacity (m : MemoryMap) (l : Layout) : Compile Unit :=
  l.ends.sizes.forM (checkSegment m l)

/-! ### Encoding -/

def symbolAddress (m : MemoryMap) (t : SymbolTable) (name : String) : Compile UInt16 :=
  match t.get? name with
  | some d => .ok (m.address d)
  | none => .error (.internal ("'" ++ name ++ "' vanished after resolution"))

/-- The value of an address. -/
def resolve (m : MemoryMap) (t : SymbolTable) : Address → Compile UInt16
  | .absolute value => .ok value
  | .symbol name addend => do return (← symbolAddress m t name) + addend.toInt16.toUInt16
  | .label name => symbolAddress m t name
  | .bankRelative _ offset => .ok (m.bankWindow + offset)

/-- The opcode byte. -/
def opcodeByte (opcode : Opcode) (mode : Mode) : Compile UInt8 :=
  match opcode.encode mode with
  | some byte => .ok byte
  | none => .error (.internal (opcode.mnemonic ++ " has no " ++ mode.text ++ " encoding"))

/-- A branch that reaches its target: the distance counts from its end. -/
def shortBranch (opcode : Opcode) (pc target : UInt16) : Compile (List UInt8) := do
  return [← opcodeByte opcode .relative, lowByte (target - (pc + 2))]

/-- The opposite branch over a jump. -/
def longBranch (opcode : Opcode) (target : UInt16) : Compile (List UInt8) := do
  let some inverted := opcode.inverted?
    | throw (.internal (opcode.mnemonic ++ " is not a branch"))
  return [← opcodeByte inverted .relative, 3, ← opcodeByte .jmp .absolute] ++ wordBytes target

/-- The bytes of an operand. -/
def operandBytes (m : MemoryMap) (t : SymbolTable) (line : Line) : Operand → Compile (List UInt8)
  | .implied | .accumulator => .ok []
  | .immediate (.byte b) => .ok [b]
  | .immediate (.symbol name addend half) => do
    let value ← resolve m t (.symbol name addend)
    return [match half with
      | .lo => lowByte value
      | .hi => highByte value]
  | .zeroPage cell | .indirectY cell => .ok [cell]
  | .absolute a | .absoluteX a | .absoluteY a | .indirect a => do return wordBytes (← resolve m t a)
  | .relative _ | .virtual _ | .frame _ => .error (.internal ("cannot encode '" ++ line.text ++ "'"))

/-- The bytes of a placed line. -/
def lineBytes (m : MemoryMap) (t : SymbolTable) (p : PlacedLine) : Compile (List UInt8) :=
  match p.line with
  | .op opcode (.relative label) => do
    let target ← resolve m t (.label label)
    if p.isLong then longBranch opcode target
    else shortBranch opcode (m.origin p.segment + UInt16.ofNat p.offset) target
  | .op opcode operand => do
    return (← opcodeByte opcode operand.mode) :: (← operandBytes m t p.line operand)
  | _ => .ok []

/-! ### Images -/

/-- A stretch of bytes in a segment. -/
abbrev Piece := Segment × List UInt8

/-- The bytes of a segment, its pieces one behind the other. -/
def segmentBytes (pieces : List Piece) (segment : Segment) : List UInt8 :=
  (pieces.filter fun p => p.1 = segment).flatMap (·.2)

/-- The banks in which something is placed. -/
def bankNumbers (e : Emission) : List UInt8 :=
  (e.functions.map (·.header.placement) ++ e.data.map (·.bank)).filterMap fun bank =>
    match bank with
    | .paged n => some n
    | .common => none

/-- The image of a layout whose lines have been encoded. -/
def imageOf (m : MemoryMap) (e : Emission) (l : Layout) (pieces : List Piece) : Image :=
  let segment (s : Segment) : SegmentImage := ⟨m.origin s, segmentBytes pieces s⟩
  { common := segment .common
    banks := .ofList ((bankNumbers e).eraseDups.map fun n => (n, segment (.bank n)))
    data := segment .data
    symbols := .ofList (l.table.definitions.toList.map fun (name, d) =>
      (name, (⟨d.segment, m.address d⟩ : ImageSymbol)))
    bankWindow := m.bankWindow
    bankSelect := m.bankSelect }

end MachineCode

/-- An image with the relocations of its functions and the size of its code. -/
structure Assembled where
  image : Image
  relocations : List Relocation
  codeBytes : Nat

open MachineCode in
/-- Assembles an emission. -/
def assemble (m : MemoryMap) (e : Emission) : Compile Assembled := do
  let l ← Relaxation.layout e
  l.checkCounted
  l.table.checkResolved
  checkBanks l
  checkCapacity m l
  let code ← l.lines.mapM fun p => do
    let bytes ← lineBytes m l.table p
    return ((p.segment, bytes) : Piece)
  let data := l.data.map fun p => ((p.segment, p.object.bytes) : Piece)
  return {
    image := imageOf m e l (code ++ data)
    relocations := l.table.relocations
    codeBytes := totalOf (fun piece => piece.2.length) code }

end Codegen6502
