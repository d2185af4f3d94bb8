import Codegen6502.Json.Decode

/-!
# Memory banks and ways of entering a function

Code and read-only data live either in the area that is always mapped or in a bank that is visible
only while it is selected.
-/

namespace Codegen6502

inductive Bank where
  | common
  | paged (number : UInt8)
  deriving DecidableEq

namespace Bank

def isCommon : Bank → Bool
  | .common => true
  | .paged _ => false

/-- The order of banks: the common area, then the paged ones by number. -/
def rank : Bank → Nat
  | .common => 0
  | .paged n => n.toNat + 1

def text : Bank → String
  | .common => "common"
  | .paged n => toString n.toNat

def ofJson? (j : Json) : Option Bank := do
  let c ← j.case?
  match c.tag with
  | "Common" => c.bare .common
  | "Bank" => c.carrying fun d => d.uint8?.map .paged
  | _ => none

def toJson : Bank → Json
  | .common => .str "Common"
  | .paged n => .tagged "Bank" (.ofUInt8 n)

end Bank

/-- How a function is entered. -/
inductive EntryKind where
  /-- Called by a subroutine jump. -/
  | subroutine
  /-- An interrupt handler whose source stays masked while it runs. -/
  | interrupt
  /-- An interrupt handler that unmasks interrupts and may be entered again while it runs. -/
  | nestedInterrupt
  deriving DecidableEq

namespace EntryKind

def isInterrupt : EntryKind → Bool
  | .subroutine => false
  | _ => true

def text : EntryKind → String
  | .subroutine => "none"
  | .interrupt => "interrupt"
  | .nestedInterrupt => "recursive-interrupt"

def ofJson? (j : Json) : Option EntryKind := do
  let c ← j.case?
  match c.tag with
  | "None" => c.bare .subroutine
  | "NonRecursive" => c.bare .interrupt
  | "Recursive" => c.bare .nestedInterrupt
  | _ => none

def toJson : EntryKind → Json
  | .subroutine => .str "None"
  | .interrupt => .str "NonRecursive"
  | .nestedInterrupt => .str "Recursive"

end EntryKind

end Codegen6502
