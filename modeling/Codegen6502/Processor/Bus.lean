import Codegen6502.Text.Hex
import Codegen6502.Word
import Std.Data.TreeMap

/-!
# The memory map

Reads inside the window come from the selected bank, and give `$FF` where the bank has no byte.
Writes to the window are dropped.  A write to the select register switches the bank and also lands
in memory, so that it can be read back.
-/

namespace Codegen6502

/-- Why the machine refuses an operation. -/
inductive MachineFault where
  | illegalOpcode (opcode : UInt8) (address : UInt16)
  | stepLimit (limit : Nat) (pc : UInt16)
  | unknownSymbol (name : String)
  | segmentTooLarge (origin : UInt16) (length : Nat)
  deriving DecidableEq

def MachineFault.message : MachineFault → String
  | .illegalOpcode opcode address =>
    "Illegal opcode $" ++ hexByte opcode ++ " at $" ++ hexWord address
  | .stepLimit limit pc => "Step limit of " ++ toString limit ++ " reached at $" ++ hexWord pc
  | .unknownSymbol name => "Unknown symbol '" ++ name ++ "'"
  | .segmentTooLarge origin length =>
    "Segment at $" ++ hexWord origin ++ " (" ++ toString length ++ " bytes) does not fit in memory"

/-- The 64 KiB that an address reaches. -/
abbrev Ram := Vector UInt8 0x10000

namespace Ram

def get (ram : Ram) (address : UInt16) : UInt8 := Vector.get ram address.toFin

def put (ram : Ram) (address : UInt16) (value : UInt8) : Ram :=
  Vector.set ram address.toNat value address.toNat_lt

/-- Puts bytes at consecutive addresses. -/
def putAll (ram : Ram) (address : UInt16) : List UInt8 → Ram
  | [] => ram
  | b :: rest => putAll (ram.put address b) (address + 1) rest

end Ram

structure Bus where
  ram : Ram
  banks : Std.TreeMap UInt8 (Array UInt8)
  window : UInt16
  windowSize : UInt16
  bankSelect : UInt16
  selected : UInt8
  /-- Every bank switch, last first. -/
  switches : List UInt8

namespace Bus

/-- A memory of zeros without banks. -/
def create (window windowSize bankSelect : UInt16) : Bus :=
  { ram := Vector.replicate 0x10000 0, banks := ∅, window, windowSize, bankSelect, selected := 0,
    switches := [] }

def inWindow (b : Bus) (address : UInt16) : Bool :=
  b.window ≤ address && address.toNat < b.window.toNat + b.windowSize.toNat

def read (b : Bus) (address : UInt16) : UInt8 :=
  if b.inWindow address then
    match b.banks[b.selected]? with
    | some bytes => bytes.getD (address - b.window).toNat 0xFF
    | none => 0xFF
  else b.ram.get address

def write (b : Bus) (address : UInt16) (value : UInt8) : Bus :=
  if b.inWindow address then b
  else if address = b.bankSelect then
    { b with
      ram := b.ram.put address value, selected := value, switches := value :: b.switches }
  else { b with ram := b.ram.put address value }

/-- The word at an address, low byte first. -/
def readWord (b : Bus) (address : UInt16) : UInt16 :=
  word (b.read address) (b.read (address + 1))

/-- Copies bytes into memory, past the window and the select register. -/
def load (b : Bus) (origin : UInt16) (bytes : List UInt8) : Except MachineFault Bus :=
  if origin.toNat + bytes.length > 0x10000 then
    .error (.segmentTooLarge origin bytes.length)
  else .ok { b with ram := b.ram.putAll origin bytes }

/-- Installs a bank. -/
def loadBank (b : Bus) (bank : UInt8) (bytes : List UInt8) : Except MachineFault Bus :=
  if bytes.length > b.windowSize.toNat then
    .error (.segmentTooLarge b.window bytes.length)
  else .ok { b with banks := b.banks.insert bank bytes.toArray }

/-- Selects a bank from outside; this is not recorded as a switch. -/
def selectBank (b : Bus) (bank : UInt8) : Bus := { b with selected := bank }

/-- Every bank switch in order. -/
def bankSwitches (b : Bus) : List UInt8 := b.switches.reverse

end Bus

end Codegen6502
