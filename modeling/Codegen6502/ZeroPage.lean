import Codegen6502.CellSet
import Codegen6502.Json.Decode

/-!
# Layout of the zero page

```text
$80-$8F  argument slots (result pointer, parameters, variadic count and pointer)
$90-$91  scratch pointer for indirect accesses
$92      copy of the bank select register
$93-     pool of pseudo-registers
```

The defaults are those of the table; every address can be configured.
-/

namespace Codegen6502

structure ZeroPage where
  argBase : UInt8 := 0x80
  argSlots : UInt8 := 16
  pointer : UInt8 := 0x90
  bankShadow : UInt8 := 0x92
  poolBase : UInt8 := 0x93
  poolSize : UInt8 := 64
  deriving DecidableEq

namespace ZeroPage

/-- The cell of an argument slot. -/
def arg (z : ZeroPage) (slot : UInt8) : UInt8 := z.argBase + slot

def pointerLo (z : ZeroPage) : UInt8 := z.pointer

def pointerHi (z : ZeroPage) : UInt8 := z.pointer + 1

/-- The cells of all argument slots. -/
def argCells (z : ZeroPage) : List UInt8 :=
  (List.range z.argSlots.toNat).map fun i => z.arg (UInt8.ofNat i)

/-- The cells of the pool in the order they are handed out; what would lie past the page is cut
off. -/
def pool (z : ZeroPage) : List UInt8 :=
  ((List.range z.poolSize.toNat).map (z.poolBase.toNat + ·)).filter (· ≤ 0xFF) |>.map UInt8.ofNat

/-- The cells that an interrupt handler must save before it uses them. -/
def interruptReserved (z : ZeroPage) : CellSet :=
  ((CellSet.ofList z.argCells).insert z.pointerLo).insert z.pointerHi

/-- Why a layout is refused. -/
inductive Fault where
  | pastPage
  | pointerInArgs
  | pointerInPool
  | argsInPool
  | shadowInPointer
  deriving DecidableEq

def Fault.message : Fault → String
  | .pastPage => "zero-page region extends past $FF"
  | .pointerInArgs => "PTR or bank shadow overlaps the argument slots"
  | .pointerInPool => "PTR or bank shadow overlaps the pseudo-register pool"
  | .argsInPool => "argument slots overlap the pseudo-register pool"
  | .shadowInPointer => "bank shadow overlaps PTR"

/-- The first fault of the layout, if it has one. -/
def fault? (z : ZeroPage) : Option Fault :=
  let argStart := z.argBase.toNat
  let argEnd := argStart + z.argSlots.toNat
  let ptr := z.pointer.toNat
  let shadow := z.bankShadow.toNat
  let poolStart := z.poolBase.toNat
  let poolEnd := poolStart + z.poolSize.toNat
  let inArgs (a : Nat) : Bool := argStart ≤ a && a < argEnd
  let inPool (a : Nat) : Bool := poolStart ≤ a && a < poolEnd
  if argEnd > 0x100 || poolEnd > 0x100 then some .pastPage
  else if inArgs ptr || inArgs (ptr + 1) || inArgs shadow then some .pointerInArgs
  else if inPool ptr || inPool (ptr + 1) || inPool shadow then some .pointerInPool
  else if inPool argStart then some .argsInPool
  else if shadow = ptr ∨ shadow = ptr + 1 then some .shadowInPointer
  else none

/-! ### JSON form -/

def ofJson? (j : Json) : Option ZeroPage := do
  let r ← j.record? ["arg_base", "arg_slots", "ptr", "bank_shadow", "pool_base", "pool_size"]
  let d : ZeroPage := {}
  return {
    argBase := ← r.withDefault "arg_base" d.argBase Json.uint8?
    argSlots := ← r.withDefault "arg_slots" d.argSlots Json.uint8?
    pointer := ← r.withDefault "ptr" d.pointer Json.uint8?
    bankShadow := ← r.withDefault "bank_shadow" d.bankShadow Json.uint8?
    poolBase := ← r.withDefault "pool_base" d.poolBase Json.uint8?
    poolSize := ← r.withDefault "pool_size" d.poolSize Json.uint8? }

def toJson (z : ZeroPage) : Json :=
  .obj [("arg_base", .ofUInt8 z.argBase), ("arg_slots", .ofUInt8 z.argSlots),
    ("ptr", .ofUInt8 z.pointer), ("bank_shadow", .ofUInt8 z.bankShadow),
    ("pool_base", .ofUInt8 z.poolBase), ("pool_size", .ofUInt8 z.poolSize)]

end ZeroPage

end Codegen6502
