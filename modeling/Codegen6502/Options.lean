import Codegen6502.Error
import Codegen6502.Json.Parse
import Codegen6502.Platform.Limits
import Codegen6502.ZeroPage

/-!
# Options of a compilation

The layout of the zero page, the memory map and the numeric limits.  By default the window of the
banks is at `$8000`, the common area behind it and the bank select register at `$D500`.
-/

namespace Codegen6502

/-- Where code and data are placed. -/
structure MemoryMap where
  /-- Where the selected bank is visible. -/
  bankWindow : UInt16 := 0x8000
  bankCapacity : UInt16 := 0x2000
  /-- The register that selects the bank. -/
  bankSelect : UInt16 := 0xD500
  codeOrigin : UInt16 := 0xA000
  codeCapacity : UInt16 := 0x2000
  dataOrigin : UInt16 := 0x2000
  dataCapacity : UInt16 := 0x1000
  deriving DecidableEq

structure Options where
  zeroPage : ZeroPage := {}
  map : MemoryMap := {}
  limits : Limits := {}
  /-- Asks for a trace of the allocation; results do not depend on it. -/
  traceAllocation : Bool := false
  deriving DecidableEq

/-! ### Faults of the memory map -/

/-- A named range of addresses, its end excluded. -/
structure Region where
  name : String
  start : Nat
  stop : Nat

namespace Region

def ofCapacity (name : String) (origin capacity : UInt16) : Region :=
  ⟨name, origin.toNat, origin.toNat + capacity.toNat⟩

def overlaps (a b : Region) : Bool := a.start < b.stop && b.start < a.stop

def contains (r : Region) (address : Nat) : Bool := r.start ≤ address && address < r.stop

/-- Why a region cannot be where it is, whatever the others are. -/
def fault? (r : Region) : Option String :=
  if r.stop > 0x10000 then some (r.name ++ " extends past $FFFF")
  else if r.start < 0x0200 then some (r.name ++ " overlaps zero page or the stack")
  else none

end Region

namespace MemoryMap

def regions (m : MemoryMap) : List Region :=
  [.ofCapacity "bank window" m.bankWindow m.bankCapacity,
    .ofCapacity "code area" m.codeOrigin m.codeCapacity,
    .ofCapacity "data area" m.dataOrigin m.dataCapacity]

/-- The first two regions that overlap. -/
def overlap? : List Region → Option (Region × Region)
  | [] => none
  | a :: rest =>
    match rest.find? a.overlaps with
    | some b => some (a, b)
    | none => overlap? rest

/-- The first fault of the map: a region out of place, two regions that overlap, or the select
register inside a region. -/
def fault? (m : MemoryMap) : Option String :=
  (m.regions.findSome? Region.fault?).or <|
    ((overlap? m.regions).map fun (a, b) => a.name ++ " overlaps " ++ b.name).or <|
      (m.regions.find? fun r => r.contains m.bankSelect.toNat).map fun r =>
        "bank select register lies inside the " ++ r.name

end MemoryMap

namespace Options

/-- The first fault of the options. -/
def fault? (o : Options) : Option String :=
  (o.zeroPage.fault?.map ZeroPage.Fault.message).or o.map.fault?

/-- Refuses options with a fault. -/
def validate (o : Options) : Compile Unit :=
  match o.fault? with
  | some problem => .error (.configuration problem)
  | none => .ok ()

/-! ### JSON form -/

def fieldNames : List String :=
  ["zero_page", "bank_window", "bank_capacity", "bank_select", "code_origin", "code_capacity",
    "data_origin", "data_capacity", "limits", "trace_allocation"]

def ofJson? (j : Json) : Option Options := do
  let r ← j.record? fieldNames
  let d : MemoryMap := {}
  return {
    zeroPage := ← r.withDefault "zero_page" {} ZeroPage.ofJson?
    map := {
      bankWindow := ← r.withDefault "bank_window" d.bankWindow Json.uint16?
      bankCapacity := ← r.withDefault "bank_capacity" d.bankCapacity Json.uint16?
      bankSelect := ← r.withDefault "bank_select" d.bankSelect Json.uint16?
      codeOrigin := ← r.withDefault "code_origin" d.codeOrigin Json.uint16?
      codeCapacity := ← r.withDefault "code_capacity" d.codeCapacity Json.uint16?
      dataOrigin := ← r.withDefault "data_origin" d.dataOrigin Json.uint16?
      dataCapacity := ← r.withDefault "data_capacity" d.dataCapacity Json.uint16? }
    limits := ← r.withDefault "limits" {} Limits.ofJson?
    traceAllocation := ← r.withDefault "trace_allocation" false Json.bool? }

/-- The options without the floating-point model. -/
def toJson (o : Options) : Json :=
  .obj [("zero_page", o.zeroPage.toJson), ("bank_window", .ofUInt16 o.map.bankWindow),
    ("bank_capacity", .ofUInt16 o.map.bankCapacity), ("bank_select", .ofUInt16 o.map.bankSelect),
    ("code_origin", .ofUInt16 o.map.codeOrigin), ("code_capacity", .ofUInt16 o.map.codeCapacity),
    ("data_origin", .ofUInt16 o.map.dataOrigin), ("data_capacity", .ofUInt16 o.map.dataCapacity),
    ("limits", .obj [("integers", o.limits.integers.toJson)]),
    ("trace_allocation", .bool o.traceAllocation)]

/-- The options that a text stands for, before their faults are looked at. -/
def parse? (text : String) : Option Options := (Json.parse? text).bind ofJson?

end Options

end Codegen6502
