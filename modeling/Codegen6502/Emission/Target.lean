import Codegen6502.Emission.Container
import Codegen6502.Emission.Listing
import Codegen6502.Emission.MachineCode

/-!
# Targets

What an emission is turned into.

| target      | output                                  | switches banks |
|-------------|-----------------------------------------|----------------|
| `symbolic`  | assembly listing                        | no             |
| `bytecode`  | position-independent container          | no             |
| `null`      | statistics only                         | no             |
| `mos6502`   | memory image                            | yes            |
-/

namespace Codegen6502

inductive Target where
  | listing
  | container
  | nothing
  | image
  deriving DecidableEq

namespace Target

/-- All targets in the order in which they are listed. -/
def all : List Target := [.listing, .container, .nothing, .image]

def name : Target → String
  | .listing => "symbolic"
  | .container => "bytecode"
  | .nothing => "null"
  | .image => "mos6502"

/-- Whether code is called across banks that are switched.  Elsewhere code lies in the common area
whatever its bank. -/
def switchesBanks : Target → Bool
  | .image => true
  | _ => false

def ofName (name : String) : Compile Target :=
  match all.find? fun t => t.name = name with
  | some t => .ok t
  | none => .error (.unknownTarget name (all.map Target.name))

end Target

/-- What a target produces. -/
inductive Artifact where
  | listing (text : String)
  | container (bytes : List UInt8)
  | nothing
  | image (image : Image)

/-- The result of a compilation. -/
structure Output where
  target : Target
  artifact : Artifact
  /-- The visible functions and where they have been placed. -/
  relocations : List Relocation
  statistics : Statistics

/-- Produces the output of a target that does not switch banks. -/
def flatOutput (target : Target) (e : Emission) (produce : SymbolTable → Compile Artifact) :
    Compile Output := do
  let l ← Layout.ofFlat e
  l.checkCounted
  l.table.checkResolved
  return {
    target
    artifact := ← produce l.table
    relocations := l.table.relocations
    statistics := .ofEmission e }

/-- Turns an emission into the output of a target. -/
def Emission.output (target : Target) (map : MemoryMap) (e : Emission) : Compile Output := do
  e.checkClosed
  match target with
  | .listing => flatOutput target e fun table => .ok (.listing (Listing.render e table))
  | .container => flatOutput target e fun _ => (Container.bytes e).map .container
  | .nothing => flatOutput target e fun _ => .ok .nothing
  | .image =>
    let a ← assemble map e
    return {
      target
      artifact := .image a.image
      relocations := a.relocations
      statistics := { Statistics.ofEmission e with codeBytes := a.codeBytes } }

end Codegen6502
