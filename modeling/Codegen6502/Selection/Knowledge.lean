import Codegen6502.Asm.Effects

/-!
# What is known about the machine

At each point of straight-line code it is known which operands A agrees with, which operand the
flags N and Z describe, which pointer the scratch pointer holds and which constant Y holds.  All is
forgotten at labels and calls.
-/

namespace Codegen6502

/-- A pointer held in two virtual registers, low byte first. -/
abbrev PointerPair := VReg × VReg

structure Knowledge where
  /-- Operands whose value A holds. -/
  a : List Operand := []
  /-- The operand whose value N and Z describe. -/
  nz : Option Operand := none
  /-- The pointer that the scratch pointer holds. -/
  pointer : Option PointerPair := none
  /-- The constant in Y. -/
  y : Option UInt8 := none
  deriving DecidableEq

namespace Knowledge

def aHolds (k : Knowledge) (operand : Operand) : Bool := k.a.contains operand

def flagsDescribe (k : Knowledge) (operand : Operand) : Bool := k.nz = some operand

/-- Whether the value of an operand is followed: constants and virtual registers are. -/
def isTracked : Operand → Bool
  | .virtual _ | .immediate (.byte _) => true
  | _ => false

/-- Whether a write to an operand changes the scratch pointer or what it was copied from. -/
def touchesPointer (pointer : Option PointerPair) (cell : UInt8) : Operand → Bool
  | .virtual v => match pointer with
    | some (lo, hi) => v = lo || v = hi
    | none => false
  | .zeroPage z => z = cell || z = cell + 1
  | _ => false

/-- Forgets what a write to memory makes stale. -/
def afterWrite (k : Knowledge) (cell : UInt8) (operand : Operand) : Knowledge :=
  { k with
    a := k.a.filter fun held => held ≠ operand
    nz := if k.nz = some operand then none else k.nz
    pointer := if touchesPointer k.pointer cell operand then none else k.pointer }

/-- What an instruction does to the knowledge of registers and flags. -/
def afterRegisters (k : Knowledge) (opcode : Opcode) (operand : Operand) : Knowledge :=
  let general : Knowledge :=
    let e := (Line.op opcode operand).effects
    { k with
      a := if e.writes.a then [] else k.a
      nz := if e.writesNZ then none else k.nz
      y := if e.writes.y then none else k.y }
  match opcode with
  | .lda =>
    if isTracked operand then { k with a := [operand], nz := some operand }
    else { k with a := [], nz := none }
  | .sta =>
    match operand with
    | .virtual _ => { k with a := k.a ++ [operand] }
    | _ => k
  | .ldy =>
    { k with
      y := match operand with
        | .immediate (.byte b) => some b
        | _ => none
      nz := none }
  | .inc | .dec | .asl | .lsr | .rol | .ror =>
    if operand.isMemory then
      { k with
        nz := match operand with
          | .virtual _ => some operand
          | _ => none }
    else general
  | _ => general

/-- What is known after a line; `cell` is the first cell of the scratch pointer. -/
def after (k : Knowledge) (cell : UInt8) : Line → Knowledge
  | .label _ => {}
  | .comment _ => k
  | .op opcode operand =>
    if opcode = .jsr ∨ opcode = .brk then {}
    else
      let k := if opcode.writesMemory && operand.isMemory then k.afterWrite cell operand else k
      k.afterRegisters opcode operand

end Knowledge

end Codegen6502
