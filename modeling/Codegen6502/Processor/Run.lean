import Codegen6502.Processor.Step

/-!
# Running subroutines

A call pushes a return address that no code has and runs until control gets there.  Every step
counts against the step limit, which bounds the run.
-/

namespace Codegen6502.Machine

/-- The address at which a call ends. -/
def returnSentinel : UInt16 := 0xFFF0

/-- Runs until the program counter reaches the sentinel, for at most `remaining` instructions. -/
def runUntilReturn : Nat → Machine → Option MachineFault × Machine
  | 0, m =>
    if m.regs.pc = returnSentinel then (none, m)
    else
      let fault := .stepLimit m.stepLimit m.regs.pc
      (some fault, m)
  | remaining + 1, m =>
    if m.regs.pc = returnSentinel then (none, m)
    else
      match m.pollInterrupt.step with
      | (some fault, m) => (some fault, m)
      | (none, m) => runUntilReturn remaining m

/-- Runs the subroutine at an address until it returns. -/
def call (m : Machine) (address : UInt16) : Option MachineFault × Machine :=
  let m := m.pushWord (returnSentinel - 1)
  let sp := m.regs.sp
  let m := { m with minSp := sp, regs := { m.regs with pc := address } }
  runUntilReturn (m.stepLimit - m.steps) m

/-- Runs the subroutine that a symbol names. -/
def callSymbol (m : Machine) (name : String) : Option MachineFault × Machine :=
  match m.symbol? name with
  | .ok address => m.call address
  | .error fault => (some fault, m)

end Codegen6502.Machine
