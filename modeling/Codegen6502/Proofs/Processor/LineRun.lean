import Codegen6502.Liveness.Flow
import Codegen6502.Proofs.Processor.Memory
import Mathlib.Logic.Function.Basic

/-!
# Running lines

The meaning of a list of lines, before or after allocation.  A line with a memory operand does to
the machine what `Machine.execute` does; one with a virtual register or a frame byte does the same
to a byte of its own (`cellOp`: the instruction on a machine whose memory is that byte).  A line
that the processor has no encoding for cannot be run.

A call is a question to the environment, which sees everything observable so far (`Event`; of the
writes to memory those at the addresses it watches) and answers with new registers, flags and bytes
of memory.  It may also send control back to the line behind an earlier capture, if the called
routine is one that can do so; a jump to the routine that restores a state always asks for that.  A
run ends behind the last line and at any jump that leaves the code.
-/

namespace Codegen6502.Proofs.Processor.LineRun

/-! ### Operands -/

/-- What the names in operands stand for. -/
structure Linkage where
  symbol : String → UInt16
  /-- The start of the window of the banks. -/
  window : UInt16

namespace Linkage

def address (k : Linkage) : Address → UInt16
  | .absolute value => value
  | .symbol name addend => k.symbol name + addend.toInt16.toUInt16
  | .label name => k.symbol name
  | .bankRelative _ offset => k.window + offset

def byte (k : Linkage) : Immediate → UInt8
  | .byte b => b
  | .symbol name addend .lo => lowByte (k.address (.symbol name addend))
  | .symbol name addend .hi => highByte (k.address (.symbol name addend))

/-- What an instruction with an operand in registers or memory works on. -/
def effective (k : Linkage) (m : Machine) : Operand → EffectiveOperand
  | .accumulator => .accumulator
  | .immediate i => .value (k.byte i)
  | .zeroPage cell => .address cell.toUInt16
  | .absolute a => .address (k.address a)
  | .absoluteX a => .address (k.address a + m.regs.x.toUInt16)
  | .absoluteY a => .address (k.address a + m.regs.y.toUInt16)
  | .indirectY cell =>
    .address (word (m.bus.read cell.toUInt16) (m.bus.read (cell + 1).toUInt16) +
      m.regs.y.toUInt16)
  | _ => .none

/-- The bytes of memory that an operand reaches, the pointer that it goes through included. -/
def touched (k : Linkage) (m : Machine) (operand : Operand) : List UInt16 :=
  match operand with
  | .zeroPage _ | .absolute _ | .absoluteX _ | .absoluteY _ =>
    [(k.effective m operand).toAddress]
  | .indirectY cell =>
    [cell.toUInt16, (cell + 1).toUInt16, (k.effective m operand).toAddress]
  | _ => []

end Linkage

/-! ### Instructions -/

/-- A machine with nothing but a byte. -/
def alone (r : Registers) (byte : UInt8) : Machine :=
  { Machine.create 0 0 1 with regs := r, bus := (Bus.create 0 0 1).write 0 byte }

/-- What an instruction does to the registers and to a byte that only it can reach. -/
def cellOp (op : Opcode) (r : Registers) (byte : UInt8) : Registers × UInt8 :=
  let m := (alone r byte).execute op (.address 0)
  (m.regs, m.bus.read 0)

/-- A machine together with the bytes that stand for virtual registers and frame bytes. -/
structure Store where
  machine : Machine
  cells : VReg → UInt8
  frame : UInt8 → UInt8

namespace Store

def regs (s : Store) : Registers := s.machine.regs

def setRegs (s : Store) (r : Registers) : Store := { s with machine := { s.machine with regs := r } }

def setCell (s : Store) (v : VReg) (byte : UInt8) : Store :=
  { s with cells := Function.update s.cells v byte }

def setFrame (s : Store) (offset byte : UInt8) : Store :=
  { s with frame := Function.update s.frame offset byte }

/-- Executes an instruction that control passes through. -/
def exec (k : Linkage) (op : Opcode) (operand : Operand) (s : Store) : Store :=
  match operand with
  | .virtual v =>
    let out := cellOp op s.regs (s.cells v)
    (s.setRegs out.1).setCell v out.2
  | .frame offset =>
    let out := cellOp op s.regs (s.frame offset)
    (s.setRegs out.1).setFrame offset out.2
  | _ => { s with machine := s.machine.execute op (k.effective s.machine operand) }

end Store

/-- The contents of a register. -/
def regValue (r : Registers) : Register → UInt8
  | .a => r.a
  | .x => r.x
  | .y => r.y

/-- Whether a branch is taken. -/
def isTaken (op : Opcode) (r : Registers) : Bool :=
  match op with
  | .bcc => !r.flag .c
  | .bcs => r.flag .c
  | .beq => r.flag .z
  | .bne => !r.flag .z
  | .bmi => r.flag .n
  | .bpl => !r.flag .n
  | .bvc => !r.flag .v
  | .bvs => r.flag .v
  | _ => false

/-- Whether control passes through an instruction: no branch, jump, call or return. -/
def isData (op : Opcode) : Bool :=
  match op with
  | .jsr | .jmp | .rts | .rti | .brk => false
  | op => !op.isBranch

/-! ### Events and answers -/

/-- What can be seen of a run. -/
inductive Event where
  /-- A branch with its label, taken or not. -/
  | branch (target : String) (taken : Bool)
  | write (address : UInt16) (value : UInt8)
  /-- A call with where it goes, what is recorded for it and the registers that it takes arguments
  in. -/
  | call (operand : Operand) (target : Option CallTarget) (arguments : List UInt8)
  /-- The jump to the routine that restores a captured state. -/
  | escape
  deriving DecidableEq

/-- What a call leaves behind. -/
structure Answer where
  a : UInt8
  x : UInt8
  y : UInt8
  p : UInt8
  /-- The bytes of memory that it has overwritten. -/
  memory : UInt16 → Option UInt8
  /-- The bank that is selected afterwards. -/
  bank : UInt8
  /-- The number of the capture at which control goes on, instead of behind the call. -/
  resume : Option ℕ

/-- The machine after a call. -/
def Answer.apply (ans : Answer) (m : Machine) : Machine :=
  { m with
    regs := { m.regs with a := ans.a, x := ans.x, y := ans.y, p := ans.p }
    bus := { m.bus with
      ram := Vector.ofFn fun i => (ans.memory (UInt16.ofFin i)).getD (m.bus.ram.get (UInt16.ofFin i))
      selected := ans.bank } }

/-- Everything outside the code: what names stand for and what calls do. -/
structure Environment where
  linkage : Linkage
  /-- The addresses at which a write is seen. -/
  watched : UInt16 → Bool
  answer : List Event → Answer

/-- The write to memory that is seen of an instruction. -/
def writeEvents (e : Environment) (op : Opcode) (operand : Operand) (m : Machine) : List Event :=
  if op.writesMemory then
    match e.linkage.effective m operand with
    | .address a => if e.watched a then [.write a (cellOp op m.regs (m.bus.read a)).2] else []
    | _ => []
  else []

/-! ### Steps -/

/-- A point of a run. -/
structure Config where
  /-- The index of the next line. -/
  line : ℕ
  store : Store
  /-- Where the captures made so far go on, and with which stack pointer. -/
  captures : List (ℕ × UInt8) := []
  trace : List Event := []

namespace Config

def sp (c : Config) : UInt8 := c.store.regs.sp

/-- Goes on at a capture.  The stack must not have been released below it. -/
def resume (c : Config) (number : Option ℕ) : Option Config :=
  match number.bind fun n => c.captures[n]? with
  | some (line, sp) =>
    if c.sp ≤ sp then some { c with line, store := c.store.setRegs { c.store.regs with sp } }
    else none
  | none => none

/-- The call that a line makes, as it is seen. -/
def callEvent (c : Config) (operand : Operand) (target : Option CallTarget) : Event :=
  .call operand target ((CallTarget.argumentRegs target).toList.map (regValue c.store.regs))

/-- The event by which a line asks the environment. -/
def question? (c : Config) (calls : Std.TreeMap ℕ CallTarget) : Line → Option Event
  | .op .jsr operand => some (c.callEvent operand calls[c.line]?)
  | .op .jmp (.absolute address) =>
    if address.symbolName? = some Naming.longJmp then some .escape else none
  | _ => none

/-- The state after the environment has answered; control has still to go on. -/
def answered (c : Config) (e : Environment) (event : Event) : Config :=
  let trace := c.trace ++ [event]
  { c with
    store := { c.store with machine := (e.answer trace).apply c.store.machine }
    trace }

/-- Calls a routine. -/
def call (c : Config) (e : Environment) (operand : Operand) (target : Option CallTarget)
    (mayResume : Bool) : Option Config :=
  let event := c.callEvent operand target
  let after := c.answered e event
  let number := (e.answer (c.trace ++ [event])).resume
  if mayResume && number.isSome then after.resume number
  else
    some { after with
      line := c.line + 1
      captures :=
        if target = some (.routine .setJmp) then c.captures ++ [(c.line + 1, c.sp)]
        else c.captures }

/-- Jumps to the routine that restores a captured state. -/
def escape (c : Config) (e : Environment) : Option Config :=
  (c.answered e .escape).resume (e.answer (c.trace ++ [Event.escape])).resume

/-- Goes to a label. -/
def goto (c : Config) (code : List Line) (target : String) : Option Config :=
  (labelIndices code)[target]?.map fun line => { c with line }

/-- Branches. -/
def branch (c : Config) (code : List Line) (op : Opcode) : Operand → Option Config
  | .relative target =>
    let taken := isTaken op c.store.regs
    let c := { c with trace := c.trace ++ [Event.branch target taken] }
    if taken then c.goto code target else some { c with line := c.line + 1 }
  | _ => none

/-- Jumps. -/
def jump (c : Config) (e : Environment) (code : List Line) : Operand → Option Config
  | .absolute (.label target) => c.goto code target
  | .absolute address => if address.symbolName? = some Naming.longJmp then c.escape e else none
  | _ => none

/-- Passes through an instruction. -/
def pass (c : Config) (e : Environment) (op : Opcode) (operand : Operand) : Config :=
  { c with
    line := c.line + 1
    store := c.store.exec e.linkage op operand
    trace := c.trace ++ writeEvents e op operand c.store.machine }

end Config

/-- Runs one line; none where the run ends. -/
def step (e : Environment) (code : List Line) (calls : Std.TreeMap ℕ CallTarget) (c : Config) :
    Option Config :=
  match code[c.line]? with
  | some (.op op operand) =>
    if (op.encode operand.mode).isNone then none
    else if isData op then some (c.pass e op operand)
    else if op.isBranch then c.branch code op operand
    else if op = .jsr then
      c.call e operand calls[c.line]? ((Line.op op operand).mayResume calls[c.line]?)
    else if op = .jmp then c.jump e code operand
    else none
  | some _ => some { c with line := c.line + 1 }
  | none => none

/-- Runs a number of lines. -/
def run (e : Environment) (code : List Line) (calls : Std.TreeMap ℕ CallTarget) :
    ℕ → Config → Option Config
  | 0, c => some c
  | n + 1, c => (step e code calls c).bind (run e code calls n)

end Codegen6502.Proofs.Processor.LineRun
