import Codegen6502.Json.Decode
import Codegen6502.Processor.Bus

/-!
# The state of the machine

Registers, memory, symbols and pending interrupts.
-/

namespace Codegen6502

/-- A bit of the status register. -/
inductive Flag where
  | n | v | unused | brk | d | i | z | c
  deriving DecidableEq

/-- The bit of a flag. -/
def Flag.mask : Flag → UInt8
  | .n => 0x80
  | .v => 0x40
  | .unused => 0x20
  | .brk => 0x10
  | .d => 0x08
  | .i => 0x04
  | .z => 0x02
  | .c => 0x01

structure Registers where
  a : UInt8 := 0
  x : UInt8 := 0
  y : UInt8 := 0
  sp : UInt8 := 0xFF
  /-- The status register. -/
  p : UInt8 := 0x20
  pc : UInt16 := 0
  deriving DecidableEq

namespace Registers

def flag (r : Registers) (f : Flag) : Bool := r.p &&& f.mask != 0

def setFlag (r : Registers) (f : Flag) (on : Bool) : Registers :=
  { r with p := if on then r.p ||| f.mask else r.p &&& ~~~f.mask }

/-- Sets Z and N after a result. -/
def setNZ (r : Registers) (value : UInt8) : Registers :=
  (r.setFlag .z (value = 0)).setFlag .n (value &&& 0x80 != 0)

/-- The accumulator with its flags. -/
def loadA (r : Registers) (value : UInt8) : Registers := { r with a := value }.setNZ value

/-- X with its flags. -/
def loadX (r : Registers) (value : UInt8) : Registers := { r with x := value }.setNZ value

/-- Y with its flags. -/
def loadY (r : Registers) (value : UInt8) : Registers := { r with y := value }.setNZ value

/-- The status byte as it stands on the stack after an instruction pushed it. -/
def pushedStatus (r : Registers) : UInt8 := r.p ||| Flag.brk.mask ||| Flag.unused.mask

/-- The status register after a byte was pulled into it. -/
def pulledStatus (byte : UInt8) : UInt8 := (byte &&& ~~~Flag.brk.mask) ||| Flag.unused.mask

/-- Binary addition with carry; decimal mode is not modelled. -/
def add (r : Registers) (value : UInt8) : Registers :=
  let carry : UInt8 := if r.flag .c then 1 else 0
  let sum := r.a.toNat + value.toNat + carry.toNat
  let result := r.a + value + carry
  let overflow := ~~~(r.a ^^^ value) &&& (r.a ^^^ result) &&& 0x80
  ((r.setFlag .c (sum > 0xFF)).setFlag .v (overflow != 0)).loadA result

/-- Compares a register with a value. -/
def compare (r : Registers) (register value : UInt8) : Registers :=
  (r.setFlag .c (register ≥ value)).setNZ (register - value)

end Registers

/-- An interrupt that is requested once `atStep` instructions have run. -/
structure Interrupt where
  atStep : Nat
  handler : UInt16
  deriving DecidableEq

structure Machine where
  bus : Bus
  regs : Registers
  symbols : Std.TreeMap String UInt16
  /-- The instructions that have run, counted without bound: a word of 64 bits would run out behind
  `2 ^ 64` of them. -/
  steps : Nat
  stepLimit : Nat
  /-- The lowest stack pointer since the last call began. -/
  minSp : UInt8
  /-- Requests in the order they are due. -/
  pending : List Interrupt
  interruptsTaken : Nat

namespace Machine

/-- A machine with interrupts enabled and an empty stack. -/
def create (window windowSize bankSelect : UInt16) : Machine :=
  { bus := .create window windowSize bankSelect, regs := {}, symbols := ∅, steps := 0,
    stepLimit := 1000000, minSp := 0xFF, pending := [], interruptsTaken := 0 }

def defineSymbol (m : Machine) (name : String) (address : UInt16) : Machine :=
  { m with symbols := m.symbols.insert name address }

def symbol? (m : Machine) (name : String) : Except MachineFault UInt16 :=
  match m.symbols[name]? with
  | some address => .ok address
  | none => .error (.unknownSymbol name)

def peek (m : Machine) (address : UInt16) : UInt8 := m.bus.read address

def poke (m : Machine) (address : UInt16) (value : UInt8) : Machine :=
  { m with bus := m.bus.write address value }

/-- Changes the registers. -/
def mapRegs (m : Machine) (f : Registers → Registers) : Machine := { m with regs := f m.regs }

/-! ### The stack -/

/-- The address that the stack pointer stands for. -/
def stackAddress (sp : UInt8) : UInt16 := 0x0100 ||| sp.toUInt16

def push (m : Machine) (value : UInt8) : Machine :=
  let sp := m.regs.sp
  let next := sp - 1
  { m with
    bus := m.bus.write (stackAddress sp) value
    regs := { m.regs with sp := next }
    minSp := if next < m.minSp then next else m.minSp }

/-- Pushes a word, high byte first. -/
def pushWord (m : Machine) (w : UInt16) : Machine := (m.push (highByte w)).push (lowByte w)

def pull (m : Machine) : UInt8 × Machine :=
  let sp := m.regs.sp + 1
  (m.bus.read (stackAddress sp), { m with regs := { m.regs with sp } })

/-- Pulls a word, low byte first. -/
def pullWord (m : Machine) : UInt16 × Machine :=
  let (lo, m) := m.pull
  let (hi, m) := m.pull
  (word lo hi, m)

/-! ### Interrupts -/

/-- Inserts a request after those that are due no later. -/
def insertRequest (request : Interrupt) : List Interrupt → List Interrupt
  | [] => [request]
  | first :: rest =>
    if first.atStep ≤ request.atStep then first :: insertRequest request rest
    else request :: first :: rest

/-- Requests an interrupt; it waits while interrupts are masked. -/
def raiseInterrupt (m : Machine) (request : Interrupt) : Machine :=
  { m with pending := insertRequest request m.pending }

/-- Enters the handler of the first request if it is due and interrupts are not masked. -/
def pollInterrupt (m : Machine) : Machine :=
  match m.pending with
  | [] => m
  | next :: rest =>
    if next.atStep > m.steps || m.regs.flag .i then m
    else
      let status := Registers.pulledStatus m.regs.p
      let m := (m.pushWord m.regs.pc).push status
      { m with
        pending := rest
        regs := { m.regs.setFlag .i true with pc := next.handler }
        interruptsTaken := m.interruptsTaken + 1 }

/-! ### Reports -/

/-- The letters of the flags that are set, among those that instructions work with. -/
def flagLetters (m : Machine) : String :=
  let letters := [(Flag.n, 'N'), (Flag.v, 'V'), (Flag.i, 'I'), (Flag.z, 'Z'), (Flag.c, 'C')]
  String.ofList ((letters.filter fun (f, _) => m.regs.flag f).map (·.2))

/-- The registers, counters and the selected bank. -/
def toJson (m : Machine) : Json :=
  .obj [("a", .ofUInt8 m.regs.a), ("x", .ofUInt8 m.regs.x), ("y", .ofUInt8 m.regs.y),
    ("sp", .ofUInt8 m.regs.sp), ("p", .ofUInt8 m.regs.p), ("pc", .ofUInt16 m.regs.pc),
    ("flags", .str m.flagLetters), ("steps", .ofNat m.steps), ("min_sp", .ofUInt8 m.minSp),
    ("taken", .ofNat m.interruptsTaken), ("bank", .ofUInt8 m.bus.selected)]

end Machine

end Codegen6502
