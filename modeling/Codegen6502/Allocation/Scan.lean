import Codegen6502.Allocation.Location

/-!
# Assigning locations

Virtual registers are visited in the order in which their intervals start.  Each one gets the first
of these that can hold it: a register, a free cell of the pool, a byte of the stack frame.

A register can hold a value only if every access is a plain load or store of A, which then
disappears or becomes a transfer, and if nothing disturbs the register while the value is live.
-/

namespace Codegen6502

namespace Allocation

/-- What an assignment depends on. -/
structure Problem where
  code : List Line
  live : Liveness
  zeroPage : ZeroPage
  /-- What each call may overwrite, by the index of its line. -/
  callClobbers : Std.TreeMap Nat Clobbers
  /-- Cells of the pool that must not be handed out. -/
  reserved : CellSet
  /-- The frame bytes that locals take up. -/
  locals : UInt8
  /-- Whether X is free; it is not where the frame is addressed through it. -/
  useX : Bool

/-- A value together with where it has been put. -/
structure Placed where
  interval : Interval
  location : Location

namespace Problem

/-- The accesses to a virtual register: index and mnemonic. -/
def accesses (p : Problem) (v : VReg) : List (Nat × Opcode) :=
  p.code.zipIdx.filterMap fun (line, i) =>
    match line with
    | .op opcode (.virtual w) => if w = v then some (i, opcode) else none
    | _ => none

/-! ### Registers -/

/-- Whether a register is undisturbed while a value is live: no line but an access writes it, and
nothing else waits in X or Y. -/
def undisturbed (p : Problem) (v : VReg) (r : Register) (own : List Nat) : Bool :=
  (List.range p.code.length).all fun i =>
    !p.live.isLiveOut i (.vreg v) ||
      ((own.contains i || !p.live.writes i (.reg r)) &&
        (r = .a || !p.live.isLiveOut i (.reg r)))

/-- Whether an access may be replaced.  A load from A that disappears no longer sets N and Z; a
transfer to X or Y sets them where the store did not. -/
def replaceable (p : Problem) (r : Register) (i : Nat) (opcode : Opcode) : Bool :=
  match r, opcode with
  | .a, .lda => !p.live.isLiveOut i .nz
  | .a, _ => true
  | _, .sta => !p.live.isLiveOut i .nz && !p.live.isLiveOut i (.reg r)
  | _, _ => true

/-- Whether a register can hold a value for its whole life. -/
def canHold (p : Problem) (v : VReg) (r : Register) (accesses : List (Nat × Opcode)) : Bool :=
  p.undisturbed v r (accesses.map (·.1)) && accesses.all fun (i, opcode) => p.replaceable r i opcode

/-- The first register that can hold a value. -/
def register? (p : Problem) (v : VReg) (interval : Interval) (active : List Placed) :
    Option Register :=
  let accesses := p.accesses v
  let plain := accesses.all fun (_, opcode) => opcode = .lda || opcode = .sta
  if accesses.isEmpty || !plain then none
  else Register.all.find? fun r =>
    (r ≠ .x || p.useX) &&
      !(active.any fun a => a.location = .reg r && a.interval.overlaps interval) &&
      p.canHold v r accesses

/-! ### Cells and frame bytes -/

/-- The first free cell of the pool.  A cell that a call overwrites cannot hold a value that is live
after the call. -/
def cell? (p : Problem) (v : VReg) (active : List Placed) : Option UInt8 :=
  let taken := active.filterMap fun a => a.location.cell?
  let clobbers := p.callClobbers.toList.filterMap fun (i, set) =>
    if p.live.isLiveOut i (.vreg v) then some set.cells else none
  let banned := (clobbers.foldl CellSet.union p.reserved).union (.ofList taken)
  p.zeroPage.pool.find? fun cell => !banned.contains cell

/-- The first slot whose last value is dead, or a new one; `ends` is the end of the last interval in
each slot. -/
def slot (ends : List Nat) (interval : Interval) : Nat × List Nat :=
  match ends.findIdx? (· < interval.first) with
  | some k => (k, ends.set k interval.last)
  | none => (ends.length, ends ++ [interval.last])

/-- The frame byte of a slot; slots come after the locals. -/
def frameByte (p : Problem) (slot : Nat) : UInt8 :=
  UInt8.ofNat (min (p.locals.toNat + slot % 256) 255)

end Problem

/-! ### The scan -/

/-- The values placed so far. -/
structure Scan where
  locations : Locations := ∅
  /-- Those that may still be live. -/
  active : List Placed := []
  /-- The end of the last interval in each slot of the frame. -/
  slotEnds : List Nat := []

/-- Places one value. -/
def Scan.place (p : Problem) (s : Scan) (entry : UInt32 × Interval) : Scan :=
  let (index, interval) := entry
  let v : VReg := ⟨index⟩
  let active := s.active.filter fun a => interval.first ≤ a.interval.last
  let (location, slotEnds) : Location × List Nat :=
    match p.register? v interval active with
    | some r => (.reg r, s.slotEnds)
    | none =>
      match p.cell? v active with
      | some cell => (.zeroPage cell, s.slotEnds)
      | none =>
        let (slot, slotEnds) := Problem.slot s.slotEnds interval
        (.stack (p.frameByte slot), slotEnds)
  { locations := s.locations.insert index location
    active := active ++ [⟨interval, location⟩]
    slotEnds }

/-- The virtual registers in the order they are visited: by the start of the interval, then by
number. -/
def Problem.order (p : Problem) : List (UInt32 × Interval) :=
  p.live.intervals.toList.mergeSort fun a b => a.2.first ≤ b.2.first

/-- Places all values. -/
def Problem.scan (p : Problem) : Scan := p.order.foldl (Scan.place p) {}

end Allocation

end Codegen6502
