import Codegen6502.Liveness.Flow
import Codegen6502.Total

/-!
# Liveness

An item is live after a line if some way onwards uses it before overwriting it.  The sets of live
items are the least ones that satisfy the flow equations; they are found by sweeping backwards over
the code until nothing changes.

The interval of a virtual register runs from the first line that concerns it to the last.  A value
that is live at the head of a loop stays live over all of it.
-/

namespace Codegen6502

/-- The live items of every line. -/
structure Liveness where
  graph : Array FlowNode
  /-- What is live before each line, and last what the exit sequence reads. -/
  before : Array LiveSet
  /-- What is live after each line. -/
  after : Array LiveSet

namespace Liveness

/-! ### The equations -/

/-- What is live after a node, from what is live before its successors. -/
def outOf (before : Array LiveSet) (node : FlowNode) : LiveSet :=
  node.next.foldl (fun s j => s.union (before.getD j {})) {}

/-- What is live before a node. -/
def inOf (before : Array LiveSet) (node : FlowNode) : LiveSet :=
  ((outOf before node).diff node.defs).union node.uses

/-- Brings the set of one line up to date. -/
def update (graph : Array FlowNode) (before : Array LiveSet) (i : Nat) : Array LiveSet :=
  match graph[i]? with
  | some node => before.setIfInBounds i (inOf before node)
  | none => before

/-- Brings the sets of all lines up to date, the last line first. -/
def sweep (graph : Array FlowNode) (before : Array LiveSet) : Array LiveSet :=
  (List.range graph.size).reverse.foldl (update graph) before

/-- Sweeps until nothing changes. -/
def settle (graph : Array FlowNode) : Nat → Array LiveSet → Array LiveSet
  | 0, before => before
  | bound + 1, before =>
    let after := sweep graph before
    if after = before then before else settle graph bound after

/-- Enough sweeps: each but the last adds an item that is used somewhere to the set of some line. -/
def sweepBound (graph : Array FlowNode) (exit : LiveSet) : Nat :=
  graph.size * (totalOf (fun node => node.uses.items.length) graph.toList + exit.items.length) + 1

/-- The liveness of selected code; `exit` is what the exit sequence reads. -/
def compute (code : List Line) (calls : Std.TreeMap Nat CallTarget) (exit : RegSet) :
    Compile Liveness := do
  let graph ← flowGraph code calls
  let exit := LiveSet.ofRegs exit
  let start := (Array.replicate graph.size LiveSet.empty).push exit
  let before := settle graph (sweepBound graph exit) start
  return { graph, before, after := graph.map (outOf before) }

/-! ### Answers -/

def liveIn (l : Liveness) (i : Nat) : LiveSet := l.before.getD i {}

def liveOut (l : Liveness) (i : Nat) : LiveSet := l.after.getD i {}

/-- Whether an item is live after a line. -/
def isLiveOut (l : Liveness) (i : Nat) (item : Item) : Bool := (l.liveOut i).contains item

/-- Whether a line overwrites an item. -/
def writes (l : Liveness) (i : Nat) (item : Item) : Bool :=
  match l.graph[i]? with
  | some node => node.defs.contains item
  | none => false

end Liveness

/-! ### Intervals -/

/-- An inclusive range of lines. -/
structure Interval where
  first : Nat
  last : Nat
  deriving DecidableEq

namespace Interval

def overlaps (a b : Interval) : Bool := a.first ≤ b.last && b.first ≤ a.last

/-- The least interval with one more line; no interval counts as the empty one. -/
def cover (interval? : Option Interval) (i : Nat) : Interval :=
  match interval? with
  | some a => ⟨min a.first i, max a.last i⟩
  | none => ⟨i, i⟩

end Interval

namespace Liveness

/-- The lines that concern a virtual register: it is live there, read or written. -/
def concerns (l : Liveness) : List (UInt32 × Nat) :=
  l.graph.toList.zipIdx.flatMap fun (node, i) =>
    [l.liveIn i, node.uses, node.defs, l.liveOut i].flatMap fun s =>
      s.vregs.map fun v => (v.index, i)

/-- Both ends of every jump back, for each virtual register that is live at its head. -/
def loopEnds (l : Liveness) : List (UInt32 × Nat) :=
  l.graph.toList.zipIdx.flatMap fun (node, i) =>
    (node.next.filter (· ≤ i)).flatMap fun head =>
      (l.liveIn head).vregs.flatMap fun v => [(v.index, head), (v.index, i)]

/-- The interval of every virtual register. -/
def intervals (l : Liveness) : Std.TreeMap UInt32 Interval :=
  (l.concerns ++ l.loopEnds).foldl (fun m (v, i) => m.insert v (.cover m[v]? i)) ∅

end Liveness

end Codegen6502
