import Codegen6502.Clobbers
import Codegen6502.Program.Function
import Codegen6502.Total
import Std.Data.TreeMap

/-!
# The call graph

Who calls whom, and the strongly connected components of that relation with callees in front of
their callers.

The components come from a depth-first search: a component is placed where the last of its members
is finished.  What belongs together is decided by mutual reachability.
-/

namespace Codegen6502

structure CallGraph where
  /-- The callees of each node, in order. -/
  edges : Std.TreeMap String (List String) := ∅

namespace CallGraph

def callees (g : CallGraph) (name : String) : List String := g.edges.getD name []

def nodes (g : CallGraph) : List String := g.edges.keys

def addNode (g : CallGraph) (name : String) : CallGraph :=
  ⟨g.edges.insertIfNew name []⟩

def addEdge (g : CallGraph) (caller callee : String) : CallGraph :=
  let g := g.addNode callee
  ⟨g.edges.insert caller (sortedNames (callee :: g.callees caller))⟩

/-! ### Depth-first search -/

/-- What a search has still to do. -/
inductive Task where
  | enter (name : String)
  | leave (name : String)

/-- Enough steps for a search: every node is entered from outside, along each edge and left once. -/
def searchBound (g : CallGraph) : Nat :=
  2 * g.nodes.length + totalOf (fun n => (g.callees n).length) g.nodes + 1

/-- Works off tasks; finished nodes come last first. -/
def search (g : CallGraph) : Nat → List Task → List String → List String → List String
  | 0, _, _, finished => finished
  | _, [], _, finished => finished
  | bound + 1, .leave n :: rest, seen, finished => g.search bound rest seen (n :: finished)
  | bound + 1, .enter n :: rest, seen, finished =>
    if seen.contains n then g.search bound rest seen finished
    else g.search bound ((g.callees n).map .enter ++ .leave n :: rest) (n :: seen) finished

/-- All nodes, the one finished last first. -/
def finishOrder (g : CallGraph) : List String :=
  g.search g.searchBound (g.nodes.map .enter) [] []

/-- The nodes that can be reached from `name`, itself included. -/
def reachable (g : CallGraph) (name : String) : List String :=
  g.search g.searchBound [.enter name] [] []

/-! ### Components -/

/-- Splits a finish order into classes: the class of the node finished last comes last. -/
def classes (together : String → String → Bool) : List String → List (List String)
  | [] => []
  | n :: rest =>
    classes together (rest.filter fun m => !together n m) ++
      [sortedNames (n :: rest.filter fun m => together n m)]
termination_by names => names.length
decreasing_by
  have h := List.length_filter_le (fun m => !together n m.val) rest.attach
  simp only [List.length_attach] at h
  simp only [List.length_unattach, List.length_cons]
  exact Nat.lt_succ_of_le h

/-- The strongly connected components, callees first. -/
def components (g : CallGraph) : List (List String) :=
  let reach : Std.TreeMap String (List String) :=
    g.nodes.foldl (fun t n => t.insert n (g.reachable n)) ∅
  let reaches (a b : String) : Bool := (reach.getD a []).contains b
  classes (fun a b => reaches a b && reaches b a) g.finishOrder

/-- Whether the first component with `a` also has `b`. -/
def inSameComponent (components : List (List String)) (a b : String) : Bool :=
  match components.find? fun c => c.contains a with
  | some c => c.contains b
  | none => false

end CallGraph

/-! ### Transitive clobber sets -/

/-- What each function overwrites by itself and together with everything it calls. -/
structure ClobberTable where
  ownSets : Std.TreeMap String Clobbers := ∅
  closedSets : Std.TreeMap String Clobbers := ∅
  /-- Assumed of callees that nothing is known about. -/
  unknown : Clobbers

namespace ClobberTable

/-- Records what a function overwrites by itself. -/
def setOwn (a : ClobberTable) (name : String) (set : Clobbers) : ClobberTable :=
  { a with ownSets := a.ownSets.insert name set }

/-- Records a set that is final. -/
def setFixed (a : ClobberTable) (name : String) (set : Clobbers) : ClobberTable :=
  { a with ownSets := a.ownSets.insert name set, closedSets := a.closedSets.insert name set }

def own? (a : ClobberTable) (name : String) : Option Clobbers := a.ownSets[name]?

def closed? (a : ClobberTable) (name : String) : Option Clobbers := a.closedSets[name]?

/-- The closed set, or the worst case when there is none yet. -/
def closedOrUnknown (a : ClobberTable) (name : String) : Clobbers :=
  a.closedSets.getD name a.unknown

/-- Adds the sets of a member's callees to its own. -/
def absorb (g : CallGraph) (a : ClobberTable) (member : String) : ClobberTable :=
  let set := (g.callees member).foldl (fun s callee => s.union (a.closedOrUnknown callee))
    (a.closedSets.getD member {})
  { a with closedSets := a.closedSets.insert member set }

/-- Whether the sets of the members are the same in both analyses. -/
def agreeOn (members : List String) (a b : ClobberTable) : Bool :=
  members.all fun m => a.closed? m = b.closed? m

/-- Repeats rounds until no member's set grows. -/
def settle (g : CallGraph) (members : List String) : Nat → ClobberTable → ClobberTable
  | 0, a => a
  | bound + 1, a =>
    let next := members.foldl (absorb g) a
    if agreeOn members a next then next else settle g members bound next

/-- Closes one component.  Each round but the last adds one of three registers or 256 cells to some
member, which bounds the rounds. -/
def close (a : ClobberTable) (g : CallGraph) (members : List String) : ClobberTable :=
  let start := members.foldl (fun b m =>
    { b with closedSets := b.closedSets.insert m (a.ownSets.getD m a.unknown) }) a
  settle g members (members.length * 259 + 1) start

/-- Every closed set computed from the own sets alone. -/
def recompute (a : ClobberTable) (g : CallGraph) : Std.TreeMap String Clobbers :=
  (g.components.foldl (fun (b : ClobberTable) c => b.close g c) { a with closedSets := ∅ }).closedSets

end ClobberTable

end Codegen6502
