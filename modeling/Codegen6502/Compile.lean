import Codegen6502.Allocation.Basic
import Codegen6502.CallGraph
import Codegen6502.Emission.FunctionWriter
import Codegen6502.Emission.Target

/-!
# Compiling programs

1. Every function is bound to its calling shape.
2. Instructions are selected for every function with a body.
3. Registers are allocated, callees before callers, so that what a call overwrites is known when its
   caller is allocated.  Within a recursion it is not, and the worst is assumed.
4. Interrupt handlers get what they have to save, and memory to save it in.
5. Data, external symbols, support routines and functions are emitted.
6. The target makes its output of the emission.
-/

namespace Codegen6502

/-- A program on its way through one compilation. -/
structure Compilation where
  convention : Convention
  bindings : Std.TreeMap String Binding
  selected : Std.TreeMap String SelectedCode
  /-- The support routines in use, in order. -/
  routines : List Routine

namespace Compilation

/-! ### Binding and selection -/

/-- The functions with a body. -/
def defined (p : Program) : List FunctionDef := p.functions.filter fun f => !f.isExternal

/-- The functions that are only declared. -/
def declared (p : Program) : List FunctionDef := p.functions.filter (·.isExternal)

def bindAll (c : Convention) (p : Program) : Compile (Std.TreeMap String Binding) :=
  p.functions.foldlM (fun bindings f => do
    let b ← c.bind f
    if bindings.contains f.name then
      throw (.invalidProgram f.name "function defined more than once")
    return bindings.insert f.name b) ∅

def selectAll (c : Convention) (bindings : Std.TreeMap String Binding) (limits : Limits)
    (p : Program) : Compile (Std.TreeMap String SelectedCode) :=
  (defined p).foldlM (fun selected f => do
    return selected.insert f.name (← selectFunction c bindings limits f)) ∅

/-- Binds and selects everything. -/
def start (c : Convention) (limits : Limits) (p : Program) : Compile Compilation := do
  let bindings ← bindAll c p
  let selected ← selectAll c bindings limits p
  let routines := Routine.withDependencies (selected.values.flatMap (·.routines))
  return { convention := c, bindings, selected, routines }

/-! ### Calls -/

/-- Who calls whom. -/
def callGraph (x : Compilation) (p : Program) : CallGraph :=
  let g : CallGraph := p.functions.foldl (fun g f => g.addNode f.name) {}
  let g := x.selected.toList.foldl (fun g (name, s) =>
    s.callees.foldl (fun g callee => g.addEdge name callee) g) g
  x.routines.foldl (fun g r =>
    r.dependencies.foldl (fun g d => g.addEdge r.name d.name) g) g

/-- What a support routine overwrites. -/
def routineClobbers (x : Compilation) (r : Routine) : Clobbers :=
  r.clobbers x.convention.zeroPage x.convention.bankSelect

/-- What is known before any allocation: support routines, and external functions by their
declaration. -/
def initialClobbers (x : Compilation) (p : Program) : ClobberTable :=
  let unknown := Clobbers.everything x.convention.zeroPage
  let t := x.routines.foldl (fun (t : ClobberTable) r => t.setFixed r.name (x.routineClobbers r))
    { unknown }
  (declared p).foldl (fun t f =>
    let set := (x.bindings[f.name]?.bind (·.declaredClobbers)).getD unknown
    t.setFixed f.name set) t

/-- Everything that a call may overwrite. -/
def targetClobbers (x : Compilation) (t : ClobberTable) : CallTarget → Clobbers
  | .function name => t.closedOrUnknown name
  | .trampoline bank callee =>
    ((x.routineClobbers (.trampoline bank)).union (x.routineClobbers .trampolineReturn)).union
      (t.closedOrUnknown callee)
  | .routine r => x.routineClobbers r
  | .fixed _ clobbers => clobbers

/-- Everything that each call of a function may overwrite. -/
def callClobbers (x : Compilation) (t : ClobberTable) (s : SelectedCode) :
    Std.TreeMap Nat Clobbers :=
  s.calls.map fun _ target => x.targetClobbers t target

/-! ### Allocation -/

/-- The functions allocated so far and what they overwrite. -/
structure Progress where
  clobbers : ClobberTable
  allocated : Std.TreeMap String AllocatedCode := ∅

/-- Allocates one function, if it has a body. -/
def allocateFunction (x : Compilation) (state : Progress) (name : String) : Compile Progress :=
  match x.selected[name]?, x.bindings[name]? with
  | some s, some b => do
    let a ← allocate x.convention.zeroPage s b (x.callClobbers state.clobbers s)
    return {
      clobbers := state.clobbers.setOwn name a.ownClobbers
      allocated := state.allocated.insert name a }
  | _, _ => .ok state

/-- Allocates a component of the call graph and closes its sets. -/
def allocateComponent (x : Compilation) (g : CallGraph) (state : Progress)
    (component : List String) : Compile Progress := do
  let state ← component.foldlM x.allocateFunction state
  if component.any fun name => x.selected.contains name then
    return { state with clobbers := state.clobbers.close g component }
  else return state

def allocateAll (x : Compilation) (p : Program) : Compile Progress :=
  let g := x.callGraph p
  g.components.foldlM (x.allocateComponent g) { clobbers := x.initialClobbers p }

/-! ### Interrupt handlers -/

/-- What each handler saves, and the data objects with the save areas. -/
structure Saving where
  data : DataObjects
  saves : Std.TreeMap String Clobbers := ∅

/-- Adds the save area of a function, if it is a handler. -/
def saveHandler (x : Compilation) (clobbers : ClobberTable) (s : Saving)
    (entry : String × AllocatedCode) : Compile Saving := do
  let (name, a) := entry
  match x.bindings[name]?.filter (·.isInterrupt) with
  | some b =>
    let set := Convention.interruptSaves (clobbers.closedOrUnknown name) a.frameBytes
    let data ← s.data.addSaveArea name (Convention.saveAreaSize b set)
    return { data, saves := s.saves.insert name set }
  | none => return s

/-! ### Emission -/

def emitRoutine (x : Compilation) (r : Routine) : Emit Unit := do
  Emission.beginFunction { name := r.name } []
  Emission.pushAll (r.code x.convention.zeroPage x.convention.bankSelect)
  Emission.endFunction []

def emitFunction (x : Compilation) (allocated : Std.TreeMap String AllocatedCode)
    (saves : Std.TreeMap String Clobbers) (f : FunctionDef) : Emit Unit :=
  match allocated[f.name]?, x.bindings[f.name]? with
  | some a, some b => writeFunction b a.frameBytes (saves.getD f.name {}) a.code
  | _, _ => throw (.internal ("'" ++ f.name ++ "' was never allocated"))

/-- The data objects and the external symbols with an address. -/
def withData (p : Program) (data : DataObjects) : Emission :=
  let e := data.objects.foldl Emission.addData {}
  (declared p).foldl (fun e f =>
    match f.address with
    | some address => e.addExternal f.name address
    | none => e) e

/-- Emits the code. -/
def emitAll (x : Compilation) (p : Program) (allocated : Std.TreeMap String AllocatedCode)
    (saves : Std.TreeMap String Clobbers) : Emit Unit := do
  x.routines.forM x.emitRoutine
  (defined p).forM (x.emitFunction allocated saves)

end Compilation

open Compilation in
/-- Emits a program for a target. -/
def emitProgram (target : Target) (options : Options) (p : Program) : Compile Emission := do
  let data ← p.globals.foldlM DataObjects.addGlobal {}
  let c : Convention :=
    { zeroPage := options.zeroPage, banking := target.switchesBanks, target := target.name,
      bankSelect := options.map.bankSelect }
  let x ← Compilation.start c options.limits p
  let progress ← x.allocateAll p
  let saving ← progress.allocated.toList.foldlM (x.saveHandler progress.clobbers) { data }
  let emission := withData p saving.data
  let (_, emission) ← (x.emitAll p progress.allocated saving.saves).outcome emission
  return emission

/-- Compiles a program for the target of a name.  Options and target are looked at before the
program is. -/
def compile (targetName : String) (options : Options) (p : Program) : Compile Output := do
  options.validate
  let target ← Target.ofName targetName
  let emission ← emitProgram target options p
  emission.output target options.map

end Codegen6502
