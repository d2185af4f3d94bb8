import Codegen6502.Compile
import Codegen6502.Proofs.Calls.Components
import Codegen6502.Proofs.Computations
import Mathlib.Tactic.SplitIfs

/-!
# The stages of a compilation

A compilation that succeeds has gone through a number of stages, and what the later ones started
from is what the earlier ones ended with.

* `emitProgram_eq`, `compile_stages`: a compilation is its stages (`Stages`);
* `bindAll_spec`, `selectAll_spec`: the tables of bindings and selected code (`Tabulates`);
* `start_spec`: what binding and selection come up with (`Started`);
* `callGraph_spec`: the call graph.
-/

namespace Codegen6502.Proofs.Calls.Pipeline

open Compilation Computations Components Search

/-- What a compilation has come up with before the output is made. -/
structure Stages where
  compilation : Compilation
  progress : Progress
  saving : Saving
  emission : Emission

/-- The conventions under which a target is compiled for. -/
def conventionOf (target : Target) (options : Options) : Convention :=
  { zeroPage := options.zeroPage, banking := target.switchesBanks, target := target.name,
    bankSelect := options.map.bankSelect }

/-- The stages of an emission. -/
def stages (target : Target) (options : Options) (p : Program) : Compile Stages := do
  let data ← p.globals.foldlM DataObjects.addGlobal {}
  let x ← Compilation.start (conventionOf target options) options.limits p
  let progress ← x.allocateAll p
  let saving ← progress.allocated.toList.foldlM (x.saveHandler progress.clobbers) { data }
  let (_, emission) ← (x.emitAll p progress.allocated saving.saves).outcome
    (withData p saving.data)
  return { compilation := x, progress, saving, emission }

theorem emitProgram_eq (target : Target) (options : Options) (p : Program) :
    emitProgram target options p = (·.emission) <$> stages target options p := by
  unfold emitProgram stages conventionOf
  simp only [map_bind, map_pure]

/-- **A compilation that succeeds** has valid options and gone through its stages. -/
theorem compile_stages {name : String} {options : Options} {p : Program} {out : Output}
    (h : compile name options p = .ok out) :
    ∃ target s, Target.ofName name = .ok target ∧ options.validate = .ok () ∧
      stages target options p = .ok s ∧ s.emission.output target options.map = .ok out := by
  unfold compile at h
  obtain ⟨_, hvalid, h⟩ := bind_eq_ok.mp h
  obtain ⟨target, htarget, h⟩ := bind_eq_ok.mp h
  obtain ⟨e, he, hout⟩ := bind_eq_ok.mp h
  rw [emitProgram_eq] at he
  cases hs : stages target options p with
  | error error => rw [hs] at he; cases he
  | ok s =>
    rw [hs] at he
    cases he
    exact ⟨target, s, htarget, hvalid, hs, hout⟩

/-- The stages one by one. -/
structure Passed (target : Target) (options : Options) (p : Program) (s : Stages) : Prop where
  started : Compilation.start (conventionOf target options) options.limits p = .ok s.compilation
  allocated : s.compilation.allocateAll p = .ok s.progress
  saved : ∃ data, s.progress.allocated.toList.foldlM
    (s.compilation.saveHandler s.progress.clobbers) { data } = .ok s.saving
  emitted : (s.compilation.emitAll p s.progress.allocated s.saving.saves).outcome
    (withData p s.saving.data) = .ok ((), s.emission)

theorem passed {target : Target} {options : Options} {p : Program} {s : Stages}
    (h : stages target options p = .ok s) : Passed target options p s := by
  unfold stages at h
  obtain ⟨data, -, h⟩ := bind_eq_ok.mp h
  obtain ⟨x, hx, h⟩ := bind_eq_ok.mp h
  obtain ⟨progress, hprogress, h⟩ := bind_eq_ok.mp h
  obtain ⟨saving, hsaving, h⟩ := bind_eq_ok.mp h
  obtain ⟨⟨_, e⟩, he, h⟩ := bind_eq_ok.mp h
  cases h
  exact ⟨hx, hprogress, ⟨data, hsaving⟩, he⟩

/-! ### Tables -/

/-- A table with one entry for each of some named elements. -/
structure Tabulates {α β : Type} (name : α → String) (make : α → Compile β) (elements : List α)
    (table : Std.TreeMap String β) : Prop where
  nodup : (elements.map name).Nodup
  get_of_mem : ∀ a ∈ elements, ∃ b, make a = .ok b ∧ table[name a]? = some b
  mem_of_get : ∀ n b, table[n]? = some b → ∃ a ∈ elements, name a = n ∧ make a = .ok b

theorem Tabulates.insert {α β : Type} {name : α → String} {make : α → Compile β} {done : List α}
    {table : Std.TreeMap String β} (h : Tabulates name make done table) {a : α} {b : β}
    (hmake : make a = .ok b) (hnew : name a ∉ done.map name) :
    Tabulates name make (done ++ [a]) (table.insert (name a) b) where
  nodup := by
    rw [List.map_append, List.nodup_append]
    refine ⟨h.nodup, List.nodup_singleton _, fun n hn m hm hnm => ?_⟩
    rw [List.map_singleton, List.mem_singleton] at hm
    exact hnew (hm ▸ hnm ▸ hn)
  get_of_mem := by
    intro a' ha'
    rcases List.mem_append.mp ha' with ha' | ha'
    · obtain ⟨b', hb', hget⟩ := h.get_of_mem a' ha'
      refine ⟨b', hb', ?_⟩
      rw [Std.TreeMap.getElem?_insert, if_neg, hget]
      intro heq
      rw [Std.LawfulEqCmp.eq_of_compare heq] at hnew
      exact hnew (List.mem_map.mpr ⟨a', ha', rfl⟩)
    · rw [List.mem_singleton.mp ha']
      exact ⟨b, hmake, Std.TreeMap.getElem?_insert_self⟩
  mem_of_get := by
    intro n b' hget
    rw [Std.TreeMap.getElem?_insert] at hget
    split at hget
    · rename_i heq
      cases hget
      exact ⟨a, by simp, Std.LawfulEqCmp.eq_of_compare heq, hmake⟩
    · obtain ⟨a', ha', hname, hmake'⟩ := h.mem_of_get n b' hget
      exact ⟨a', by simp [ha'], hname, hmake'⟩

theorem Tabulates.empty {α β : Type} (name : α → String) (make : α → Compile β) :
    Tabulates name make [] ∅ :=
  ⟨by simp, by simp, by simp⟩

/-- The bindings of a program. -/
theorem bindAll_spec {c : Convention} {p : Program} {bindings : Std.TreeMap String Binding}
    (h : bindAll c p = .ok bindings) :
    Tabulates FunctionDef.name c.bind p.functions bindings := by
  refine foldlM_invariant h (fun done t => Tabulates FunctionDef.name c.bind done t)
    (Tabulates.empty _ _) ?_
  intro done f rest t t' _ ht hstep
  obtain ⟨b, hb, hstep⟩ := bind_eq_ok.mp hstep
  split at hstep
  · cases hstep
  · rename_i hnew
    cases hstep
    refine ht.insert hb fun hf => hnew ?_
    obtain ⟨f', hf', hname⟩ := List.mem_map.mp hf
    obtain ⟨b', -, hget⟩ := ht.get_of_mem f' hf'
    rw [Std.TreeMap.contains_eq_isSome_getElem?, ← hname, hget]
    rfl

/-- The selected code of a program whose functions have names of their own. -/
theorem selectAll_spec {c : Convention} {bindings : Std.TreeMap String Binding} {limits : Limits}
    {p : Program} {selected : Std.TreeMap String SelectedCode}
    (hnames : (p.functions.map (·.name)).Nodup)
    (h : selectAll c bindings limits p = .ok selected) :
    Tabulates FunctionDef.name (selectFunction c bindings limits) (defined p) selected := by
  have hdefined : ((defined p).map (·.name)).Nodup :=
    hnames.sublist ((List.filter_sublist).map _)
  refine foldlM_invariant h
    (fun done t => Tabulates FunctionDef.name (selectFunction c bindings limits) done t)
    (Tabulates.empty _ _) ?_
  intro done f rest t t' hsplit ht hstep
  obtain ⟨s, hs, hstep⟩ := bind_eq_ok.mp hstep
  cases hstep
  refine ht.insert hs fun hf => ?_
  rw [hsplit, List.map_append, List.nodup_append] at hdefined
  exact hdefined.2.2 _ hf _ (List.mem_map.mpr ⟨f, by simp, rfl⟩) rfl

/-- What binding and selection come up with. -/
structure Started (c : Convention) (limits : Limits) (p : Program) (x : Compilation) : Prop where
  convention_eq : x.convention = c
  bindings : Tabulates FunctionDef.name c.bind p.functions x.bindings
  selected : Tabulates FunctionDef.name (selectFunction c x.bindings limits) (defined p) x.selected
  routines_eq : x.routines = Routine.withDependencies (x.selected.values.flatMap (·.routines))

theorem start_spec {c : Convention} {limits : Limits} {p : Program} {x : Compilation}
    (h : Compilation.start c limits p = .ok x) : Started c limits p x := by
  unfold Compilation.start at h
  obtain ⟨bindings, hbind, h⟩ := bind_eq_ok.mp h
  obtain ⟨selected, hselect, h⟩ := bind_eq_ok.mp h
  cases h
  have hb := bindAll_spec hbind
  exact ⟨rfl, hb, selectAll_spec hb.nodup hselect, rfl⟩

/-! ### Bindings -/

/-- What a binding keeps of its function. -/
theorem bind_spec {c : Convention} {f : FunctionDef} {b : Binding} (h : c.bind f = .ok b) :
    b.name = f.name ∧ b.isExternal = f.isExternal ∧ b.entry = f.signature.entry ∧
      b.declaredClobbers = f.signature.clobbers.map DeclaredClobbers.toClobbers := by
  unfold Convention.bind at h
  obtain ⟨b', hb', h⟩ := bind_eq_ok.mp h
  have hsig : b'.name = f.signature.name ∧ b'.entry = f.signature.entry ∧
      b'.declaredClobbers = f.signature.clobbers.map DeclaredClobbers.toClobbers := by
    unfold Convention.bindSignature at hb'
    simp only [bind, Except.bind, pure, Except.pure, throw, throwThe, MonadExceptOf.throw] at hb'
    split at hb'
    · cases hb'
    · split at hb'
      · split at hb'
        · cases hb'
        · split_ifs at hb' <;> cases hb' <;> exact ⟨rfl, rfl, rfl⟩
      · cases hb'
  simp only [pure, Except.pure, throw, throwThe, MonadExceptOf.throw] at h
  split at h
  · cases h
  · cases h
    exact ⟨hsig.1, rfl, hsig.2.1, hsig.2.2⟩

variable {c : Convention} {limits : Limits} {p : Program} {x : Compilation}

/-- A function whose code has been selected is a function of the program with a body. -/
theorem Started.binding_of_selected (h : Started c limits p x) {n : String} {s : SelectedCode}
    (hs : x.selected[n]? = some s) :
    ∃ b, x.bindings[n]? = some b ∧ b.name = n ∧ b.isExternal = false := by
  obtain ⟨f, hf, hname, -⟩ := h.selected.mem_of_get n s hs
  obtain ⟨hf, hbody⟩ := List.mem_filter.mp hf
  obtain ⟨b, hb, hget⟩ := h.bindings.get_of_mem f hf
  obtain ⟨hbname, hext, -⟩ := bind_spec hb
  exact ⟨b, hname ▸ hget, hbname.trans hname, by simpa [hext] using hbody⟩

theorem Started.selected_of_binding (h : Started c limits p x) {n : String} {b : Binding}
    (hb : x.bindings[n]? = some b) (hbody : b.isExternal = false) :
    ∃ s, x.selected[n]? = some s := by
  obtain ⟨f, hf, hname, hbind⟩ := h.bindings.mem_of_get n b hb
  obtain ⟨-, hext, -⟩ := bind_spec hbind
  obtain ⟨s, -, hget⟩ := h.selected.get_of_mem f
    (List.mem_filter.mpr ⟨hf, by simp [← hext, hbody]⟩)
  exact ⟨s, hname ▸ hget⟩

/-- A declared function has no selected code, and no other function has its name. -/
theorem Started.not_selected_of_declared (h : Started c limits p x) {f : FunctionDef}
    (hf : f ∈ declared p) : x.selected[f.name]? = none := by
  cases hs : x.selected[f.name]? with
  | none => rfl
  | some s =>
    obtain ⟨f', hf', hname, -⟩ := h.selected.mem_of_get f.name s hs
    obtain ⟨hmem, hext⟩ := List.mem_filter.mp hf
    obtain ⟨hmem', hbody⟩ := List.mem_filter.mp hf'
    rw [List.inj_on_of_nodup_map h.bindings.nodup hmem' hmem hname] at hbody
    simp [hext] at hbody

/-! ### The call graph -/

theorem edge_addNode {g : CallGraph} {n a b : String} : Edge (g.addNode n) a b ↔ Edge g a b := by
  unfold Edge CallGraph.callees CallGraph.addNode
  rw [Std.TreeMap.getD_insertIfNew]
  split
  · rename_i h
    rw [← Std.LawfulEqCmp.eq_of_compare h.1, Std.TreeMap.getD_eq_fallback h.2]
  · rfl

theorem mem_nodes_addNode {g : CallGraph} {n a : String} :
    a ∈ (g.addNode n).nodes ↔ a = n ∨ a ∈ g.nodes := by
  unfold CallGraph.nodes CallGraph.addNode
  rw [Std.TreeMap.mem_keys, Std.TreeMap.mem_keys, Std.TreeMap.mem_insertIfNew,
    Std.LawfulEqCmp.compare_eq_iff_eq, eq_comm]

theorem edge_addEdge {g : CallGraph} {u v a b : String} :
    Edge (g.addEdge u v) a b ↔ Edge g a b ∨ a = u ∧ b = v := by
  unfold CallGraph.addEdge
  by_cases hua : u = a
  · subst hua
    have hnode : b ∈ (g.addNode v).callees u ↔ b ∈ g.callees u := edge_addNode
    simp only [Edge, CallGraph.callees, Std.TreeMap.getD_insert_self]
    rw [mem_sortedNames, List.mem_cons]
    simp only [CallGraph.callees] at hnode
    rw [hnode]
    grind
  · have hne : ¬ (compare u a = .eq) := by simpa using hua
    have hnode : b ∈ (g.addNode v).callees a ↔ b ∈ g.callees a := edge_addNode
    simp only [Edge, CallGraph.callees, Std.TreeMap.getD_insert, if_neg hne] at hnode ⊢
    rw [hnode]
    simp [Ne.symm hua]

theorem mem_nodes_addEdge {g : CallGraph} {u v a : String} :
    a ∈ (g.addEdge u v).nodes ↔ a = u ∨ a = v ∨ a ∈ g.nodes := by
  have hnode : a ∈ (g.addNode v).nodes ↔ a = v ∨ a ∈ g.nodes := mem_nodes_addNode
  unfold CallGraph.addEdge CallGraph.nodes at *
  rw [Std.TreeMap.mem_keys, Std.TreeMap.mem_insert, ← Std.TreeMap.mem_keys, hnode,
    Std.LawfulEqCmp.compare_eq_iff_eq, eq_comm]

/-- Edges from one node to several. -/
theorem edge_foldl_addEdge {α : Type} (u : String) (target : α → String) (elements : List α)
    (g : CallGraph) (a b : String) :
    (Edge (elements.foldl (fun g v => g.addEdge u (target v)) g) a b ↔
      Edge g a b ∨ a = u ∧ b ∈ elements.map target) ∧
    (Complete g → Complete (elements.foldl (fun g v => g.addEdge u (target v)) g)) ∧
    (a ∈ g.nodes → a ∈ (elements.foldl (fun g v => g.addEdge u (target v)) g).nodes) := by
  induction elements generalizing g with
  | nil => simp
  | cons v rest ih =>
    obtain ⟨hedge, hcomplete, hnodes⟩ := ih (g.addEdge u (target v))
    refine ⟨?_, fun hg => hcomplete fun a b hab => ?_, fun ha => hnodes ?_⟩
    · rw [List.foldl_cons, hedge, edge_addEdge, List.map_cons, List.mem_cons]
      grind
    · rw [mem_nodes_addEdge]
      rcases edge_addEdge.mp hab with hab | ⟨rfl, rfl⟩
      · exact Or.inr (Or.inr (hg a b hab))
      · exact Or.inr (Or.inl rfl)
    · exact mem_nodes_addEdge.mpr (Or.inr (Or.inr ha))

/-- Edges from several nodes. -/
theorem edge_foldl_foldl {α β : Type} (source : α → String) (targets : α → List β)
    (target : β → String) (elements : List α) (g : CallGraph) (a b : String) :
    (Edge (elements.foldl (fun g u =>
        (targets u).foldl (fun g v => g.addEdge (source u) (target v)) g) g) a b ↔
      Edge g a b ∨ ∃ u ∈ elements, a = source u ∧ b ∈ (targets u).map target) ∧
    (Complete g → Complete (elements.foldl (fun g u =>
        (targets u).foldl (fun g v => g.addEdge (source u) (target v)) g) g)) ∧
    (a ∈ g.nodes → a ∈ (elements.foldl (fun g u =>
        (targets u).foldl (fun g v => g.addEdge (source u) (target v)) g) g).nodes) := by
  induction elements generalizing g with
  | nil => simp
  | cons u rest ih =>
    obtain ⟨hedge, hcomplete, hnodes⟩ :=
      ih ((targets u).foldl (fun g v => g.addEdge (source u) (target v)) g)
    obtain ⟨hedge', hcomplete', hnodes'⟩ := edge_foldl_addEdge (source u) target (targets u) g a b
    refine ⟨?_, fun hg => hcomplete (hcomplete' hg), fun ha => hnodes (hnodes' ha)⟩
    rw [List.foldl_cons, hedge, hedge']
    simp [or_assoc]

/-- A call, or a jump to a support routine, in the body of a function. -/
def BodyCalls (x : Compilation) (a b : String) : Prop :=
  ∃ s, x.selected[a]? = some s ∧ b ∈ s.callees

/-- The way from one support routine to another. -/
def Continues (x : Compilation) (a b : String) : Prop :=
  ∃ r ∈ x.routines, a = r.name ∧ b ∈ r.dependencies.map Routine.name

/-- The nodes that come with the functions of a program. -/
theorem nodes_start (functions : List FunctionDef) (g : CallGraph) :
    (∀ a b, Edge (functions.foldl (fun g f => g.addNode f.name) g) a b ↔ Edge g a b) ∧
    (∀ a, a ∈ (functions.foldl (fun g f => g.addNode f.name) g).nodes ↔
      a ∈ functions.map (·.name) ∨ a ∈ g.nodes) := by
  induction functions generalizing g with
  | nil => simp
  | cons f rest ih =>
    obtain ⟨hedge, hnodes⟩ := ih (g.addNode f.name)
    refine ⟨fun a b => ?_, fun a => ?_⟩
    · rw [List.foldl_cons, hedge, edge_addNode]
    · rw [List.foldl_cons, hnodes, mem_nodes_addNode, List.map_cons, List.mem_cons]
      grind

theorem callGraph_eq (x : Compilation) (p : Program) :
    x.callGraph p =
      x.routines.foldl (fun g r => r.dependencies.foldl (fun g d => g.addEdge r.name d.name) g)
        (x.selected.toList.foldl (fun g e => e.2.callees.foldl (fun g n => g.addEdge e.1 (id n)) g)
          (p.functions.foldl (fun g f => g.addNode f.name) {})) := rfl

/-- **The call graph**: its edges are the calls of the bodies and the ways of the support routines,
and every callee is a node. -/
theorem callGraph_spec (x : Compilation) (p : Program) :
    (∀ a b, Edge (x.callGraph p) a b ↔ BodyCalls x a b ∨ Continues x a b) ∧
      Complete (x.callGraph p) ∧ ∀ f ∈ p.functions, f.name ∈ (x.callGraph p).nodes := by
  obtain ⟨hedge₀, hnodes₀⟩ := nodes_start p.functions {}
  have hempty : ∀ a b, ¬ Edge {} a b := by
    intro a b
    simp [Edge, CallGraph.callees]
  have hcomplete₀ : Complete (p.functions.foldl (fun g f => g.addNode f.name) {}) := by
    intro a b hab
    rw [hedge₀] at hab
    exact absurd hab (hempty a b)
  rw [callGraph_eq]
  refine ⟨fun a b => ?_, ?_, fun f hf => ?_⟩
  · rw [(edge_foldl_foldl Routine.name Routine.dependencies Routine.name x.routines _ a b).1,
      (edge_foldl_foldl (fun e : String × SelectedCode => e.1) (fun e => e.2.callees) id
        x.selected.toList _ a b).1, hedge₀]
    simp only [hempty, false_or, List.map_id, Prod.exists,
      Std.TreeMap.mem_toList_iff_getElem?_eq_some]
    unfold BodyCalls Continues
    constructor
    · rintro (⟨n, s, hs, rfl, hb⟩ | h)
      · exact Or.inl ⟨s, hs, hb⟩
      · exact Or.inr h
    · rintro (⟨s, hs, hb⟩ | h)
      · exact Or.inl ⟨a, s, hs, rfl, hb⟩
      · exact Or.inr h
  · exact (edge_foldl_foldl Routine.name Routine.dependencies Routine.name x.routines _ "" "").2.1
      ((edge_foldl_foldl (fun e : String × SelectedCode => e.1) (fun e => e.2.callees) id
        x.selected.toList _ "" "").2.1 hcomplete₀)
  · exact (edge_foldl_foldl Routine.name Routine.dependencies Routine.name x.routines _ f.name "").2.2
      ((edge_foldl_foldl (fun e : String × SelectedCode => e.1) (fun e => e.2.callees) id
        x.selected.toList _ f.name "").2.2
        ((hnodes₀ f.name).mpr (Or.inl (List.mem_map.mpr ⟨f, hf, rfl⟩))))

end Codegen6502.Proofs.Calls.Pipeline
