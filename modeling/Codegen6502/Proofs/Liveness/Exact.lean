import Codegen6502.Proofs.Allocating.Blocks
import Codegen6502.Proofs.Liveness.Least
import Mathlib.Logic.Relation
import Mathlib.Tactic.IntervalCases

/-!
# Liveness is exact

An item is live after a line exactly if a way onwards comes to a line that uses it, past no line
that overwrites it, or comes to the end of the code with the item read there (`LiveAfter`).  The
ways (`Successor`) are the ones of the text (`Edge`) and those back to a capture (`Resume`), and the
latter are open only to calls of functions and jumps to the routine that restores a captured state
(`MayRestore`).

* `next_iff`, `mem_next_iff`: the successors that the analysis computes are the ways onwards, the
  lines that it marks (`reachedFrom_iff`) being those behind a capture;
* `sweeps_settle`: the sweeps come to an end, and another one would change nothing;
* `liveness_exact`: the analysis finds exactly the items that are live;
* `not_every_call_restores`: with a way back from every call it would not be.
-/

namespace Codegen6502.Proofs.Liveness.Exact

open Codegen6502.Liveness Computations Settling Liveness.Flow Least Allocating.Blocks
open Relation (ReflTransGen)

variable {code : List Line} {calls : Std.TreeMap ℕ CallTarget} {exit : RegSet} {live : Liveness}
  {item : Item}

/-! ### Ways through the code -/

/-- Whether control may pass a line for the next one. -/
def passesOn : Line → Bool
  | .op op _ => !op.endsBlock
  | _ => true

/-- **The ways of the text**: on to the next line, or to a label.  The index just past the code is
the end of it. -/
inductive Edge (code : List Line) (i : ℕ) : ℕ → Prop where
  | on {line : Line} : code[i]? = some line → passesOn line = true → Edge code i (i + 1)
  | branch {op : Opcode} {name : String} {j : ℕ} : code[i]? = some (.op op (.relative name)) →
    op.isBranch = true → code[j]? = some (.label name) → Edge code i j
  | jump {name : String} {j : ℕ} : code[i]? = some (.jmp name) → code[j]? = some (.label name) →
    Edge code i j

/-- A line goes to a label. -/
inductive Targets : Line → String → Prop where
  | branch {op : Opcode} {name : String} : op.isBranch = true → Targets (.op op (.relative name)) name
  | jump {name : String} : Targets (.jmp name) name

/-- Branches and jumps go to labels that are defined exactly once. -/
def Targeted (code : List Line) : Prop :=
  ∀ line ∈ code, ∀ name, Targets line name → ∃! j : ℕ, code[j]? = some (.label name)

/-- The line behind a capture, or the end of the code. -/
def Behind (code : List Line) (calls : Std.TreeMap ℕ CallTarget) (j : ℕ) : Prop :=
  ∃ i : ℕ, calls[i]? = some (.routine .setJmp) ∧ j = min (i + 1) code.length

/-- A line from which a captured state may be restored: the call of a function, direct or through a
trampoline, or the jump to the routine that restores. -/
inductive MayRestore : Line → Option CallTarget → Prop where
  | function {operand : Operand} {name : String} :
    MayRestore (.op .jsr operand) (some (.function name))
  | trampoline {operand : Operand} {bank : UInt8} {callee : String} :
    MayRestore (.op .jsr operand) (some (.trampoline bank callee))
  | jump {address : Address} {call? : Option CallTarget} :
    address.symbolName? = some Naming.longJmp → MayRestore (.op .jmp (.absolute address)) call?

section Ways

variable (restores : Line → Option CallTarget → Prop)

/-- **The ways back to a capture**: from lines that may restore and come after some capture to the
line behind each capture. -/
def Resume (code : List Line) (calls : Std.TreeMap ℕ CallTarget) (i j : ℕ) : Prop :=
  (∃ line, code[i]? = some line ∧ restores line calls[i]?) ∧
    (∃ start, Behind code calls start ∧ ReflTransGen (Edge code) start i) ∧ Behind code calls j

/-- A way onwards. -/
def Successor (code : List Line) (calls : Std.TreeMap ℕ CallTarget) (i j : ℕ) : Prop :=
  Edge code i j ∨ Resume restores code calls i j

/-- A way onwards from a line that does not overwrite an item. -/
def Past (code : List Line) (calls : Std.TreeMap ℕ CallTarget) (item : Item) (i j : ℕ) : Prop :=
  Successor restores code calls i j ∧
    ∀ line, code[i]? = some line → line.defs.contains item = false

/-- A line uses an item, or it is read at the end of the code. -/
def Reads (code : List Line) (calls : Std.TreeMap ℕ CallTarget) (exit : RegSet) (item : Item)
    (k : ℕ) : Prop :=
  (∃ line, code[k]? = some line ∧ (line.uses calls[k]?).contains item = true) ∨
    k = code.length ∧ ∃ r, item = .reg r ∧ exit.contains r = true

/-- **An item is live after a line**: a way from a successor of the line, past lines that do not
overwrite the item, comes to where it is read. -/
def LiveAfter (code : List Line) (calls : Std.TreeMap ℕ CallTarget) (exit : RegSet) (i : ℕ)
    (item : Item) : Prop :=
  ∃ s k, Successor restores code calls i s ∧ ReflTransGen (Past restores code calls item) s k ∧
    Reads code calls exit item k

end Ways

/-! ### Successors -/

/-- The ways of the text from a line. -/
theorem edge_iff {i j : ℕ} {line : Line} (hline : code[i]? = some line) :
    Edge code i j ↔ passesOn line = true ∧ j = i + 1 ∨
      ∃ name, Targets line name ∧ code[j]? = some (.label name) := by
  constructor
  · rintro (⟨h, hon⟩ | ⟨h, hop, hj⟩ | ⟨h, hj⟩)
    · rw [hline] at h
      cases h
      exact .inl ⟨hon, rfl⟩
    · rw [hline] at h
      cases h
      exact .inr ⟨_, .branch hop, hj⟩
    · rw [hline] at h
      cases h
      exact .inr ⟨_, .jump, hj⟩
  · rintro (⟨hon, rfl⟩ | ⟨name, hop | -, hj⟩)
    · exact .on hline hon
    · exact .branch hline hop hj
    · exact .jump hline hj

/-- A label that is defined once is looked up where it stands. -/
theorem labelIndex_unique {name : String} (h : ∃! j : ℕ, code[j]? = some (.label name)) :
    ∃ j, labelIndex (labelIndices code) name = .ok j ∧
      ∀ j', code[j']? = some (.label name) ↔ j' = j := by
  obtain ⟨j, hj, honly⟩ := h
  have hlook : (labelIndices code)[name]? = some j := by
    refine (labelIndices_getElem? code).mpr ⟨hj, fun j' hlt hj' => ?_⟩
    exact absurd (honly j' hj') (Nat.ne_of_gt hlt)
  refine ⟨j, by rw [labelIndex, hlook], fun j' => ⟨honly j', ?_⟩⟩
  rintro rfl
  exact hj

/-- A line that goes to no label has the next one as successor, or none. -/
theorem next_of_no_target {line : Line} (h : ∀ name, ¬ Targets line name)
    (labels : Std.TreeMap String ℕ) (i : ℕ) :
    line.next labels i = .ok (if passesOn line = true then [i + 1] else []) := by
  unfold Line.next
  split
  · rename_i op name
    by_cases hop : op.isBranch = true
    · exact absurd (.branch hop) (h name)
    · rw [if_neg hop]
      cases hends : op.endsBlock <;> simp [passesOn, hends]
  · exact absurd .jump (h _)
  · rename_i op _ _ _
    cases hends : op.endsBlock <;> simp [passesOn, hends]
  · rename_i hop
    cases line with
    | op op operand => exact absurd rfl (hop op operand)
    | label | comment => rfl

theorem Targets.unique {line : Line} {name name' : String} (h : Targets line name)
    (h' : Targets line name') : name' = name := by
  cases h <;> cases h' <;> rfl

/-- **The successors of a line** in the text. -/
theorem next_iff (htargets : Targeted code) {i : ℕ} {line : Line} (hline : code[i]? = some line) :
    ∃ ns, line.next (labelIndices code) i = .ok ns ∧ ∀ j, j ∈ ns ↔ Edge code i j := by
  simp only [edge_iff hline]
  by_cases htarget : ∃ name, Targets line name
  · obtain ⟨name, hname⟩ := htarget
    obtain ⟨j, hlook, hlabel⟩ := labelIndex_unique
      (htargets line (List.mem_of_getElem? hline) name hname)
    have honly : ∀ j' : ℕ, (∃ name', Targets line name' ∧ code[j']? = some (.label name')) ↔
        j' = j := by
      intro j'
      rw [← hlabel j']
      refine ⟨?_, fun h => ⟨name, hname, h⟩⟩
      rintro ⟨name', hname', h⟩
      rwa [hname.unique hname'] at h
    simp only [honly]
    cases hname with
    | @branch op name hop =>
      have hon : passesOn (.op op (.relative name)) = true := by
        cases op <;> first | rfl | cases hop
      exact ⟨[j, i + 1], by simp [Line.next, hop, hlook], fun j' => by simp [hon, or_comm]⟩
    | jump =>
      refine ⟨[j], ?_, fun j' => by simp [passesOn, Line.jmp, Opcode.endsBlock]⟩
      change (do return [← labelIndex (labelIndices code) name]) = _
      rw [hlook]
      rfl
  · refine ⟨_, next_of_no_target (not_exists.mp htarget) _ i, fun j => ?_⟩
    have hnone : ¬ ∃ name, Targets line name ∧ code[j]? = some (.label name) :=
      fun ⟨name, hname, _⟩ => htarget ⟨name, hname⟩
    simp only [hnone, or_false]
    split_ifs with hon <;> simp [hon]

/-! ### Lines behind a capture -/

/-- Nothing is marked but what the points lead to. -/
theorem markReached_only {next : Array (List ℕ)} {P : ℕ → Prop}
    (hclosed : ∀ i, P i → ∀ j ∈ next.getD i [], P j) (bound : ℕ) : ∀ (todo : List ℕ)
    (reached : Array Bool), (∀ i ∈ todo, P i) → (∀ i, reached.getD i false = true → P i) →
    ∀ i, (markReached next bound todo reached).getD i false = true → P i := by
  induction bound with
  | zero => exact fun _ _ _ hreached => hreached
  | succ bound ih =>
    intro todo reached htodo hreached
    cases todo with
    | nil => exact hreached
    | cons i rest =>
      have hi : P i := htodo i (List.mem_cons_self ..)
      have hrest : ∀ j ∈ rest, P j := fun j hj => htodo j (List.mem_cons_of_mem _ hj)
      unfold markReached
      split
      · exact ih rest reached hrest hreached
      · refine ih _ _ (fun j hj => ?_) fun j hj => ?_
        · exact (List.mem_append.mp hj).elim (hclosed i hi j) (hrest j)
        · rw [Array.getD_eq_getD_getElem?, Array.getElem?_setIfInBounds] at hj
          split_ifs at hj with hij
          · exact hij ▸ hi
          · cases hj
          · exact hreached j (by rwa [Array.getD_eq_getD_getElem?])

/-- **The marked lines** are those that the points lead to. -/
theorem reachedFrom_iff (next : Array (List ℕ)) (points : List ℕ) {i : ℕ} (hi : i < next.size) :
    (reachedFrom next points).getD i false = true ↔
      ∃ start ∈ points, ReflTransGen (fun i j => j ∈ next.getD i []) start i := by
  obtain ⟨hpoints, hclosed⟩ := reachedFrom_spec next points
  have hsize : (reachedFrom next points).size = next.size := by
    unfold reachedFrom
    rw [size_markReached, Array.size_replicate]
  constructor
  · refine markReached_only (P := fun i => ∃ start ∈ points,
      ReflTransGen (fun i j => j ∈ next.getD i []) start i) ?_ _ _ _ (fun j hj => ⟨j, hj, .refl⟩)
      (fun j hj => ?_) i
    · rintro i ⟨start, hstart, hway⟩ j hj
      exact ⟨start, hstart, hway.tail hj⟩
    · rw [Array.getD_eq_getD_getElem?, Array.getElem?_replicate] at hj
      split_ifs at hj <;> cases hj
  · rintro ⟨start, hstart, hway⟩
    have hmarked : (reachedFrom next points).getD i true = true := by
      clear hi
      induction hway with
      | refl => exact hpoints start hstart
      | @tail i j _ hj ih =>
        refine hclosed i ih ?_ j hj
        by_contra hout
        rw [Array.getD_eq_getD_getElem?, Array.getElem?_eq_none (by omega)] at hj
        cases hj
    simpa [Array.getD, hsize, hi] using hmarked

theorem mem_resumePoints {j : ℕ} : j ∈ resumePoints code.length calls ↔ Behind code calls j := by
  unfold resumePoints Behind
  simp only [List.mem_filterMap, Prod.exists, Std.TreeMap.mem_toList_iff_getElem?_eq_some]
  constructor
  · rintro ⟨i, target, hi, hj⟩
    split_ifs at hj with htarget
    cases hj
    exact ⟨i, htarget ▸ hi, rfl⟩
  · rintro ⟨i, hi, rfl⟩
    exact ⟨i, _, hi, if_pos rfl⟩

theorem mayResume_iff {line : Line} {call? : Option CallTarget} :
    line.mayResume call? = true ↔ MayRestore line call? := by
  constructor
  · intro h
    unfold Line.mayResume at h
    split at h
    · split at h
      · exact .function
      · exact .trampoline
      · cases h
    · exact .jump (of_decide_eq_true h)
    · cases h
  · rintro (_ | _ | h)
    · rfl
    · rfl
    · exact decide_eq_true h

theorem Edge.line {i j : ℕ} (h : Edge code i j) : ∃ line, code[i]? = some line := by
  cases h with
  | on h | branch h | jump h => exact ⟨_, h⟩

theorem Successor.line {restores : Line → Option CallTarget → Prop} {i j : ℕ}
    (h : Successor restores code calls i j) : ∃ line, code[i]? = some line :=
  h.elim Edge.line fun hresume => hresume.1.imp fun _ h => h.1

/-- What `flowGraph` finds for each line: the lines that control passes on to in the text. -/
structure Lists (code : List Line) (next : List (List ℕ)) : Prop where
  length : next.length = code.length
  line : ∀ (k : ℕ) (line : Line), code[k]? = some line →
    ∃ ns, next[k]? = some ns ∧ line.next (labelIndices code) k = .ok ns

section Listing

variable {next : List (List ℕ)} (hlists : Lists code next)

include hlists

theorem Lists.mem_iff (htargets : Targeted code) (i j : ℕ) :
    j ∈ next.toArray.getD i [] ↔ Edge code i j := by
  rw [Array.getD_eq_getD_getElem?, List.getElem?_toArray]
  cases hi : code[i]? with
  | some line =>
    obtain ⟨ns, hns, hok⟩ := hlists.line i line hi
    obtain ⟨ns', hok', hmem⟩ := next_iff htargets hi
    rw [hok] at hok'
    cases hok'
    rw [hns, ← hmem]
    rfl
  | none =>
    rw [List.getElem?_eq_none (by rw [hlists.length]; exact List.getElem?_eq_none_iff.mp hi)]
    refine ⟨nofun, fun h => ?_⟩
    obtain ⟨line, hline⟩ := h.line
    rw [hi] at hline
    cases hline

/-- The lines that are found to come after a capture. -/
theorem Lists.reached_iff (htargets : Targeted code) {i : ℕ} (hi : i < code.length) :
    (reachedFrom next.toArray (resumePoints code.length calls)).getD i false = true ↔
      ∃ start, Behind code calls start ∧ ReflTransGen (Edge code) start i := by
  have hedges : (fun k j => j ∈ next.toArray.getD k []) = Edge code := by
    funext k j
    exact propext (hlists.mem_iff htargets k j)
  rw [reachedFrom_iff _ _ (by simpa [hlists.length] using hi), hedges]
  simp only [mem_resumePoints]

end Listing

/-- **The edges of the graph** are the ways onwards. -/
theorem mem_next_iff (htargets : Targeted code)
    (h : Liveness.compute code calls exit = .ok live) {i j : ℕ} :
    (∃ node, live.graph[i]? = some node ∧ j ∈ node.next) ↔ Successor MayRestore code calls i j := by
  unfold Liveness.compute at h
  obtain ⟨graph, hgraph, h⟩ := bind_eq_ok.mp h
  cases h
  obtain ⟨next, hsize, hlength, hnode⟩ := flowGraph_spec hgraph
  dsimp only
  by_cases hi : i < code.length
  · have hline : code[i]? = some (code.get ⟨i, hi⟩) := by simp [hi]
    generalize code.get ⟨i, hi⟩ = line at hline
    have hlists : Lists code next :=
      ⟨hlength, fun k other hk => (hnode k other hk).imp fun _ hns => ⟨hns.1, hns.2.1⟩⟩
    obtain ⟨ns, hns, -, hgraph⟩ := hnode i line hline
    have hmem : j ∈ ns ↔ Edge code i j := by
      rw [← hlists.mem_iff htargets i j, Array.getD_eq_getD_getElem?, List.getElem?_toArray, hns]
      rfl
    have hresume : Resume MayRestore code calls i j ↔
        ((reachedFrom next.toArray (resumePoints code.length calls)).getD i false &&
          line.mayResume calls[i]?) = true ∧ j ∈ resumePoints code.length calls := by
      rw [Bool.and_eq_true, hlists.reached_iff htargets hi, mayResume_iff, mem_resumePoints]
      unfold Resume
      simp only [hline, Option.some.injEq, exists_eq_left']
      rw [and_left_comm, and_assoc]
    unfold Successor
    rw [hgraph, hresume, ← hmem]
    simp only [Option.some.injEq, exists_eq_left']
    split_ifs with hboth
    · rw [List.mem_append, and_iff_right hboth]
    · exact (or_iff_left fun hand => hboth hand.1).symm
  · have hnone : graph[i]? = none := Array.getElem?_eq_none (by omega)
    refine ⟨fun ⟨node, hnode, _⟩ => ?_, fun h => ?_⟩
    · rw [hnone] at hnode
      cases hnode
    · obtain ⟨line, hline⟩ := h.line
      exact absurd (List.getElem?_eq_some_iff.mp hline).1 hi

/-! ### Live items -/

theorem contains_ofRegs : (LiveSet.ofRegs exit).contains item = true ↔
    ∃ r, item = .reg r ∧ exit.contains r = true := by
  simp only [LiveSet.contains, LiveSet.ofRegs, List.contains_iff_mem, List.mem_map, mem_toList]
  constructor
  · rintro ⟨r, hr, h⟩
    exact ⟨r, h.symm, hr⟩
  · rintro ⟨r, h, hr⟩
    exact ⟨r, hr, h.symm⟩

/-- Every node of the graph is that of a line. -/
theorem line_of_node (h : Liveness.compute code calls exit = .ok live) {k : ℕ} {node : FlowNode}
    (hnode : live.graph[k]? = some node) :
    ∃ line, code[k]? = some line ∧ node.uses = line.uses calls[k]? ∧ node.defs = line.defs := by
  have hk : k < code.length := by
    have hsize : live.graph.size = code.length := by
      unfold Liveness.compute at h
      obtain ⟨graph, hgraph, h⟩ := bind_eq_ok.mp h
      cases h
      exact (flowGraph_spec hgraph).choose_spec.1
    exact hsize ▸ (Array.getElem?_eq_some_iff.mp hnode).1
  have hline : code[k]? = some (code.get ⟨k, hk⟩) := by simp [hk]
  obtain ⟨node', ns, hnode', huses, hdefs, -⟩ := (solves_of_compute h).node k _ hline
  rw [hnode] at hnode'
  cases hnode'
  exact ⟨_, hline, huses, hdefs⟩

/-- **What is live before a line** is read on some way from there. -/
theorem liveIn_iff (htargets : Targeted code) (h : Liveness.compute code calls exit = .ok live)
    {i : ℕ} : (live.liveIn i).contains item = true ↔
      ∃ k, ReflTransGen (Past MayRestore code calls item) i k ∧ Reads code calls exit item k := by
  have hsolves := solves_of_compute h
  constructor
  · refine liveIn_only (P := fun i => ∃ k, ReflTransGen (Past MayRestore code calls item) i k ∧
      Reads code calls exit item k) h
      (fun hexit => ⟨_, .refl, .inr ⟨rfl, contains_ofRegs.mp hexit⟩⟩) ?_
    intro k node hnode hpass
    obtain ⟨line, hline, huses, hdefs⟩ := line_of_node h hnode
    rw [huses, hdefs] at hpass
    rcases hpass with hused | ⟨hkept, j, hj, k', hway, hreads⟩
    · exact ⟨k, .refl, .inl ⟨line, hline, hused⟩⟩
    · have hpast : Past MayRestore code calls item k j := by
        refine ⟨(mem_next_iff htargets h).mp ⟨node, hnode, hj⟩, fun other hother => ?_⟩
        rw [hline] at hother
        cases hother
        exact hkept
      exact ⟨k', .head hpast hway, hreads⟩
  · rintro ⟨k, hway, hreads⟩
    induction hway using ReflTransGen.head_induction_on with
    | refl =>
      rcases hreads with ⟨line, hline, huses⟩ | ⟨rfl, hexit⟩
      · exact hsolves.uses hline huses
      · rw [hsolves.exit]
        exact contains_ofRegs.mpr hexit
    | head hpast _ ih =>
      obtain ⟨line, hline⟩ := hpast.1.line
      obtain ⟨node, hnode, hj⟩ := (mem_next_iff htargets h).mpr hpast.1
      exact hsolves.passes hline (hsolves.liveOut_of_next hnode hj ih) (hpast.2 line hline)

/-- **What is live after a line** is live before a successor. -/
theorem liveOut_iff (htargets : Targeted code) (h : Liveness.compute code calls exit = .ok live)
    {i : ℕ} : live.isLiveOut i item = true ↔ LiveAfter MayRestore code calls exit i item := by
  have hsolves := solves_of_compute h
  constructor
  · intro hlive
    unfold Liveness.isLiveOut at hlive
    cases hnode : live.graph[i]? with
    | none =>
      have hnone : live.liveOut i = {} := by
        unfold Liveness.compute at h
        obtain ⟨graph, -, h⟩ := bind_eq_ok.mp h
        cases h
        simp [Liveness.liveOut, Array.getD_eq_getD_getElem?, hnode]
      rw [hnone] at hlive
      cases hlive
    | some node =>
      rw [hsolves.after i node hnode, contains_outOf] at hlive
      obtain ⟨s, hs, hbefore⟩ := hlive
      obtain ⟨k, hway, hreads⟩ := (liveIn_iff htargets h).mp hbefore
      exact ⟨s, k, (mem_next_iff htargets h).mp ⟨node, hnode, hs⟩, hway, hreads⟩
  · rintro ⟨s, k, hs, hway, hreads⟩
    obtain ⟨node, hnode, hmem⟩ := (mem_next_iff htargets h).mpr hs
    exact hsolves.liveOut_of_next hnode hmem ((liveIn_iff htargets h).mpr ⟨k, hway, hreads⟩)

/-! ### The sweeps -/

/-- What is live before the lines at the start of the sweeps: nothing, and at the end of the code
what is read there. -/
def unswept (graph : Array FlowNode) (exit : RegSet) : Array LiveSet :=
  (Array.replicate graph.size LiveSet.empty).push (.ofRegs exit)

theorem settle_iterate (graph : Array FlowNode) (bound : ℕ) : ∀ before : Array LiveSet,
    ∃ n ≤ bound, settle graph bound before = (sweep graph)^[n] before := by
  induction bound with
  | zero => exact fun before => ⟨0, le_rfl, rfl⟩
  | succ bound ih =>
    intro before
    unfold settle
    dsimp only
    split_ifs
    · exact ⟨0, Nat.zero_le _, rfl⟩
    · obtain ⟨n, hn, hsettle⟩ := ih (sweep graph before)
      exact ⟨n + 1, Nat.succ_le_succ hn, hsettle⟩

/-- Bringing sets up to date that solve the equations changes nothing. -/
theorem update_solved {graph : Array FlowNode} {before : Array LiveSet}
    (h : ∀ (i : ℕ) (node : FlowNode), graph[i]? = some node → before.getD i {} = inOf before node)
    (i : ℕ) : update graph before i = before := by
  refine eq_of_getD (size_update ..) fun j => ?_
  unfold update
  cases hnode : graph[i]? with
  | none => rfl
  | some node =>
    rw [Array.getD_eq_getD_getElem?, Array.getElem?_setIfInBounds]
    split_ifs with hij hsize
    · rw [Option.getD_some, ← h i node hnode, hij]
    · rw [Array.getD_eq_getD_getElem?, Array.getElem?_eq_none (by omega)]
    · exact (Array.getD_eq_getD_getElem? ..).symm

/-- **The sweeps come to an end**, and another one would change nothing. -/
theorem sweeps_settle (h : Liveness.compute code calls exit = .ok live) :
    (∃ n, live.before = (sweep live.graph)^[n] (unswept live.graph exit)) ∧
      sweep live.graph live.before = live.before := by
  constructor
  · unfold Liveness.compute at h
    obtain ⟨graph, -, h⟩ := bind_eq_ok.mp h
    cases h
    obtain ⟨n, -, hsettle⟩ := settle_iterate graph (sweepBound graph (.ofRegs exit))
      (unswept graph exit)
    exact ⟨n, hsettle⟩
  · have hsolved := (solves_of_compute h).before
    have hupdates : ∀ indices : List ℕ,
        indices.foldl (update live.graph) live.before = live.before := by
      intro indices
      induction indices with
      | nil => rfl
      | cons i rest ih => rw [List.foldl_cons, update_solved hsolved, ih]
    exact hupdates _

/-- **Liveness is exact.**  The analysis ends, its edges are the ways onwards, and an item is live
after a line exactly if it is read on some way from there before it is overwritten. -/
theorem liveness_exact (htargets : Targeted code) (calls : Std.TreeMap ℕ CallTarget)
    (exit : RegSet) : ∃ live, Liveness.compute code calls exit = .ok live ∧
      (∃ n, live.before = (sweep live.graph)^[n] (unswept live.graph exit)) ∧
      sweep live.graph live.before = live.before ∧
      (∀ i j, (∃ node, live.graph[i]? = some node ∧ j ∈ node.next) ↔
        Successor MayRestore code calls i j) ∧
      ∀ i item, live.isLiveOut i item = true ↔ LiveAfter MayRestore code calls exit i item := by
  obtain ⟨live, h⟩ : ∃ live, Liveness.compute code calls exit = .ok live :=
    exists_compute calls exit fun k line hline => (next_iff htargets hline).imp fun _ hns => hns.1
  obtain ⟨hiterate, hfixed⟩ := sweeps_settle h
  exact ⟨live, h, hiterate, hfixed, fun _ _ => mem_next_iff htargets h,
    fun _ _ => liveOut_iff htargets h⟩

/-- Code that captures a state, reads a value behind it and then calls something, or does not. -/
def rereading (call : Line) : List Line :=
  [.op .lda (.byte 1), .op .sta (.virtual ⟨0⟩), .jsr "__setjmp", .op .lda (.virtual ⟨0⟩),
    .branch .bne "skip", call, .label "skip"]

theorem targeted_rereading {call : Line} (hcall : ∀ name, ¬ Targets call name)
    (hlabel : ∀ name, call ≠ .label name) : Targeted (rereading call) := by
  intro line hline name hname
  have hbranch : line = .branch .bne "skip" := by
    simp only [rereading, List.mem_cons, List.not_mem_nil, or_false] at hline
    rcases hline with rfl | rfl | rfl | rfl | rfl | rfl | rfl
    case inr.inr.inr.inr.inl => rfl
    case inr.inr.inr.inr.inr.inl => exact absurd hname (hcall name)
    all_goals cases hname
  subst hbranch
  cases hname
  refine ⟨6, rfl, fun j hj => ?_⟩
  have hlt : j < 7 := (List.getElem?_eq_some_iff.mp hj).1
  interval_cases j
  case «5» => exact absurd (Option.some.inj hj) (hlabel _)
  all_goals first
    | rfl
    | cases hj

/-- The calls of such code. -/
def rereadingCalls (target : CallTarget) : Std.TreeMap ℕ CallTarget :=
  .ofList [(2, CallTarget.routine .setJmp), (5, target)]

/-- If the call may come back to the capture, the value is live after it. -/
theorem liveAfter_rereading {restores : Line → Option CallTarget → Prop} {call : Line}
    {target : CallTarget} (hrestores : restores call (some target)) :
    LiveAfter restores (rereading call) (rereadingCalls target) {} 5 (.vreg ⟨0⟩) := by
  have hcapture : (rereadingCalls target)[2]? = some (.routine .setJmp) := rfl
  have htarget : (rereadingCalls target)[5]? = some target := rfl
  have hbehind : Behind (rereading call) (rereadingCalls target) 3 := ⟨2, hcapture, rfl⟩
  refine ⟨3, 3, .inr ⟨⟨call, rfl, ?_⟩, ⟨3, hbehind, ?_⟩, hbehind⟩, .refl, .inl ⟨_, rfl, rfl⟩⟩
  · rw [htarget]
    exact hrestores
  · exact (ReflTransGen.single (.on rfl rfl)).tail (.on rfl rfl)

/-- A value that is read behind a capture is live after a call of a function, which may come back
there. -/
theorem captured_value_live : ∃ live, Liveness.compute (rereading (.jsr "g"))
      (rereadingCalls (.function "g")) {} = .ok live ∧ live.isLiveOut 5 (.vreg ⟨0⟩) = true := by
  have htargets : Targeted (rereading (.jsr "g")) := targeted_rereading nofun nofun
  obtain ⟨live, hlive, -, -, -, hexact⟩ := liveness_exact htargets (rereadingCalls (.function "g")) {}
  exact ⟨live, hlive, (hexact 5 _).mpr (liveAfter_rereading .function)⟩

/-- Lines from which a captured state may be restored, if it may be from all calls. -/
inductive AnyCall : Line → Option CallTarget → Prop where
  | call {operand : Operand} {call? : Option CallTarget} : AnyCall (.op .jsr operand) call?
  | jump {address : Address} {call? : Option CallTarget} :
    address.symbolName? = some Naming.longJmp → AnyCall (.op .jmp (.absolute address)) call?

/-- **Calls of fixed addresses and support routines do not count** as coming back to a capture. -/
theorem not_every_call_restores : ¬ ∀ (code : List Line) (calls : Std.TreeMap ℕ CallTarget)
    (exit : RegSet), Targeted code → ∃ live, Liveness.compute code calls exit = .ok live ∧
      ∀ i item, live.isLiveOut i item = true ↔ LiveAfter AnyCall code calls exit i item := by
  intro h
  obtain ⟨live, hlive, hexact⟩ := h (rereading (.op .jsr (.fixed 0x0700)))
    (rereadingCalls (.fixed 0x0700 .registers)) {} (targeted_rereading nofun nofun)
  have hcheck : (Liveness.compute (rereading (.op .jsr (.fixed 0x0700)))
      (rereadingCalls (.fixed 0x0700 .registers)) {}).toOption.all (fun live =>
        !live.isLiveOut 5 (.vreg ⟨0⟩)) = true := by decide +kernel
  rw [hlive] at hcheck
  have hdead : (!live.isLiveOut 5 (.vreg ⟨0⟩)) = true := hcheck
  rw [(hexact 5 (.vreg ⟨0⟩)).mpr (liveAfter_rereading .call)] at hdead
  cases hdead

end Codegen6502.Proofs.Liveness.Exact
