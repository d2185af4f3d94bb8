import Codegen6502.Proofs.Liveness.Flow

/-!
# Liveness is least

An item is live only where it has to be.  Let a property of lines hold at the exit sequence if the
item is read there, at every line that uses the item, and at every line that does not overwrite it
and is followed by one where the property holds.  Then it holds wherever the item is live
(`liveIn_least`).

The analysis has a result as soon as every line has its successors (`exists_compute`).
-/

namespace Codegen6502.Proofs.Liveness.Least

open Codegen6502.Liveness Computations Settling Liveness.Flow

/-! ### Sweeps -/

section Sweeps

variable {graph : Array FlowNode} {before : Array LiveSet} {item : Item} {P : ℕ → Prop}

/-- The item is live only where the property holds. -/
def Only (item : Item) (P : ℕ → Prop) (before : Array LiveSet) : Prop :=
  ∀ k, (before.getD k {}).contains item = true → P k

/-- The property holds where the item is used, and passes back to where it is not overwritten. -/
def Closed (graph : Array FlowNode) (item : Item) (P : ℕ → Prop) : Prop :=
  ∀ (k : ℕ) (node : FlowNode), graph[k]? = some node →
    node.uses.contains item = true ∨
      node.defs.contains item = false ∧ (∃ j ∈ node.next, P j) → P k

theorem Only.update (hclosed : Closed graph item P) (h : Only item P before) (i : ℕ) :
    Only item P (Liveness.update graph before i) := by
  intro k hk
  unfold Liveness.update at hk
  cases hnode : graph[i]? with
  | none =>
    rw [hnode] at hk
    exact h k hk
  | some node =>
    simp only [hnode, Array.getD_eq_getD_getElem?, Array.getElem?_setIfInBounds] at hk
    split_ifs at hk with hik hsize
    · -- The set of this very line: its items are used, or come from a successor.
      subst hik
      rw [Option.getD_some, contains_inOf, contains_outOf] at hk
      refine hclosed i node hnode ?_
      rcases hk with ⟨⟨j, hj, hlive⟩, hdefs⟩ | huses
      · exact Or.inr ⟨hdefs, j, hj, h j hlive⟩
      · exact Or.inl huses
    · cases hk
    · rw [← Array.getD_eq_getD_getElem?] at hk
      exact h k hk

theorem Only.updates (hclosed : Closed graph item P) (indices : List ℕ) :
    ∀ {before : Array LiveSet}, Only item P before →
      Only item P (indices.foldl (Liveness.update graph) before) := by
  induction indices with
  | nil => exact fun h => h
  | cons i rest ih => exact fun h => ih (h.update hclosed i)

theorem Only.settle (hclosed : Closed graph item P) (bound : ℕ) :
    ∀ {before : Array LiveSet}, Only item P before →
      Only item P (Liveness.settle graph bound before) := by
  induction bound with
  | zero => exact fun h => h
  | succ bound ih =>
    intro before h
    unfold Liveness.settle
    dsimp only
    split_ifs
    · exact h
    · exact ih (h.updates hclosed _)

end Sweeps

/-! ### The analysis of code -/

section Analysis

variable {code : List Line} {calls : Std.TreeMap ℕ CallTarget} {exit : RegSet} {live : Liveness}

/-- The lines that may run after a line. -/
def Follows (code : List Line) (calls : Std.TreeMap ℕ CallTarget) (k : ℕ) (line : Line) (j : ℕ) :
    Prop :=
  (∃ ns, line.next (labelIndices code) k = .ok ns ∧ j ∈ ns) ∨
    line.mayResume calls[k]? = true ∧ j ∈ resumePoints code.length calls

/-- An item is live only where a property holds that the graph passes back. -/
theorem liveIn_only (h : Liveness.compute code calls exit = .ok live) {item : Item} {P : ℕ → Prop}
    (hexit : (LiveSet.ofRegs exit).contains item = true → P code.length)
    (hclosed : Closed live.graph item P) {k : ℕ} (hk : (live.liveIn k).contains item = true) :
    P k := by
  unfold Liveness.compute at h
  obtain ⟨graph, hgraph, h⟩ := bind_eq_ok.mp h
  cases h
  obtain ⟨-, hsize, -⟩ := flowGraph_spec hgraph
  refine Only.settle hclosed _ ?_ k hk
  intro i hi
  rw [Array.getD_eq_getD_getElem?, Array.getElem?_push] at hi
  split_ifs at hi with hlast
  · rw [Array.size_replicate, hsize] at hlast
    subst hlast
    exact hexit hi
  · rw [Array.getElem?_replicate] at hi
    split_ifs at hi <;> cases hi

/-- **An item is live only where it has to be.** -/
theorem liveIn_least (h : Liveness.compute code calls exit = .ok live) {item : Item} {P : ℕ → Prop}
    (hexit : (LiveSet.ofRegs exit).contains item = true → P code.length)
    (hclosed : ∀ (k : ℕ) (line : Line), code[k]? = some line →
      (line.uses calls[k]?).contains item = true ∨
        line.defs.contains item = false ∧ (∃ j, Follows code calls k line j ∧ P j) → P k)
    {k : ℕ} (hk : (live.liveIn k).contains item = true) : P k := by
  refine liveIn_only h hexit ?_ hk
  unfold Liveness.compute at h
  obtain ⟨graph, hgraph, h⟩ := bind_eq_ok.mp h
  cases h
  obtain ⟨next, hsize, -, hnode⟩ := flowGraph_spec hgraph
  intro i node hi hpass
  have hlt : i < code.length := hsize ▸ (Array.getElem?_eq_some_iff.mp hi).1
  have hline : code[i]? = some (code.get ⟨i, hlt⟩) := by simp [hlt]
  obtain ⟨ns, -, hns, hi'⟩ := hnode i _ hline
  rw [hi] at hi'
  cases hi'
  refine hclosed i _ hline (hpass.imp_right fun ⟨hdefs, j, hj, hP⟩ => ⟨hdefs, j, ?_, hP⟩)
  dsimp only at hj
  split_ifs at hj with hresume
  · rw [Bool.and_eq_true] at hresume
    rcases List.mem_append.mp hj with hj | hj
    · exact Or.inl ⟨ns, hns, hj⟩
    · exact Or.inr ⟨hresume.2, hj⟩
  · exact Or.inl ⟨ns, hns, hj⟩

theorem exists_mapM {α β : Type} {f : α → Compile β} : ∀ {as : List α},
    (∀ a ∈ as, ∃ b, f a = .ok b) → ∃ bs, as.mapM f = .ok bs
  | [], _ => ⟨[], rfl⟩
  | a :: as, h => by
    obtain ⟨b, hb⟩ := h a (List.mem_cons_self ..)
    obtain ⟨bs, hbs⟩ := exists_mapM fun a' ha' => h a' (List.mem_cons_of_mem _ ha')
    exact ⟨b :: bs, by rw [List.mapM_cons, hb, hbs]; rfl⟩

/-- **The analysis has a result** if every line has its successors. -/
theorem exists_compute (calls : Std.TreeMap ℕ CallTarget) (exit : RegSet)
    (h : ∀ (k : ℕ) (line : Line), code[k]? = some line →
      ∃ ns, line.next (labelIndices code) k = .ok ns) :
    ∃ live, Liveness.compute code calls exit = .ok live := by
  obtain ⟨next, hnext⟩ : ∃ next, (code.zipIdx.mapM fun entry =>
      entry.1.next (labelIndices code) entry.2) = .ok next := by
    refine exists_mapM fun entry hentry => ?_
    rw [List.mem_zipIdx_iff_getElem?] at hentry
    exact h entry.2 entry.1 hentry
  have hgraph : ∃ graph, flowGraph code calls = .ok graph :=
    ⟨_, bind_eq_ok.mpr ⟨next, hnext, rfl⟩⟩
  obtain ⟨graph, hgraph⟩ := hgraph
  exact ⟨_, bind_eq_ok.mpr ⟨graph, hgraph, rfl⟩⟩

end Analysis

end Codegen6502.Proofs.Liveness.Least
