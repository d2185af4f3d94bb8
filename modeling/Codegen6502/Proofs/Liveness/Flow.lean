import Codegen6502.Proofs.Computations
import Codegen6502.Proofs.Liveness.Settling

/-!
# What the analysis of selected code promises

* `reachedFrom_spec`: the lines that are marked contain the points to start from and are closed
  under successors;
* `solves_of_compute`: the result of the analysis solves the flow equations of the code.

From the equations: what a line uses is live before it (`Solves.uses`), what is live after it and
not overwritten is live before it (`Solves.passes`), and what is live before a successor is live
after it (`Solves.follows`, and `Solves.resumes` for going back to a capture).
-/

namespace Codegen6502.Proofs.Liveness.Flow

open Codegen6502.Liveness Computations Settling

/-! ### Lines that can be reached -/

theorem getD_mark (reached : Array Bool) (i j : ℕ) :
    (reached.setIfInBounds i true).getD j true = if i = j then true else reached.getD j true := by
  simp only [Array.getD_eq_getD_getElem?, Array.getElem?_setIfInBounds]
  split_ifs <;> simp

/-- The successors of the lines that have not been marked. -/
def pending (next : Array (List ℕ)) (reached : Array Bool) : ℕ :=
  ∑ i ∈ Finset.range next.size, if reached.getD i true then 0 else (next.getD i []).length

theorem pending_mark {next : Array (List ℕ)} {reached : Array Bool}
    (hsize : reached.size = next.size) {i : ℕ} (hi : reached.getD i true = false) :
    pending next (reached.setIfInBounds i true) + (next.getD i []).length =
      pending next reached := by
  have hlt : i < next.size := by
    by_contra hge
    rw [Array.getD_eq_getD_getElem?, Array.getElem?_eq_none (by omega)] at hi
    cases hi
  have hmem : i ∈ Finset.range next.size := Finset.mem_range.mpr hlt
  unfold pending
  rw [← Finset.add_sum_erase _ _ hmem, ← Finset.add_sum_erase _ _ hmem]
  have hrest : ∀ j ∈ (Finset.range next.size).erase i,
      (if (reached.setIfInBounds i true).getD j true then 0 else (next.getD j []).length) =
        if reached.getD j true then 0 else (next.getD j []).length := by
    intro j hj
    rw [getD_mark, if_neg (Ne.symm (Finset.ne_of_mem_erase hj))]
  rw [Finset.sum_congr rfl hrest, getD_mark, if_pos rfl, hi]
  simp only [↓reduceIte, Bool.false_eq_true]
  omega

/-- Marking keeps what is marked, and marks everything on the list together with what follows. -/
theorem markReached_spec (next : Array (List ℕ)) (bound : ℕ) : ∀ (todo : List ℕ) (reached : Array Bool),
    reached.size = next.size → todo.length + pending next reached < bound →
    (∀ i, reached.getD i true = true → i < next.size →
      ∀ j ∈ next.getD i [], reached.getD j true = true ∨ j ∈ todo) →
    let marked := markReached next bound todo reached
    (∀ i, reached.getD i true = true ∨ i ∈ todo → marked.getD i true = true) ∧
      ∀ i, marked.getD i true = true → i < next.size →
        ∀ j ∈ next.getD i [], marked.getD j true = true := by
  induction bound with
  | zero => intro todo reached _ hbound; omega
  | succ bound ih =>
    intro todo reached hsize hbound hclosed
    cases todo with
    | nil =>
      refine ⟨fun i hi => ?_, fun i hi hlt j hj => ?_⟩
      · exact hi.resolve_right (by simp)
      · exact (hclosed i hi hlt j hj).resolve_right (by simp)
    | cons i rest =>
      rw [List.length_cons] at hbound
      unfold markReached
      by_cases hi : reached.getD i true = true
      · rw [if_pos hi]
        obtain ⟨hmarked, hall⟩ := ih rest reached hsize (by omega) fun j hj hlt k hk => by
          rcases hclosed j hj hlt k hk with h | h
          · exact .inl h
          · rcases List.mem_cons.mp h with rfl | h
            · exact .inl hi
            · exact .inr h
        refine ⟨fun j hj => hmarked j ?_, hall⟩
        rcases hj with hj | hj
        · exact .inl hj
        · rcases List.mem_cons.mp hj with rfl | hj
          · exact .inl hi
          · exact .inr hj
      · rw [if_neg hi]
        rw [Bool.not_eq_true] at hi
        have hpending := pending_mark hsize hi
        obtain ⟨hmarked, hall⟩ := ih (next.getD i [] ++ rest) (reached.setIfInBounds i true)
          (by simpa using hsize) (by rw [List.length_append]; omega) fun j hj hlt k hk => by
            rw [getD_mark] at hj ⊢
            by_cases hij : i = j
            · subst hij
              exact .inr (List.mem_append_left _ hk)
            · rw [if_neg hij] at hj
              rcases hclosed j hj hlt k hk with h | h
              · left; split_ifs <;> simp [h]
              · rcases List.mem_cons.mp h with rfl | h
                · left; simp
                · exact .inr (List.mem_append_right _ h)
        refine ⟨fun j hj => hmarked j ?_, hall⟩
        rw [getD_mark]
        rcases hj with hj | hj
        · left; split_ifs <;> simp [hj]
        · rcases List.mem_cons.mp hj with rfl | hj
          · left; simp
          · exact .inr (List.mem_append_right _ hj)

theorem size_markReached (next : Array (List ℕ)) (bound : ℕ) : ∀ (todo : List ℕ)
    (reached : Array Bool), (markReached next bound todo reached).size = reached.size := by
  induction bound with
  | zero => exact fun _ _ => rfl
  | succ bound ih =>
    intro todo reached
    cases todo with
    | nil => rfl
    | cons i rest =>
      unfold markReached
      split
      · exact ih rest reached
      · rw [ih, Array.size_setIfInBounds]

theorem totalOf_length (lists : List (List ℕ)) :
    totalOf List.length lists = ∑ i ∈ Finset.range lists.length, (lists.getD i []).length := by
  induction lists with
  | nil => rfl
  | cons list rest ih =>
    rw [totalOf_cons, ih, List.length_cons, Finset.sum_range_succ']
    simp only [List.getD_cons_succ, List.getD_cons_zero]
    omega

/-- **The marked lines** contain the points and are closed under successors. -/
theorem reachedFrom_spec (next : Array (List ℕ)) (points : List ℕ) :
    (∀ i ∈ points, (reachedFrom next points).getD i true = true) ∧
      ∀ i, (reachedFrom next points).getD i true = true → i < next.size →
        ∀ j ∈ next.getD i [], (reachedFrom next points).getD j true = true := by
  have hpending : pending next (Array.replicate next.size false) ≤
      totalOf List.length next.toList := by
    rw [totalOf_length, Array.length_toList]
    refine Finset.sum_le_sum fun i _ => ?_
    split_ifs
    · exact Nat.zero_le _
    · simp [Array.getD_eq_getD_getElem?]
  obtain ⟨hmarked, hall⟩ := markReached_spec next
    (points.length + totalOf List.length next.toList + 1) points
    (Array.replicate next.size false) (by simp)
    (by omega) fun i hi hlt => by simp [Array.getD_eq_getD_getElem?, hlt] at hi
  exact ⟨fun i hi => hmarked i (.inr hi), hall⟩

/-! ### Uses and definitions -/

/-- The items of some registers, flags and a virtual register. -/
def itemsOf (regs : RegSet) (nz carry : Bool) (v? : Option VReg) : LiveSet :=
  ⟨regs.toList.map .reg ++
    ((if nz then [Item.nz] else []) ++ (if carry then [Item.carry] else [])) ++ (v?.map .vreg).toList⟩

@[simp] theorem mem_toList (regs : RegSet) (r : Register) :
    r ∈ regs.toList ↔ regs.contains r = true := by
  cases r <;> simp [RegSet.toList, Register.all]

theorem ascending_regs (regs : RegSet) : Ascending (regs.toList.map .reg) := by
  obtain ⟨a, x, y⟩ := regs
  cases a <;> cases x <;> cases y <;>
    simp [Ascending, RegSet.toList, Register.all, RegSet.contains, List.filter, Item.rank]

theorem ascending_itemsOf (regs : RegSet) (nz carry : Bool) (v? : Option VReg) :
    Ascending (itemsOf regs nz carry v?).items := by
  have hflags : Ascending ((if nz then [Item.nz] else []) ++
      (if carry then [Item.carry] else [])) := by
    cases nz <;> cases carry <;> simp [Ascending, Item.rank]
  have hv : Ascending (v?.map Item.vreg).toList := by cases v? <;> simp [Ascending]
  refine List.pairwise_append.mpr ⟨List.pairwise_append.mpr ⟨ascending_regs regs, hflags, ?_⟩, hv, ?_⟩
  · intro a ha b hb
    obtain ⟨r, -, rfl⟩ := List.mem_map.mp ha
    have hb : b = .nz ∨ b = .carry := by cases nz <;> cases carry <;> simp_all
    rcases hb with rfl | rfl <;> cases r <;> simp [Item.rank]
  · intro a ha b hb
    obtain ⟨v, -, rfl⟩ := Option.map_eq_some_iff.mp (Option.mem_toList.mp hb)
    have ha : a.rank < 5 := by
      rcases List.mem_append.mp ha with ha | ha
      · obtain ⟨r, -, rfl⟩ := List.mem_map.mp ha
        cases r <;> simp [Item.rank]
      · have ha : a = .nz ∨ a = .carry := by cases nz <;> cases carry <;> simp_all
        rcases ha with rfl | rfl <;> simp [Item.rank]
    have hb : 5 ≤ (Item.vreg v).rank := Nat.le_add_right ..
    omega

section Members

variable {regs : RegSet} {nz carry : Bool} {v? : Option VReg}

@[simp] theorem itemsOf_reg (r : Register) :
    (itemsOf regs nz carry v?).contains (.reg r) = regs.contains r := by
  rw [Bool.eq_iff_iff]
  cases nz <;> cases carry <;> cases v? <;> simp [itemsOf, LiveSet.contains]

@[simp] theorem itemsOf_nz : (itemsOf regs nz carry v?).contains .nz = nz := by
  rw [Bool.eq_iff_iff]
  cases nz <;> cases carry <;> cases v? <;> simp [itemsOf, LiveSet.contains]

@[simp] theorem itemsOf_vreg (v : VReg) :
    (itemsOf regs nz carry v?).contains (.vreg v) = decide (v? = some v) := by
  rw [Bool.eq_iff_iff]
  cases v? with
  | none => cases nz <;> cases carry <;> simp [itemsOf, LiveSet.contains]
  | some w => cases nz <;> cases carry <;> simp [itemsOf, LiveSet.contains] <;> exact eq_comm

end Members

theorem uses_op {op : Opcode} (h : op ≠ .jsr) (operand : Operand) (call? : Option CallTarget) :
    (Line.op op operand).uses call? =
      itemsOf (Line.op op operand).effects.reads (Line.op op operand).effects.readsNZ
        (Line.op op operand).effects.readsCarry
        (if op.readsMemory then operand.vreg? else none) := by
  unfold Line.uses
  split
  · rename_i heq
    cases heq
    exact absurd rfl h
  · rename_i heq
    cases heq
    cases operand <;> cases op.readsMemory <;> rfl
  · rename_i hother
    exact absurd rfl (hother op operand)

theorem uses_jsr (operand : Operand) (call? : Option CallTarget) :
    (Line.op .jsr operand).uses call? =
      itemsOf (CallTarget.argumentRegs call?) false false none := by
  simp [Line.uses, LiveSet.ofRegs, itemsOf]

theorem defs_op {op : Opcode} (h : op ≠ .jsr) (operand : Operand) :
    (Line.op op operand).defs =
      itemsOf (Line.op op operand).effects.writes (Line.op op operand).effects.writesNZ
        (Line.op op operand).effects.writesCarry
        (if op.writesMemory then operand.vreg? else none) := by
  unfold Line.defs
  split
  · rename_i heq
    cases heq
    exact absurd rfl h
  · rename_i heq
    cases heq
    cases operand <;> cases op.writesMemory <;> rfl
  · rename_i hother
    exact absurd rfl (hother op operand)

theorem defs_jsr (operand : Operand) :
    (Line.op .jsr operand).defs = itemsOf .all true true none := rfl

theorem ascending_uses (line : Line) (call? : Option CallTarget) :
    Ascending (line.uses call?).items := by
  cases line with
  | op op operand =>
    by_cases hop : op = .jsr
    · subst hop
      rw [uses_jsr]
      exact ascending_itemsOf ..
    · rw [uses_op hop]
      exact ascending_itemsOf ..
  | label name => exact List.Pairwise.nil
  | comment text => exact List.Pairwise.nil

/-! ### The solution -/

variable {code : List Line} {calls : Std.TreeMap ℕ CallTarget} {exit : RegSet} {live : Liveness}

/-- The lines from which control may go back to a capture. -/
structure Resumable (code : List Line) (calls : Std.TreeMap ℕ CallTarget) (live : Liveness)
    (reached : ℕ → Prop) : Prop where
  start : ∀ r ∈ resumePoints code.length calls, reached r
  next : ∀ (k : ℕ) (line : Line) (ns : List ℕ), reached k → code[k]? = some line →
    line.next (labelIndices code) k = .ok ns → ∀ j ∈ ns, reached j
  resumes : ∀ (k : ℕ) (line : Line), reached k → code[k]? = some line →
    line.mayResume calls[k]? = true → ∀ node : FlowNode, live.graph[k]? = some node →
      ∀ r ∈ resumePoints code.length calls, r ∈ node.next

/-- The result of an analysis solves the flow equations of the code. -/
structure Solves (code : List Line) (calls : Std.TreeMap ℕ CallTarget) (exit : RegSet)
    (live : Liveness) : Prop where
  node : ∀ (k : ℕ) (line : Line), code[k]? = some line →
    ∃ (node : FlowNode) (ns : List ℕ), live.graph[k]? = some node ∧
    node.uses = line.uses calls[k]? ∧ node.defs = line.defs ∧
    line.next (labelIndices code) k = .ok ns ∧ ∀ j ∈ ns, j ∈ node.next
  before : ∀ (k : ℕ) (node : FlowNode), live.graph[k]? = some node →
    live.liveIn k = inOf live.before node
  after : ∀ (k : ℕ) (node : FlowNode), live.graph[k]? = some node →
    live.liveOut k = outOf live.before node
  exit : live.liveIn code.length = .ofRegs exit
  resumable : ∃ reached, Resumable code calls live reached

/-- The node that the graph has for a line. -/
theorem flowGraph_spec {graph : Array FlowNode} (h : flowGraph code calls = .ok graph) :
    ∃ next : List (List ℕ), graph.size = code.length ∧ next.length = code.length ∧
      ∀ (k : ℕ) (line : Line), code[k]? = some line → ∃ ns, next[k]? = some ns ∧
        line.next (labelIndices code) k = .ok ns ∧
        graph[k]? = some
          { uses := line.uses calls[k]?
            defs := line.defs
            next :=
              if (reachedFrom next.toArray (resumePoints code.length calls)).getD k false &&
                  line.mayResume calls[k]? then
                ns ++ resumePoints code.length calls
              else ns } := by
  unfold flowGraph at h
  obtain ⟨next, hnext, h⟩ := bind_eq_ok.mp h
  cases h
  have hall := mapM_eq_ok hnext
  have hlength : next.length = code.length := by simpa using hall.length_eq.symm
  refine ⟨next, by simp [hlength], hlength, fun k line hline => ?_⟩
  obtain ⟨hk, rfl⟩ := List.getElem?_eq_some_iff.mp hline
  have hk' : k < next.length := by omega
  have hkth := (List.forall₂_iff_get.mp hall).2 k (by simpa using hk) hk'
  refine ⟨next.get ⟨k, hk'⟩, by simp [hk'], by simpa using hkth, ?_⟩
  simp [hk, hk']

/-- **The analysis solves the flow equations.** -/
theorem solves_of_compute (h : Liveness.compute code calls exit = .ok live) :
    Solves code calls exit live := by
  unfold Liveness.compute at h
  obtain ⟨graph, hgraph, h⟩ := bind_eq_ok.mp h
  cases h
  obtain ⟨next, hsize, hlength, hnode⟩ := flowGraph_spec hgraph
  have hget : ∀ (k : ℕ) (node : FlowNode), graph[k]? = some node → ∃ line, code[k]? = some line := by
    intro k node hk
    have : k < code.length := hsize ▸ (Array.getElem?_eq_some_iff.mp hk).1
    exact ⟨code.get ⟨k, this⟩, by simp [this]⟩
  obtain ⟨hexit, hsolved⟩ := settled graph (.ofRegs exit) (ascending_regs exit) fun k node hk => by
    obtain ⟨line, hline⟩ := hget k node hk
    obtain ⟨ns, -, -, hk'⟩ := hnode k line hline
    rw [hk] at hk'
    cases hk'
    exact ascending_uses line _
  obtain ⟨hpoints, hclosed⟩ := reachedFrom_spec next.toArray (resumePoints code.length calls)
  refine ⟨fun k line hline => ?_, hsolved, fun k node hk => ?_, hsize ▸ hexit,
    fun k => (reachedFrom next.toArray (resumePoints code.length calls)).getD k true = true,
    hpoints, fun k line ns hreached hline hns j hj => ?_,
    fun k line hreached hline hresume node hk r hr => ?_⟩
  · obtain ⟨ns, -, hns, hk⟩ := hnode k line hline
    refine ⟨_, ns, hk, rfl, rfl, hns, fun j hj => ?_⟩
    dsimp only
    split_ifs
    · exact List.mem_append_left _ hj
    · exact hj
  · simp [Liveness.liveOut, Array.getD_eq_getD_getElem?, hk]
  · obtain ⟨ns', hns', hok, -⟩ := hnode k line hline
    rw [hns] at hok
    cases hok
    have hk : k < next.length := (List.getElem?_eq_some_iff.mp hns').1
    refine hclosed k hreached (by simpa using hk) j ?_
    simpa [Array.getD_eq_getD_getElem?, hns'] using hj
  · obtain ⟨ns, -, -, hk'⟩ := hnode k line hline
    rw [hk] at hk'
    cases hk'
    have hlt : k < (reachedFrom next.toArray (resumePoints code.length calls)).size := by
      have hk : k < code.length := (List.getElem?_eq_some_iff.mp hline).1
      unfold reachedFrom
      rw [size_markReached, Array.size_replicate, List.size_toArray]
      omega
    have hmark : (reachedFrom next.toArray (resumePoints code.length calls)).getD k false =
        true := by
      simpa [Array.getD, hlt] using hreached
    dsimp only
    rw [hmark, hresume]
    exact List.mem_append_right _ hr

/-! ### Consequences -/

section Consequences

variable (h : Solves code calls exit live) {k : ℕ} {line : Line}

include h

theorem Solves.uses (hline : code[k]? = some line) {item : Item}
    (hitem : (line.uses calls[k]?).contains item = true) :
    (live.liveIn k).contains item = true := by
  obtain ⟨node, ns, hk, huses, -⟩ := h.node k line hline
  rw [h.before k node hk, contains_inOf, huses]
  exact .inr hitem

/-- What is live after a line and not overwritten by it is live before it. -/
theorem Solves.passes (hline : code[k]? = some line) {item : Item}
    (hitem : live.isLiveOut k item = true) (hdefs : line.defs.contains item = false) :
    (live.liveIn k).contains item = true := by
  obtain ⟨node, ns, hk, -, hnode, -⟩ := h.node k line hline
  unfold Liveness.isLiveOut at hitem
  rw [h.after k node hk] at hitem
  rw [h.before k node hk, contains_inOf, hnode]
  exact .inl ⟨hitem, hdefs⟩

theorem Solves.liveOut_of_next {node : FlowNode}
    (hk : live.graph[k]? = some node) {j : ℕ} (hj : j ∈ node.next) {item : Item}
    (hitem : (live.liveIn j).contains item = true) : live.isLiveOut k item = true := by
  unfold Liveness.isLiveOut
  rw [h.after k node hk, contains_outOf]
  exact ⟨j, hj, hitem⟩

/-- What is live before a successor is live after the line. -/
theorem Solves.follows (hline : code[k]? = some line) {ns : List ℕ}
    (hns : line.next (labelIndices code) k = .ok ns) {j : ℕ} (hj : j ∈ ns) {item : Item}
    (hitem : (live.liveIn j).contains item = true) : live.isLiveOut k item = true := by
  obtain ⟨node, ns', hk, -, -, hns', hsub⟩ := h.node k line hline
  rw [hns] at hns'
  cases hns'
  exact h.liveOut_of_next hk (hsub j hj) hitem

theorem Solves.writes (hline : code[k]? = some line) (item : Item) :
    live.writes k item = line.defs.contains item := by
  obtain ⟨node, ns, hk, -, hdefs, -⟩ := h.node k line hline
  unfold Liveness.writes
  rw [hk]
  exact congrArg (LiveSet.contains · item) hdefs

/-- What is live at a capture is live after every line that can go back there. -/
theorem Solves.resumes {reached : ℕ → Prop} (hreached : Resumable code calls live reached)
    (hk : reached k) (hline : code[k]? = some line) (hresume : line.mayResume calls[k]? = true)
    {r : ℕ} (hr : r ∈ resumePoints code.length calls) {item : Item}
    (hitem : (live.liveIn r).contains item = true) : live.isLiveOut k item = true := by
  obtain ⟨node, ns, hnode, -⟩ := h.node k line hline
  exact h.liveOut_of_next hnode (hreached.resumes k line hk hline hresume node hnode r hr) hitem

end Consequences

end Codegen6502.Proofs.Liveness.Flow
