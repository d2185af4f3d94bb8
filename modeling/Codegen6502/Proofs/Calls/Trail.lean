import Codegen6502.Proofs.Calls.Components
import Mathlib.Data.List.Perm.Subperm

/-!
# One pass over the graph

The components can be found in one pass.  The pass numbers the nodes in the order in which it enters
them and keeps those whose component is not complete on a stack; the low link of a node is the
smallest number on the stack that its calls are known to lead back to.  A node whose low link is its
own number completes a component, which is what the stack holds down to it.

* `Trail`, `Trail.visit`, `lowLinkComponents`: the pass;
* `LinkTo`: what a low link says;
* `Inv`: what holds of the stack, the finished nodes and the components between two steps, and
  `Inv.enter`: entering a node keeps it;
* `Extends`, `Leads`: what a pass leaves as it was, and the search that goes along with it.
-/

namespace Codegen6502.Proofs.Calls.LowLinks

open CallGraph Relation Search Components

/-! ### The pass -/

/-- Where a pass over the graph stands. -/
structure Trail where
  /-- The number of the node that is entered next. -/
  next : ℕ := 0
  /-- The nodes that have been entered, with their numbers. -/
  index : Std.TreeMap String ℕ := ∅
  low : Std.TreeMap String ℕ := ∅
  /-- The nodes of no component yet, the last one first. -/
  stack : List String := []
  components : List (List String) := []

namespace Trail

/-- The number of a node. -/
def place (s : Trail) (n : String) : ℕ := s.index.getD n 0

/-- The low link of a node. -/
def link (s : Trail) (n : String) : ℕ := s.low.getD n 0

def enter (s : Trail) (n : String) : Trail :=
  { s with
    next := s.next + 1
    index := s.index.insert n s.next
    low := s.low.insert n s.next
    stack := n :: s.stack }

/-- Lowers the low link of a node to a number, unless it is smaller. -/
def lower (s : Trail) (n : String) (number : ℕ) : Trail :=
  { s with low := s.low.insert n (min (s.link n) number) }

/-- Splits a stack behind a node. -/
def unstack (n : String) : List String → List String × List String
  | [] => ([], [])
  | m :: rest => if m = n then ([m], rest) else (m :: (unstack n rest).1, (unstack n rest).2)

/-- Leaves a node, which may complete a component. -/
def leave (s : Trail) (n : String) : Trail :=
  if s.link n = s.place n then
    { s with
      stack := (unstack n s.stack).2
      components := s.components ++ [(unstack n s.stack).1.mergeSort (· ≤ ·)] }
  else s

/-- Follows one call of `n`. -/
def follow (visit : Trail → String → Trail) (n : String) (s : Trail) (callee : String) : Trail :=
  if !s.index.contains callee then
    let t := visit s callee
    t.lower n (t.link callee)
  else if s.stack.contains callee then s.lower n (s.place callee)
  else s

/-- Visits a node, with calls followed to some depth. -/
def visit (g : CallGraph) : ℕ → Trail → String → Trail
  | 0, s, _ => s
  | depth + 1, s, n => ((g.callees n).foldl (follow (visit g depth) n) (s.enter n)).leave n

end Trail

/-- The components that a pass over all nodes completes, in that order. -/
def lowLinkComponents (g : CallGraph) (depth : ℕ) : List (List String) :=
  (g.nodes.foldl (fun s n => if s.index.contains n then s else s.visit g depth n)
    ({} : Trail)).components

open Trail

variable {g : CallGraph} {s t u : Trail} {n m : String}

theorem mem_index_enter : m ∈ (s.enter n).index ↔ m = n ∨ m ∈ s.index := by
  simp only [enter, Std.TreeMap.mem_insert, Std.LawfulEqCmp.compare_eq_iff_eq, eq_comm (a := n)]

theorem place_enter_self : (s.enter n).place n = s.next := by
  simp [place, enter]

theorem place_enter (hn : n ∉ s.index) (hm : m ∈ s.index) : (s.enter n).place m = s.place m := by
  have hne : n ≠ m := fun h => hn (h ▸ hm)
  simp [place, enter, Std.TreeMap.getD_insert, hne]

theorem link_enter_self : (s.enter n).link n = s.next := by
  simp [link, enter]

theorem link_enter (hn : n ∉ s.index) (hm : m ∈ s.index) : (s.enter n).link m = s.link m := by
  have hne : n ≠ m := fun h => hn (h ▸ hm)
  simp [link, enter, Std.TreeMap.getD_insert, hne]

theorem link_lower_self {number : ℕ} : (s.lower n number).link n = min (s.link n) number := by
  simp [link, lower]

theorem link_lower {number : ℕ} (hne : n ≠ m) : (s.lower n number).link m = s.link m := by
  simp [link, lower, Std.TreeMap.getD_insert, hne]

theorem unstack_append {above below : List String} (hn : n ∉ above) :
    unstack n (above ++ n :: below) = (above ++ [n], below) := by
  induction above with
  | nil => simp [unstack]
  | cons m rest ih =>
    have hne : m ≠ n := fun h => hn (h ▸ List.mem_cons_self ..)
    have hrest : n ∉ rest := fun h => hn (List.mem_cons_of_mem _ h)
    simp [unstack, hne, ih hrest]

section

variable {visit : Trail → String → Trail}

theorem follow_of_new (hm : m ∉ s.index) :
    follow visit n s m = (visit s m).lower n ((visit s m).link m) := by
  have hcontains : s.index.contains m = false := by
    rwa [← Bool.not_eq_true, Std.TreeMap.contains_iff_mem]
  simp [follow, hcontains]

theorem follow_of_stacked (hm : m ∈ s.index) (hstack : m ∈ s.stack) :
    follow visit n s m = s.lower n (s.place m) := by
  have hcontains : s.index.contains m = true := Std.TreeMap.contains_iff_mem.mpr hm
  simp [follow, hcontains, hstack]

theorem follow_of_settled (hm : m ∈ s.index) (hstack : m ∉ s.stack) : follow visit n s m = s := by
  have hcontains : s.index.contains m = true := Std.TreeMap.contains_iff_mem.mpr hm
  simp [follow, hcontains, hstack]

end

/-! ### Lists in order -/

theorem eraseRepsBy_loop_of_nodup {α : Type} [BEq α] [LawfulBEq α] :
    ∀ (rest : List α) (a : α) (done : List α), (a :: rest).Nodup →
      List.eraseRepsBy.loop (· == ·) a rest done = done.reverse ++ a :: rest
  | [], a, done, _ => by simp [List.eraseRepsBy.loop]
  | c :: rest, a, done, h => by
    obtain ⟨ha, hrest⟩ := List.nodup_cons.mp h
    have hne : (a == c) = false := by
      rw [beq_eq_false_iff_ne]
      exact fun heq => ha (heq ▸ List.mem_cons_self ..)
    unfold List.eraseRepsBy.loop
    rw [hne]
    simpa using eraseRepsBy_loop_of_nodup rest c (a :: done) hrest

theorem sortedNames_of_nodup {names : List String} (h : names.Nodup) :
    sortedNames names = names.mergeSort (· ≤ ·) := by
  have hsorted : (names.mergeSort (· ≤ ·)).Nodup := (List.mergeSort_perm names _).nodup_iff.mpr h
  unfold sortedNames
  cases hcase : names.mergeSort (· ≤ ·) with
  | nil => rfl
  | cons a rest => exact eraseRepsBy_loop_of_nodup rest a [] (hcase ▸ hsorted)

theorem ordered_mergeSort (names : List String) :
    (names.mergeSort (· ≤ ·)).Pairwise (· ≤ ·) := by
  have hsort := @List.pairwise_mergeSort String (fun a b => decide (a ≤ b))
    (fun a b c hab hbc => by simpa using String.le_trans (by simpa using hab) (by simpa using hbc))
    (fun a b => by simpa using String.le_total a b) names
  exact hsort.imp fun h => by simpa using h

/-- Names in order are determined by which they are. -/
theorem mergeSort_eq {names names' : List String} (h : names.Nodup) (h' : names'.Nodup)
    (hmem : ∀ m, m ∈ names ↔ m ∈ names') : names.mergeSort (· ≤ ·) = names'.mergeSort (· ≤ ·) := by
  have hperm : names.Perm names' := (List.perm_ext_iff_of_nodup h h').mpr hmem
  refine List.Perm.eq_of_pairwise (fun a b _ _ hab hba => String.le_antisymm hab hba)
    (ordered_mergeSort names) (ordered_mergeSort names') ?_
  exact (List.mergeSort_perm names _).trans (hperm.trans (List.mergeSort_perm names' _).symm)

/-! ### Low links -/

/-- The number is a low link of `n` as the stack of `s` has it: where it stands for a node of that
stack, `n` leads there, and no called node of that stack has a smaller number. -/
structure LinkTo (g : CallGraph) (s : Trail) (n : String) (number : ℕ) (called : String → Prop) :
    Prop where
  back : number < s.next → ∃ w ∈ s.stack, s.place w = number ∧ Reaches g n w
  least : ∀ w ∈ s.stack, called w → number ≤ s.place w

theorem LinkTo.imp {number : ℕ} {called called' : String → Prop} (h : LinkTo g s n number called)
    (himp : ∀ w ∈ s.stack, called' w → called w) : LinkTo g s n number called' where
  back := h.back
  least w hw hcall := h.least w hw (himp w hw hcall)

theorem LinkTo.min {k k' : ℕ} {called called' : String → Prop} (h : LinkTo g s n k called)
    (h' : LinkTo g s n k' called') :
    LinkTo g s n (min k k') (fun w => called w ∨ called' w) where
  back hlt := by
    by_cases hle : k ≤ k'
    · rw [Nat.min_eq_left hle] at hlt ⊢
      exact h.back hlt
    · rw [Nat.min_eq_right (by omega)] at hlt ⊢
      exact h'.back hlt
  least w hw hcall := by
    rcases hcall with hcall | hcall
    · have := h.least w hw hcall
      omega
    · have := h'.least w hw hcall
      omega

/-! ### The invariant -/

/-- What holds between two steps of a pass.  The nodes of `path` have been entered and not left, the
last one first; those of `fin` have been left. -/
structure Inv (g : CallGraph) (together : String → String → Bool) (path fin : List String)
    (s : Trail) : Prop where
  known : ∀ m, m ∈ s.index ↔ m ∈ fin ∨ m ∈ path
  nodup : (fin ++ path).Nodup
  nodes : ∀ m ∈ s.index, m ∈ g.nodes
  below : ∀ m ∈ s.index, s.place m < s.next
  open_stacked : ∀ m ∈ path, m ∈ s.stack
  stack_known : ∀ m ∈ s.stack, m ∈ s.index
  ordered : s.stack.Pairwise fun a b => s.place b < s.place a
  /-- An open node reaches what is above it on the stack. -/
  forward : ∀ u ∈ path, ∀ v ∈ s.stack, s.place u ≤ s.place v → Reaches g u v
  /-- What is on the stack leads back to an open node. -/
  back : ∀ v ∈ s.stack, ∃ u ∈ path, s.place u ≤ s.place v ∧ Reaches g v u
  fin_calls : ∀ a ∈ fin, ∀ b, Edge g a b → b ∈ s.index
  /-- Complete components do not call what is on the stack. -/
  settled : ∀ a ∈ fin, a ∉ s.stack → ∀ b, Edge g a b → b ∉ s.stack
  components_eq : s.components = classes together (fin.filter fun m => m ∉ s.stack)

variable {together : String → String → Bool} {path fin fin' above : List String}

theorem inv_start : Inv g together [] [] {} where
  known m := by simp
  nodup := List.nodup_nil
  nodes m hm := by simp at hm
  below m hm := by simp at hm
  open_stacked m hm := by simp at hm
  stack_known m hm := by simp at hm
  ordered := List.Pairwise.nil
  forward u hu := by simp at hu
  back v hv := by simp at hv
  fin_calls a ha := by simp at ha
  settled a ha := by simp at ha
  components_eq := by simp [classes]

theorem Inv.stack_nodup (h : Inv g together path fin s) : s.stack.Nodup :=
  h.ordered.imp fun hlt heq => by simp [heq] at hlt

/-- Changes of the low links do not matter. -/
theorem Inv.lower (h : Inv g together path fin s) (n : String) (number : ℕ) :
    Inv g together path fin (s.lower n number) :=
  ⟨h.known, h.nodup, h.nodes, h.below, h.open_stacked, h.stack_known, h.ordered, h.forward, h.back,
    h.fin_calls, h.settled, h.components_eq⟩

/-- **Entering** a new node that the open nodes reach. -/
theorem Inv.enter (h : Inv g together path fin s) (hn : n ∉ s.index) (hnode : n ∈ g.nodes)
    (hcalled : ∀ u ∈ path, Reaches g u n) : Inv g together (n :: path) fin (s.enter n) := by
  have hfin : n ∉ fin := fun hmem => hn ((h.known n).mpr (Or.inl hmem))
  have hpath : n ∉ path := fun hmem => hn ((h.known n).mpr (Or.inr hmem))
  have hstack : ∀ m ∈ s.stack, (s.enter n).place m = s.place m := fun m hm =>
    place_enter hn (h.stack_known m hm)
  have hlt : ∀ m ∈ s.stack, s.place m < s.next := fun m hm => h.below m (h.stack_known m hm)
  have hself : (s.enter n).place n = s.next := place_enter_self
  refine
    { known := fun m => ?_, nodup := ?_, nodes := fun m hm => ?_, below := fun m hm => ?_,
      open_stacked := fun m hm => ?_, stack_known := fun m hm => ?_, ordered := ?_,
      forward := fun u hu v hv hle => ?_, back := fun v hv => ?_, fin_calls := fun a ha b hab => ?_,
      settled := fun a ha hout b hab hb => ?_, components_eq := ?_ }
  · rw [mem_index_enter, h.known m, List.mem_cons]
    grind
  · exact List.nodup_middle.mpr (List.nodup_cons.mpr ⟨by simp [hfin, hpath], h.nodup⟩)
  · rcases mem_index_enter.mp hm with rfl | hm
    · exact hnode
    · exact h.nodes m hm
  · show _ < s.next + 1
    rcases mem_index_enter.mp hm with rfl | hm
    · omega
    · have := h.below m hm
      rw [place_enter hn hm]
      omega
  · rcases List.mem_cons.mp hm with rfl | hm
    · exact List.mem_cons_self ..
    · exact List.mem_cons_of_mem _ (h.open_stacked m hm)
  · rcases List.mem_cons.mp hm with rfl | hm
    · exact mem_index_enter.mpr (Or.inl rfl)
    · exact mem_index_enter.mpr (Or.inr (h.stack_known m hm))
  · refine List.pairwise_cons.mpr ⟨fun m hm => ?_, h.ordered.imp_of_mem fun ha hb hab => ?_⟩
    · rw [hself, hstack m hm]
      exact hlt m hm
    · rwa [hstack _ ha, hstack _ hb]
  · -- The new node has the largest number, so it is above every open node and below none.
    rcases List.mem_cons.mp hv with rfl | hv'
    · rcases List.mem_cons.mp hu with rfl | hu
      · exact ReflTransGen.refl
      · exact hcalled u hu
    · rcases List.mem_cons.mp hu with rfl | hu
      · have := hlt v hv'
        rw [hself, hstack v hv'] at hle
        omega
      · rw [hstack u (h.open_stacked u hu), hstack v hv'] at hle
        exact h.forward u hu v hv' hle
  · rcases List.mem_cons.mp hv with rfl | hv
    · exact ⟨v, List.mem_cons_self .., Nat.le_refl _, ReflTransGen.refl⟩
    · obtain ⟨u, hu, hle, hreach⟩ := h.back v hv
      refine ⟨u, List.mem_cons_of_mem _ hu, ?_, hreach⟩
      rwa [hstack u (h.open_stacked u hu), hstack v hv]
  · exact mem_index_enter.mpr (Or.inr (h.fin_calls a ha b hab))
  · rcases List.mem_cons.mp hb with rfl | hb
    · exact hn (h.fin_calls a ha b hab)
    · exact h.settled a ha (fun ha => hout (List.mem_cons_of_mem _ ha)) b hab hb
  · show s.components = _
    rw [h.components_eq]
    congr 1
    refine List.filter_congr fun m hm => ?_
    have hne : m ≠ n := fun heq => hfin (heq ▸ hm)
    simp [Trail.enter, hne]

/-! ### What a pass adds -/

/-- `t` comes after `s` in a pass: what has a number keeps it and its low link, and the stack has
grown. -/
structure Extends (s : Trail) (fin above : List String) (t : Trail) (fin' : List String) :
    Prop where
  count : fin.length ≤ fin'.length
  stack_eq : t.stack = above ++ s.stack
  kept : ∀ m ∈ s.index, m ∈ t.index ∧ t.place m = s.place m ∧ t.link m = s.link m

theorem Extends.trans {fin'' above' : List String} (h : Extends s fin above t fin')
    (h' : Extends t fin' above' u fin'') : Extends s fin (above' ++ above) u fin'' where
  count := Nat.le_trans h.count h'.count
  stack_eq := by rw [h'.stack_eq, h.stack_eq, List.append_assoc]
  kept m hm := by
    obtain ⟨hmem, hplace, hlink⟩ := h.kept m hm
    obtain ⟨hmem', hplace', hlink'⟩ := h'.kept m hmem
    exact ⟨hmem', hplace'.trans hplace, hlink'.trans hlink⟩

theorem extends_enter (hn : n ∉ s.index) (fin : List String) :
    Extends s fin [n] (s.enter n) fin where
  count := Nat.le_refl _
  stack_eq := rfl
  kept _ hm := ⟨mem_index_enter.mpr (Or.inr hm), place_enter hn hm, link_enter hn hm⟩

theorem Extends.lower (h : Extends s fin above t fin') (hn : n ∉ s.index) (number : ℕ) :
    Extends s fin above (t.lower n number) fin' where
  count := h.count
  stack_eq := h.stack_eq
  kept m hm := by
    obtain ⟨hmem, hplace, hlink⟩ := h.kept m hm
    have hne : n ≠ m := fun heq => hn (heq ▸ hm)
    exact ⟨hmem, hplace, (link_lower hne).trans hlink⟩

/-! ### The search beside the pass -/

/-- The list holds the nodes that have been entered. -/
def Tracks (seen : List String) (s : Trail) : Prop := ∀ m, m ∈ seen ↔ m ∈ s.index

/-- The search that has seen what `s` has gets from tasks and finished nodes to others, and has then
seen what `t` has. -/
def Leads (g : CallGraph) (tasks : List Task) (fin : List String) (s : Trail) (tasks' : List Task)
    (fin' : List String) (t : Trail) : Prop :=
  ∀ seen, Tracks seen s → ∃ seen', Tracks seen' t ∧
    ∃ steps, steps + remaining g tasks' seen' ≤ remaining g tasks seen ∧
      ∀ bound, g.search (steps + bound) tasks seen fin = g.search bound tasks' seen' fin'

variable {tasks tasks' rest : List Task}

theorem Leads.refl : Leads g tasks fin s tasks fin s :=
  fun seen hseen => ⟨seen, hseen, 0, by omega, fun bound => by rw [Nat.zero_add]⟩

theorem Leads.trans {tasks'' : List Task} {fin'' : List String}
    (h : Leads g tasks fin s tasks' fin' t) (h' : Leads g tasks' fin' t tasks'' fin'' u) :
    Leads g tasks fin s tasks'' fin'' u := by
  intro seen hseen
  obtain ⟨seen', hseen', k, hk, hrun⟩ := h seen hseen
  obtain ⟨seen'', hseen'', k', hk', hrun'⟩ := h' seen' hseen'
  refine ⟨seen'', hseen'', k + k', by omega, fun bound => ?_⟩
  rw [Nat.add_assoc, hrun, hrun']

theorem leads_enter (hn : n ∉ s.index) (hnode : n ∈ g.nodes) :
    Leads g (.enter n :: rest) fin s ((g.callees n).map .enter ++ .leave n :: rest) fin
      (s.enter n) := by
  intro seen hseen
  have hunseen : n ∉ seen := fun hmem => hn ((hseen n).mp hmem)
  have htotal : totalOf (fun n => (g.callees n).length + 1) (g.nodes.filter (· ∉ n :: seen)) +
      ((g.callees n).length + 1) ≤
      totalOf (fun n => (g.callees n).length + 1) (g.nodes.filter (· ∉ seen)) :=
    totalOf_filter_lt _ (by simp_all) (by simpa using hunseen) (by simp) hnode
  refine ⟨n :: seen, fun m => ?_, 1, ?_, fun bound => ?_⟩
  · rw [List.mem_cons, mem_index_enter, hseen m]
  · simp only [remaining, List.length_cons, List.length_append, List.length_map] at htotal ⊢
    omega
  · rw [Nat.add_comm, search, if_neg (by simpa using hunseen)]

theorem leads_skip (hn : n ∈ s.index) : Leads g (.enter n :: rest) fin s rest fin s := by
  intro seen hseen
  have hmem : n ∈ seen := (hseen n).mpr hn
  refine ⟨seen, hseen, 1, ?_, fun bound => ?_⟩
  · simp only [remaining, List.length_cons]
    omega
  · rw [Nat.add_comm, search, if_pos (by simpa using hmem)]

theorem leads_leave (heq : t.index = s.index) :
    Leads g (.leave n :: rest) fin s rest (n :: fin) t := by
  intro seen hseen
  refine ⟨seen, fun m => ?_, 1, ?_, fun bound => ?_⟩
  · rw [heq, hseen m]
  · simp only [remaining, List.length_cons]
    omega
  · rw [Nat.add_comm, search]

theorem Leads.lower (h : Leads g tasks fin s tasks' fin' t) (n : String) (number : ℕ) :
    Leads g tasks fin s tasks' fin' (t.lower n number) := h

end Codegen6502.Proofs.Calls.LowLinks
