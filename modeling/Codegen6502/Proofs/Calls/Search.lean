import Codegen6502.CallGraph
import Mathlib.Logic.Relation
import Mathlib.Data.List.Nodup

/-!
# Depth-first search

The search of a call graph works off tasks: entering a node puts its callees and its own leaving in
front, leaving it puts it in front of the finished nodes.

* `search_spec`: within its bound a search ends with no task left, and its invariant (`Visited`)
  holds there;
* `mem_reachable`: the nodes found from one node are those it reaches;
* `finishOrder_root`: in the order of finishing, last first, a node that reaches one further in
  front has a member of its own component in front of it.
-/

namespace Codegen6502.Proofs.Calls.Search

open CallGraph Relation

/-- One call. -/
def Edge (g : CallGraph) (a b : String) : Prop := b ∈ g.callees a

/-- Some calls in a row. -/
def Reaches (g : CallGraph) : String → String → Prop := ReflTransGen (Edge g)

/-- Two nodes that reach each other. -/
def Mutual (g : CallGraph) (a b : String) : Prop := Reaches g a b ∧ Reaches g b a

theorem Mutual.refl {g : CallGraph} (a : String) : Mutual g a a := ⟨.refl, .refl⟩

theorem Mutual.symm {g : CallGraph} {a b : String} (h : Mutual g a b) : Mutual g b a := ⟨h.2, h.1⟩

theorem Mutual.trans {g : CallGraph} {a b c : String} (hab : Mutual g a b) (hbc : Mutual g b c) :
    Mutual g a c := ⟨hab.1.trans hbc.1, hbc.2.trans hab.2⟩

/-- Every callee is a node. -/
def Complete (g : CallGraph) : Prop := ∀ a b, Edge g a b → b ∈ g.nodes

theorem reaches_mem {g : CallGraph} (hg : Complete g) {a b : String} (ha : a ∈ g.nodes)
    (h : Reaches g a b) : b ∈ g.nodes := by
  induction h with
  | refl => exact ha
  | tail _ hcall _ => exact hg _ _ hcall

/-! ### The invariant -/

/-- The node of a task. -/
def node : Task → String
  | .enter n => n
  | .leave n => n

/-- The nodes that have been entered and not left, the last one first. -/
def stack (tasks : List Task) : List String :=
  tasks.filterMap fun
    | .leave n => some n
    | .enter _ => none

@[simp] theorem stack_nil : stack [] = [] := rfl

@[simp] theorem stack_leave (n : String) (rest : List Task) :
    stack (.leave n :: rest) = n :: stack rest := rfl

@[simp] theorem stack_enter (n : String) (rest : List Task) :
    stack (.enter n :: rest) = stack rest := rfl

@[simp] theorem stack_append (s t : List Task) : stack (s ++ t) = stack s ++ stack t := by
  simp [stack]

@[simp] theorem stack_map_enter (names : List String) : stack (names.map .enter) = [] := by
  induction names with
  | nil => rfl
  | cons n rest ih => simpa using ih

theorem mem_stack {tasks : List Task} {n : String} : n ∈ stack tasks ↔ .leave n ∈ tasks := by
  induction tasks with
  | nil => simp
  | cons t rest ih => cases t <;> simp [ih]

/-- What holds at every point of a search. -/
structure Visited (g : CallGraph) (tasks : List Task) (seen finished : List String) : Prop where
  mem_seen : ∀ n, n ∈ seen ↔ n ∈ finished ∨ n ∈ stack tasks
  nodup : (finished ++ stack tasks).Nodup
  /-- An open node reaches everything that is in front of its leaving. -/
  chain : tasks.Pairwise fun t u => ∀ n, u = .leave n → Reaches g n (node t)
  /-- The callees of an open node have been seen or are going to be. -/
  pending : ∀ front n back, tasks = front ++ .leave n :: back → ∀ b, Edge g n b →
    b ∈ seen ∨ .enter b ∈ front
  /-- The callees of a finished node are finished or open. -/
  finished_calls : ∀ a ∈ finished, ∀ b, Edge g a b → b ∈ finished ∨ b ∈ stack tasks
  /-- Where a finished node reaches one that was not finished before it, it belongs to a component
  whose last member was not finished before it either. -/
  roots : ∀ late a early, finished = late ++ a :: early → ∀ w, Reaches g a w → w ∉ a :: early →
    ∃ m, (m ∈ late ∨ m ∈ stack tasks) ∧ Mutual g a m

theorem visited_start (g : CallGraph) (names : List String) :
    Visited g (names.map .enter) [] [] where
  mem_seen n := by simp
  nodup := by simp
  chain := by
    refine List.pairwise_map.mpr (List.Pairwise.imp ?_ (List.pairwise_of_forall fun _ _ => trivial))
    intro a b _ n h
    exact absurd h (by simp)
  pending := by
    intro front n back h
    have : Task.leave n ∈ names.map .enter := by rw [h]; simp
    simp at this
  finished_calls := by simp
  roots := by simp

variable {g : CallGraph} {n : String} {rest : List Task} {seen finished : List String}

/-- Skipping a node that has been seen. -/
theorem Visited.skip (h : Visited g (.enter n :: rest) seen finished) (hn : n ∈ seen) :
    Visited g rest seen finished where
  mem_seen m := by simpa using h.mem_seen m
  nodup := by simpa using h.nodup
  chain := (List.pairwise_cons.mp h.chain).2
  pending := by
    intro front m back hsplit b hcall
    rcases h.pending (.enter n :: front) m back (by rw [hsplit]; rfl) b hcall with hb | hb
    · exact Or.inl hb
    · rcases List.mem_cons.mp hb with heq | hb
      · cases heq
        exact Or.inl hn
      · exact Or.inr hb
  finished_calls := by simpa using h.finished_calls
  roots := by simpa using h.roots

/-- Entering a new node. -/
theorem Visited.enter (h : Visited g (.enter n :: rest) seen finished) (hn : n ∉ seen) :
    Visited g ((g.callees n).map .enter ++ .leave n :: rest) (n :: seen) finished where
  mem_seen m := by
    have := h.mem_seen m
    simp only [stack_enter] at this
    simp only [List.mem_cons, stack_append, stack_map_enter, stack_leave, List.nil_append, this]
    grind
  nodup := by
    have hnew : n ∉ finished ++ stack rest := by
      intro hmem
      exact hn ((h.mem_seen n).mpr (by simpa using hmem))
    have := h.nodup
    simp only [stack_enter] at this
    simpa [List.nodup_middle] using ⟨by simpa using hnew, this⟩
  chain := by
    obtain ⟨hfront, hrest⟩ := List.pairwise_cons.mp h.chain
    refine List.pairwise_append.mpr ⟨?_, List.pairwise_cons.mpr ⟨?_, hrest⟩, ?_⟩
    · refine List.pairwise_map.mpr (List.Pairwise.imp ?_ (List.pairwise_of_forall fun _ _ => trivial))
      intro a b _ m hm
      exact absurd hm (by simp)
    · exact fun t ht m hm => hfront t ht m hm
    · intro t ht u hu m hm
      obtain ⟨b, hb, rfl⟩ := List.mem_map.mp ht
      rcases List.mem_cons.mp hu with rfl | hu
      · cases hm
        exact ReflTransGen.single hb
      · exact (hfront u hu m hm).tail hb
  pending := by
    intro front m back hsplit b hcall
    rcases List.append_eq_append_iff.mp hsplit with ⟨mid, hfront, hback⟩ | ⟨mid, hmap, hback⟩
    · rcases mid with _ | ⟨t, mid⟩
      · obtain ⟨hm, -⟩ : n = m ∧ rest = back := by simpa using hback
        subst hm
        exact Or.inr (by rw [hfront]; simp only [List.append_nil]; exact List.mem_map.mpr ⟨b, hcall, rfl⟩)
      · obtain ⟨-, hrest⟩ : Task.leave n = t ∧ rest = mid ++ .leave m :: back := by
          simpa using hback
        rcases h.pending (.enter n :: mid) m back (by rw [hrest]; rfl) b hcall with hb | hb
        · exact Or.inl (List.mem_cons_of_mem _ hb)
        · rcases List.mem_cons.mp hb with heq | hb
          · cases heq
            exact Or.inl (List.mem_cons_self ..)
          · exact Or.inr (by rw [hfront]; simp [hb])
    · have hleave : Task.leave m ∈ (g.callees n).map Task.enter ∨ m = n ∧ mid = [] := by
        rcases mid with _ | ⟨t, mid⟩
        · obtain ⟨rfl, -⟩ : m = n ∧ back = rest := by simpa using hback
          exact Or.inr ⟨rfl, rfl⟩
        · obtain ⟨ht, -⟩ := List.cons_eq_cons.mp hback
          exact Or.inl (by rw [hmap, ← ht]; simp)
      rcases hleave with hleave | ⟨rfl, rfl⟩
      · simp at hleave
      · have hfront : front = (g.callees m).map Task.enter := by simpa using hmap.symm
        exact Or.inr (by rw [hfront]; exact List.mem_map.mpr ⟨b, hcall, rfl⟩)
  finished_calls := by
    intro a ha b hcall
    have := h.finished_calls a ha b hcall
    simp only [stack_enter] at this
    simp only [stack_append, stack_map_enter, stack_leave, List.nil_append, List.mem_cons]
    grind
  roots := by
    intro late a early hsplit w hreach hw
    obtain ⟨m, hm, hmutual⟩ := h.roots late a early hsplit w hreach hw
    simp only [stack_enter] at hm
    refine ⟨m, ?_, hmutual⟩
    simp only [stack_append, stack_map_enter, stack_leave, List.nil_append, List.mem_cons]
    grind

/-- What the top node reaches when it is left: nodes finished before it, or an open node. -/
theorem Visited.reaches_top (h : Visited g (.leave n :: rest) seen finished) {w : String}
    (hreach : Reaches g n w) :
    w ∈ n :: finished ∨ ∃ s ∈ stack rest, Reaches g n s := by
  induction hreach with
  | refl => exact Or.inl (List.mem_cons_self ..)
  | @tail u w hu hcall ih =>
    rcases ih with hmem | hopen
    · have hw : w ∈ finished ∨ w ∈ n :: stack rest := by
        rcases List.mem_cons.mp hmem with rfl | hfin
        · rcases h.pending [] u rest rfl w hcall with hseen | hfront
          · simpa using (h.mem_seen w).mp hseen
          · simp at hfront
        · simpa using h.finished_calls u hfin w hcall
      rcases hw with hw | hw
      · exact Or.inl (List.mem_cons_of_mem _ hw)
      · rcases List.mem_cons.mp hw with rfl | hw
        · exact Or.inl (List.mem_cons_self ..)
        · exact Or.inr ⟨w, hw, hu.tail hcall⟩
    · exact Or.inr hopen

/-- Leaving a node. -/
theorem Visited.leave (h : Visited g (.leave n :: rest) seen finished) :
    Visited g rest seen (n :: finished) where
  mem_seen m := by
    have := h.mem_seen m
    simp only [stack_leave, List.mem_cons] at this ⊢
    grind
  nodup := by
    have := h.nodup
    simp only [stack_leave] at this
    exact List.nodup_middle.mp this
  chain := (List.pairwise_cons.mp h.chain).2
  pending := by
    intro front m back hsplit b hcall
    rcases h.pending (.leave n :: front) m back (by rw [hsplit]; rfl) b hcall with hb | hb
    · exact Or.inl hb
    · exact Or.inr (by simpa using hb)
  finished_calls := by
    intro a ha b hcall
    rcases List.mem_cons.mp ha with rfl | ha
    · rcases h.pending [] a rest rfl b hcall with hseen | hfront
      · have := (h.mem_seen b).mp hseen
        simp only [stack_leave, List.mem_cons] at this ⊢
        grind
      · simp at hfront
    · have := h.finished_calls a ha b hcall
      simp only [stack_leave, List.mem_cons] at this ⊢
      grind
  roots := by
    intro late a early hsplit w hreach hw
    rcases late with _ | ⟨l, late⟩
    · -- The node that is left: the path out of the finished nodes passes an open one.
      obtain ⟨rfl, rfl⟩ : n = a ∧ finished = early := by simpa using hsplit
      rcases h.reaches_top hreach with hmem | ⟨s, hs, hns⟩
      · exact absurd hmem hw
      · have hsn : Reaches g s n :=
          (List.pairwise_cons.mp h.chain).1 (.leave s) (mem_stack.mp hs) s rfl
        exact ⟨s, Or.inr hs, hns, hsn⟩
    · obtain ⟨rfl, hfin⟩ : n = l ∧ finished = late ++ a :: early := by simpa using hsplit
      obtain ⟨m, hm, hmutual⟩ := h.roots late a early hfin w hreach hw
      refine ⟨m, ?_, hmutual⟩
      simp only [stack_leave, List.mem_cons] at hm ⊢
      grind

/-! ### Runs -/

/-- The steps that a search still takes at most: one for every task, and for every node that has not
been seen one for each callee and one for leaving it. -/
def remaining (g : CallGraph) (tasks : List Task) (seen : List String) : ℕ :=
  tasks.length + totalOf (fun n => (g.callees n).length + 1) (g.nodes.filter (· ∉ seen))

/-- A total over fewer elements. -/
theorem totalOf_filter_le {α : Type} (weight : α → ℕ) {p q : α → Bool} (hqp : ∀ a, q a → p a)
    (elements : List α) :
    totalOf weight (elements.filter q) ≤ totalOf weight (elements.filter p) := by
  induction elements with
  | nil => simp
  | cons a rest ih =>
    have ha := hqp a
    rw [List.filter_cons, List.filter_cons]
    cases hq : q a <;> cases hp : p a <;> simp_all
    omega

/-- A total over fewer elements, one of them known. -/
theorem totalOf_filter_lt {α : Type} (weight : α → ℕ) {p q : α → Bool} (hqp : ∀ a, q a → p a)
    {n : α} (hp : p n = true) (hq : q n = false) {elements : List α} (hn : n ∈ elements) :
    totalOf weight (elements.filter q) + weight n ≤ totalOf weight (elements.filter p) := by
  induction elements with
  | nil => simp at hn
  | cons a rest ih =>
    rw [List.filter_cons, List.filter_cons]
    rcases List.mem_cons.mp hn with rfl | hn
    · have := totalOf_filter_le weight hqp rest
      rw [hp, hq, if_pos rfl, if_neg (by simp), totalOf_cons]
      omega
    · have := ih hn
      have ha := hqp a
      cases hqa : q a <;> cases hpa : p a <;> simp_all <;> omega

/-- **A run of the search** ends with an invariant in which no task is left. -/
theorem search_spec (hg : Complete g) (bound : ℕ) : ∀ (tasks : List Task) (seen finished : List String),
    Visited g tasks seen finished → (∀ t ∈ tasks, node t ∈ g.nodes) →
    remaining g tasks seen < bound →
    ∃ seen', Visited g [] seen' (g.search bound tasks seen finished) ∧
      (∀ m ∈ seen, m ∈ seen') ∧ ∀ m, .enter m ∈ tasks → m ∈ seen' := by
  induction bound with
  | zero => intro tasks seen finished _ _ h; omega
  | succ bound ih =>
    intro tasks seen finished hv hnodes hlt
    rcases tasks with _ | ⟨t, rest⟩
    · exact ⟨seen, by simpa [search] using hv, fun m hm => hm, by simp⟩
    · have hrest : ∀ t ∈ rest, node t ∈ g.nodes := fun t ht =>
        hnodes t (List.mem_cons_of_mem _ ht)
      cases t with
      | leave n =>
        obtain ⟨seen', hv', hsub, htasks⟩ := ih rest seen (n :: finished) hv.leave hrest
          (by unfold remaining at *; simp only [List.length_cons] at hlt; omega)
        refine ⟨seen', by simpa [search] using hv', hsub, fun m hm => htasks m ?_⟩
        simpa using hm
      | enter n =>
        by_cases hn : n ∈ seen
        · obtain ⟨seen', hv', hsub, htasks⟩ := ih rest seen finished (hv.skip hn) hrest
            (by unfold remaining at *; simp only [List.length_cons] at hlt; omega)
          refine ⟨seen', by simpa [search, hn] using hv', hsub, fun m hm => ?_⟩
          rcases List.mem_cons.mp hm with heq | hm
          · cases heq
            exact hsub n hn
          · exact htasks m hm
        · have hnode : n ∈ g.nodes := hnodes (.enter n) (List.mem_cons_self ..)
          have htotal : totalOf (fun n => (g.callees n).length + 1)
              (g.nodes.filter (· ∉ n :: seen)) + ((g.callees n).length + 1) ≤
              totalOf (fun n => (g.callees n).length + 1) (g.nodes.filter (· ∉ seen)) :=
            totalOf_filter_lt _ (by simp_all) (by simpa using hn) (by simp) hnode
          obtain ⟨seen', hv', hsub, htasks⟩ :=
            ih ((g.callees n).map .enter ++ .leave n :: rest) (n :: seen) finished (hv.enter hn)
              (by
                intro t ht
                rcases List.mem_append.mp ht with ht | ht
                · obtain ⟨b, hb, rfl⟩ := List.mem_map.mp ht
                  exact hg n b hb
                · rcases List.mem_cons.mp ht with rfl | ht
                  · exact hnode
                  · exact hrest t ht)
              (by
                unfold remaining at *
                simp only [List.length_cons, List.length_append, List.length_map] at hlt ⊢
                omega)
          refine ⟨seen', by simpa [search, hn] using hv',
            fun m hm => hsub m (List.mem_cons_of_mem _ hm), fun m hm => ?_⟩
          rcases List.mem_cons.mp hm with heq | hm
          · cases heq
            exact hsub n (List.mem_cons_self ..)
          · exact htasks m (by simp [hm])

/-- A search finds nothing but what its tasks lead to. -/
theorem search_closed {P : String → Prop} (hP : ∀ a b, P a → Edge g a b → P b) (bound : ℕ) :
    ∀ (tasks : List Task) (seen finished : List String), (∀ t ∈ tasks, P (node t)) →
      (∀ m ∈ finished, P m) → ∀ m ∈ g.search bound tasks seen finished, P m := by
  induction bound with
  | zero => intro tasks seen finished _ hfin; simpa [search] using hfin
  | succ bound ih =>
    intro tasks seen finished htasks hfin
    rcases tasks with _ | ⟨t, rest⟩
    · simpa [search] using hfin
    · have hrest : ∀ t ∈ rest, P (node t) := fun t ht => htasks t (List.mem_cons_of_mem _ ht)
      have hnode : P (node t) := htasks t (List.mem_cons_self ..)
      cases t with
      | leave n =>
        simp only [search]
        refine ih rest seen (n :: finished) hrest fun m hm => ?_
        rcases List.mem_cons.mp hm with rfl | hm
        · exact hnode
        · exact hfin m hm
      | enter n =>
        simp only [search]
        split
        · exact ih rest seen finished hrest hfin
        · refine ih _ _ _ (fun t ht => ?_) hfin
          rcases List.mem_append.mp ht with ht | ht
          · obtain ⟨b, hb, rfl⟩ := List.mem_map.mp ht
            exact hP n b hnode hb
          · rcases List.mem_cons.mp ht with rfl | ht
            · exact hnode
            · exact hrest t ht

theorem totalOf_succ {α : Type} (weight : α → ℕ) (elements : List α) :
    totalOf (fun a => weight a + 1) elements = totalOf weight elements + elements.length := by
  induction elements with
  | nil => rfl
  | cons a rest ih => simp only [totalOf_cons, List.length_cons, ih]; omega

/-- The bound of a search is enough for one from every node. -/
theorem remaining_lt_searchBound {names : List String} (h : names.length ≤ g.nodes.length) :
    remaining g (names.map .enter) [] < g.searchBound := by
  unfold remaining searchBound
  rw [show g.nodes.filter (fun n => decide (n ∉ ([] : List String))) = g.nodes by simp,
    totalOf_succ, List.length_map]
  omega

/-- The outcome of a search from some nodes: a list of nodes without repetition that is closed under
calls and has them all. -/
theorem search_from (hg : Complete g) (names : List String) (hnames : ∀ n ∈ names, n ∈ g.nodes)
    (hlen : names.length ≤ g.nodes.length) :
    ∃ seen, Visited g [] seen (g.search g.searchBound (names.map .enter) [] []) ∧
      ∀ n ∈ names, n ∈ g.search g.searchBound (names.map .enter) [] [] := by
  obtain ⟨seen, hv, -, hall⟩ := search_spec hg g.searchBound (names.map .enter) [] []
    (visited_start g names) (by simpa [node] using hnames) (remaining_lt_searchBound hlen)
  refine ⟨seen, hv, fun n hn => ?_⟩
  have := (hv.mem_seen n).mp (hall n (List.mem_map.mpr ⟨n, hn, rfl⟩))
  simpa using this

/-- **The nodes found from one node** are those it reaches. -/
theorem mem_reachable (hg : Complete g) {a : String} (ha : a ∈ g.nodes) (b : String) :
    b ∈ g.reachable a ↔ Reaches g a b := by
  constructor
  · intro hb
    refine search_closed (P := Reaches g a) (fun u v hu huv => hu.tail huv) g.searchBound
      [.enter a] [] [] ?_ (by simp) b hb
    intro t ht
    rw [List.mem_singleton.mp ht]
    exact ReflTransGen.refl
  · intro hab
    obtain ⟨seen, hv, hmem⟩ := search_from hg [a] (by simpa using ha)
      (List.length_pos_of_mem ha)
    induction hab with
    | refl => exact hmem a (List.mem_singleton_self a)
    | tail _ hcall ih =>
      have := hv.finished_calls _ ih _ hcall
      rw [stack_nil] at this
      exact this.resolve_right (List.not_mem_nil)

theorem mem_finishOrder (hg : Complete g) {a : String} : a ∈ g.finishOrder ↔ a ∈ g.nodes := by
  constructor
  · exact search_closed (P := (· ∈ g.nodes)) (fun u v _ huv => hg u v huv) g.searchBound
      (g.nodes.map .enter) [] [] (by simp [node]) (by simp) a
  · obtain ⟨seen, -, hmem⟩ := search_from hg g.nodes (fun n hn => hn) (Nat.le_refl _)
    exact hmem a

theorem nodup_finishOrder (hg : Complete g) : g.finishOrder.Nodup := by
  obtain ⟨seen, hv, -⟩ := search_from hg g.nodes (fun n hn => hn) (Nat.le_refl _)
  have := hv.nodup
  rwa [stack_nil, List.append_nil] at this

/-- **The order of finishing.**  If a node reaches one in front of it, a member of its own component
is in front of it. -/
theorem finishOrder_root (hg : Complete g) {late early : List String} {a w : String}
    (hsplit : g.finishOrder = late ++ a :: early) (hw : w ∈ late) (hreach : Reaches g a w) :
    ∃ m ∈ late, Mutual g a m := by
  obtain ⟨seen, hv, -⟩ := search_from hg g.nodes (fun n hn => hn) (Nat.le_refl _)
  have hnodup := nodup_finishOrder hg
  rw [hsplit] at hnodup
  have hw' : w ∉ a :: early := fun hmem =>
    (List.nodup_append.mp hnodup).2.2 w hw w hmem rfl
  obtain ⟨m, hm, hmutual⟩ := hv.roots late a early hsplit w hreach hw'
  exact ⟨m, by simpa using hm, hmutual⟩

end Codegen6502.Proofs.Calls.Search
