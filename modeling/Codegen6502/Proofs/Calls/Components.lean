import Codegen6502.Proofs.Calls.Search
import Codegen6502.Support
import Mathlib.Data.List.Induction

/-!
# Components of the call graph

The components are the classes of mutual reachability, and callees come in front of their callers.

* `mem_components`, `nodup_components`: the components divide the nodes up;
* `mutual_of_mem`: the members of a component reach each other;
* `components_callees_first`: what a member reaches is in its own component or in an earlier one.
-/

namespace Codegen6502.Proofs.Calls.Components

open CallGraph Relation Search

/-! ### Lists without repetition -/

theorem mem_eraseRepsBy_loop {α : Type} [BEq α] [LawfulBEq α] (b : α) :
    ∀ (rest : List α) (a : α) (done : List α),
      b ∈ List.eraseRepsBy.loop (· == ·) a rest done ↔ b = a ∨ b ∈ rest ∨ b ∈ done
  | [], a, done => by simp [List.eraseRepsBy.loop, or_comm]
  | c :: rest, a, done => by
    unfold List.eraseRepsBy.loop
    split
    · rename_i heq
      rw [mem_eraseRepsBy_loop b rest a done, List.mem_cons, beq_iff_eq.mp heq]
      grind
    · rw [mem_eraseRepsBy_loop b rest c (a :: done), List.mem_cons, List.mem_cons]
      grind

theorem mem_eraseReps {α : Type} [BEq α] [LawfulBEq α] {b : α} {as : List α} :
    b ∈ as.eraseReps ↔ b ∈ as := by
  cases as with
  | nil => rfl
  | cons a rest =>
    unfold List.eraseReps List.eraseRepsBy
    rw [mem_eraseRepsBy_loop]
    simp

theorem nodup_eraseRepsBy_loop {α : Type} [BEq α] [LawfulBEq α] :
    ∀ (rest : List α) (a : α) (done : List α), (a :: rest ++ done).Nodup →
      (List.eraseRepsBy.loop (· == ·) a rest done).Nodup
  | [], a, done, h => by
    unfold List.eraseRepsBy.loop
    exact List.nodup_reverse.mpr (by simpa using h)
  | c :: rest, a, done, h => by
    unfold List.eraseRepsBy.loop
    split
    · rename_i heq
      rw [beq_iff_eq.mp heq] at h
      simp at h
    · refine nodup_eraseRepsBy_loop rest c (a :: done) ?_
      have hperm : (a :: c :: rest ++ done).Perm (c :: rest ++ a :: done) := by
        have hmiddle : ((c :: rest) ++ a :: done).Perm (a :: ((c :: rest) ++ done)) := List.perm_middle
        simpa using hmiddle.symm
      exact hperm.nodup_iff.mp h

theorem nodup_eraseReps {α : Type} [BEq α] [LawfulBEq α] {as : List α} (h : as.Nodup) :
    as.eraseReps.Nodup := by
  cases as with
  | nil => exact List.nodup_nil
  | cons a rest => exact nodup_eraseRepsBy_loop rest a [] (by simpa using h)

theorem nodup_eraseRepsBy_loop_of_sorted {α : Type} [BEq α] [LawfulBEq α] {le : α → α → Prop}
    (antisymm : ∀ a b, le a b → le b a → a = b) : ∀ (rest : List α) (a : α) (done : List α),
    (a :: rest).Pairwise le → done.Nodup → done.Disjoint (a :: rest) →
      (List.eraseRepsBy.loop (· == ·) a rest done).Nodup
  | [], a, done, _, hdone, hnew => by
    unfold List.eraseRepsBy.loop
    exact List.nodup_reverse.mpr (List.nodup_cons.mpr ⟨fun ha => hnew ha (List.mem_cons_self ..), hdone⟩)
  | c :: rest, a, done, hsorted, hdone, hnew => by
    unfold List.eraseRepsBy.loop
    obtain ⟨hfirst, hrest⟩ := List.pairwise_cons.mp hsorted
    split
    · rename_i heq
      obtain rfl := beq_iff_eq.mp heq
      exact nodup_eraseRepsBy_loop_of_sorted antisymm rest a done hrest hdone fun d hd hmem =>
        hnew hd (List.mem_cons_of_mem _ hmem)
    · rename_i hne
      refine nodup_eraseRepsBy_loop_of_sorted antisymm rest c (a :: done) hrest
        (List.nodup_cons.mpr ⟨fun ha => hnew ha (List.mem_cons_self ..), hdone⟩) fun d hd hmem => ?_
      rcases List.mem_cons.mp hd with rfl | hd
      · -- An element that comes again is next to itself in a sorted list.
        rcases List.mem_cons.mp hmem with rfl | hmem
        · simp at hne
        · have hle := hfirst c (List.mem_cons_self ..)
          have hge := (List.pairwise_cons.mp hrest).1 d hmem
          simp [antisymm d c hle hge] at hne
      · exact hnew hd (List.mem_cons_of_mem _ hmem)

/-- A sorted list has no element twice once the repetitions are gone. -/
theorem nodup_eraseReps_of_sorted {α : Type} [BEq α] [LawfulBEq α] {le : α → α → Prop}
    (antisymm : ∀ a b, le a b → le b a → a = b) {as : List α} (h : as.Pairwise le) :
    as.eraseReps.Nodup := by
  cases as with
  | nil => exact List.nodup_nil
  | cons a rest =>
    exact nodup_eraseRepsBy_loop_of_sorted antisymm rest a [] h List.nodup_nil
      (List.disjoint_nil_left _)

@[simp] theorem mem_sortedNames {n : String} {names : List String} :
    n ∈ sortedNames names ↔ n ∈ names := by
  unfold sortedNames
  rw [mem_eraseReps, List.mem_mergeSort]

theorem nodup_sortedNames {names : List String} (h : names.Nodup) : (sortedNames names).Nodup :=
  nodup_eraseReps ((List.mergeSort_perm names _).nodup_iff.mpr h)

variable {g : CallGraph}

/-! ### Orders of finishing -/

/-- What `finishOrder_root` says of a list. -/
def Rooted (g : CallGraph) (order : List String) : Prop :=
  ∀ late a early, order = late ++ a :: early → ∀ w ∈ late, Reaches g a w → ∃ m ∈ late, Mutual g a m

/-- Whatever reaches the first node belongs to its component. -/
theorem Rooted.mutual_head {n : String} {rest : List String} (h : Rooted g (n :: rest)) :
    ∀ (late early : List String) (a : String), n :: rest = late ++ a :: early → Reaches g a n →
      Mutual g a n := by
  intro late
  induction hlen : late.length using Nat.strongRecOn generalizing late with
  | _ k ih =>
    intro early a hsplit hreach
    rcases late with _ | ⟨l, late⟩
    · obtain ⟨rfl, -⟩ := List.cons_eq_cons.mp hsplit
      exact Mutual.refl n
    · obtain ⟨rfl, -⟩ := List.cons_eq_cons.mp hsplit
      obtain ⟨m, hm, ham⟩ := h (n :: late) a early hsplit n (List.mem_cons_self ..) hreach
      obtain ⟨front, back, hfront⟩ := List.append_of_mem hm
      have hmn : Mutual g m n := by
        refine ih front.length ?_ front rfl (back ++ a :: early) m ?_ (ham.2.trans hreach)
        · rw [← hlen, hfront]
          simp
        · rw [hsplit, hfront]
          simp
      exact ham.trans hmn

/-- Without the component of its first node an order is still one. -/
theorem Rooted.filter {n : String} {rest : List String} (h : Rooted g (n :: rest))
    {apart : String → Bool} (hapart : ∀ m ∈ rest, apart m = true ↔ ¬ Mutual g n m) :
    Rooted g (rest.filter apart) := by
  intro late a early hsplit w hw hreach
  obtain ⟨front, back, rfl, hfront, hback⟩ := List.filter_eq_append_iff.mp hsplit
  obtain ⟨skip, tail, rfl, hskip, ha, htail⟩ := List.filter_eq_cons_iff.mp hback
  have hwmem : w ∈ n :: (front ++ skip) := by
    rw [← hfront] at hw
    simp [List.mem_of_mem_filter hw]
  obtain ⟨m, hm, ham⟩ := h (n :: (front ++ skip)) a tail (by simp) w hwmem hreach
  have hna : ¬ Mutual g n a := (hapart a (by simp)).mp ha
  have hnm : ¬ Mutual g n m := fun hnm => hna (hnm.trans ham.symm)
  refine ⟨m, ?_, ham⟩
  rcases List.mem_cons.mp hm with rfl | hm
  · exact absurd (Mutual.refl m) hnm
  · have hkeep : apart m = true :=
      (hapart m (by simp only [List.mem_append, List.mem_cons] at hm ⊢; grind)).mpr hnm
    rcases List.mem_append.mp hm with hm | hm
    · rw [← hfront]
      exact List.mem_filter.mpr ⟨hm, hkeep⟩
    · exact absurd hkeep (hskip m hm)

/-! ### Classes -/

/-- A test for mutual reachability within a list. -/
def Tests (g : CallGraph) (together : String → String → Bool) (order : List String) : Prop :=
  ∀ a ∈ order, ∀ b ∈ order, together a b = true ↔ Mutual g a b

variable {together : String → String → Bool} {order : List String}

theorem classes_cons (n : String) (rest : List String) :
    classes together (n :: rest) = classes together (rest.filter fun m => !together n m) ++
      [sortedNames (n :: rest.filter fun m => together n m)] := by
  rw [classes]

/-- Induction along `classes`: the class of the first node is split off. -/
theorem classes_induction (together : String → String → Bool) {motive : List String → Prop}
    (nil : motive [])
    (cons : ∀ n rest, motive (rest.filter fun m => !together n m) → motive (n :: rest)) :
    ∀ order, motive order
  | [] => nil
  | n :: rest => cons n rest (classes_induction together nil cons _)
termination_by order => order.length
decreasing_by exact Nat.lt_succ_of_le (List.length_filter_le ..)

theorem mem_classes (together : String → String → Bool) (order : List String) :
    ∀ a, a ∈ (classes together order).flatten ↔ a ∈ order := by
  induction order using classes_induction together with
  | nil => simp [classes]
  | cons n rest ih =>
    intro a
    simp only [classes_cons, List.flatten_append, List.mem_append, ih a, List.mem_filter,
      List.flatten_cons, List.flatten_nil, List.append_nil, mem_sortedNames, List.mem_cons]
    cases together n a <;> simp [or_comm]

theorem nodup_classes (order : List String) (h : order.Nodup) :
    (classes together order).flatten.Nodup := by
  induction order using classes_induction together with
  | nil => simp [classes]
  | cons n rest ih =>
    rw [classes_cons]
    obtain ⟨hn, hrest⟩ := List.nodup_cons.mp h
    have hclass : (n :: rest.filter fun m => together n m).Nodup :=
      List.nodup_cons.mpr ⟨fun hmem => hn (List.mem_of_mem_filter hmem), hrest.filter _⟩
    rw [List.flatten_append, List.flatten_cons, List.flatten_nil, List.append_nil]
    refine List.nodup_append.mpr ⟨ih (hrest.filter _), nodup_sortedNames hclass, ?_⟩
    intro a ha b hb hab
    subst hab
    rw [mem_classes, List.mem_filter] at ha
    rw [mem_sortedNames, List.mem_cons, List.mem_filter] at hb
    rcases hb with rfl | hb
    · exact hn ha.1
    · simp [hb.2] at ha

theorem Tests.filter {n : String} {rest : List String} (h : Tests g together (n :: rest))
    (p : String → Bool) : Tests g together (rest.filter p) := fun a ha b hb =>
  h a (List.mem_cons_of_mem _ (List.mem_of_mem_filter ha)) b
    (List.mem_cons_of_mem _ (List.mem_of_mem_filter hb))

theorem mutual_of_mem_classes (order : List String) (h : Tests g together order) :
    ∀ component ∈ classes together order, ∀ a ∈ component, ∀ b ∈ component, Mutual g a b := by
  induction order using classes_induction together with
  | nil => simp [classes]
  | cons n rest ih =>
    rw [classes_cons]
    intro component hc a ha b hb
    rcases List.mem_append.mp hc with hc | hc
    · exact ih (h.filter _) component hc a ha b hb
    · have hmem : ∀ m ∈ component, Mutual g n m := by
        intro m hm
        rw [List.mem_singleton.mp hc, mem_sortedNames] at hm
        rcases List.mem_cons.mp hm with rfl | hm
        · exact Mutual.refl m
        · obtain ⟨hm, htog⟩ := List.mem_filter.mp hm
          exact (h n (List.mem_cons_self ..) m (List.mem_cons_of_mem _ hm)).mp htog
      exact (hmem a ha).symm.trans (hmem b hb)

/-- What a member of a class reaches is in its class or in an earlier one. -/
theorem classes_callees_first (order : List String) (htest : Tests g together order)
    (hroot : Rooted g order) :
    ∀ front component back, classes together order = front ++ component :: back →
      ∀ a ∈ component, ∀ b ∈ order, Reaches g a b → b ∈ component ∨ b ∈ front.flatten := by
  induction order using classes_induction together with
  | nil => simp [classes]
  | cons n rest ih =>
    rw [classes_cons]
    intro front component back hsplit a ha b hb hreach
    have hapart : ∀ m ∈ rest, (!together n m) = true ↔ ¬ Mutual g n m := by
      intro m hm
      have := htest n (List.mem_cons_self ..) m (List.mem_cons_of_mem _ hm)
      rw [← this]
      simp
    rcases List.eq_nil_or_concat back with rfl | ⟨init, last, rfl⟩
    · -- The class of the first node comes last; all other nodes are in front of it.
      obtain ⟨hfront, hlast⟩ := List.append_inj' hsplit rfl
      rw [← hfront, mem_classes, ← List.singleton_inj.mp hlast, mem_sortedNames]
      simp only [List.mem_cons, List.mem_filter] at hb ⊢
      cases together n b <;> simp_all
    · have hinit : classes together (rest.filter fun m => !together n m) =
          front ++ component :: init := by
        have : front ++ component :: (init ++ [last]) = (front ++ component :: init) ++ [last] := by
          simp
        rw [List.concat_eq_append, this] at hsplit
        exact (List.append_inj' hsplit rfl).1
      have haf : a ∈ rest.filter fun m => !together n m := by
        rw [← mem_classes together, hinit]
        simp [ha]
      obtain ⟨harest, hatog⟩ := List.mem_filter.mp haf
      have hna : ¬ Mutual g n a := (hapart a harest).mp hatog
      -- If the node reached were in the first node's class, so would be `a`.
      have hnb : ¬ Mutual g n b := by
        intro hnb
        obtain ⟨late, early, hlate⟩ := List.append_of_mem (List.mem_cons_of_mem n harest)
        exact hna (hroot.mutual_head late early a hlate (hreach.trans hnb.2)).symm
      have hbf : b ∈ rest.filter fun m => !together n m := by
        rcases List.mem_cons.mp hb with rfl | hb
        · exact absurd (Mutual.refl b) hnb
        · exact List.mem_filter.mpr ⟨hb, (hapart b hb).mpr hnb⟩
      exact ih (htest.filter _) (hroot.filter hapart) front component init hinit a ha b hbf hreach

/-! ### The components -/

/-- The table of what each node reaches. -/
theorem getD_reach (names : List String) (f : String → List String) {a : String} (ha : a ∈ names)
    (t : Std.TreeMap String (List String)) :
    (names.foldl (fun t n => t.insert n (f n)) t).getD a [] = f a := by
  induction names using List.reverseRecOn with
  | nil => simp at ha
  | append_singleton init n ih =>
    rw [List.foldl_append, List.foldl_cons, List.foldl_nil, Std.TreeMap.getD_insert]
    split
    · rename_i heq
      rw [Std.LawfulEqOrd.eq_of_compare heq]
    · rename_i hne
      refine ih ?_
      rcases List.mem_append.mp ha with ha | ha
      · exact ha
      · rw [List.mem_singleton.mp ha] at hne
        exact absurd Std.ReflCmp.compare_self hne

/-- The components are the classes of a test for mutual reachability. -/
theorem components_eq (hg : Complete g) :
    ∃ together, g.components = classes together g.finishOrder ∧
      Tests g together g.finishOrder := by
  refine ⟨_, rfl, fun a ha b hb => ?_⟩
  rw [mem_finishOrder hg] at ha hb
  simp only [getD_reach g.nodes g.reachable ha, getD_reach g.nodes g.reachable hb,
    Bool.and_eq_true, List.contains_iff_mem, mem_reachable hg ha, mem_reachable hg hb]
  rfl

theorem mem_components (hg : Complete g) (a : String) :
    a ∈ g.components.flatten ↔ a ∈ g.nodes := by
  obtain ⟨together, heq, -⟩ := components_eq hg
  rw [heq, mem_classes, mem_finishOrder hg]

theorem nodup_components (hg : Complete g) : g.components.flatten.Nodup := by
  obtain ⟨together, heq, -⟩ := components_eq hg
  rw [heq]
  exact nodup_classes _ (nodup_finishOrder hg)

theorem mutual_of_mem (hg : Complete g) {component : List String} (hc : component ∈ g.components)
    {a b : String} (ha : a ∈ component) (hb : b ∈ component) : Mutual g a b := by
  obtain ⟨together, heq, htest⟩ := components_eq hg
  rw [heq] at hc
  exact mutual_of_mem_classes _ htest component hc a ha b hb

/-- **Callees first.**  What a member of a component reaches is in it or in an earlier one. -/
theorem components_callees_first (hg : Complete g) {front back : List (List String)}
    {component : List String} (hsplit : g.components = front ++ component :: back) {a b : String}
    (ha : a ∈ component) (hreach : Reaches g a b) : b ∈ component ∨ b ∈ front.flatten := by
  obtain ⟨together, heq, htest⟩ := components_eq hg
  have hroot : Rooted g g.finishOrder := fun late a early hs w hw hr =>
    finishOrder_root hg hs hw hr
  have hmem : a ∈ g.nodes := by
    rw [← mem_components hg, hsplit]
    simp [ha]
  rw [heq] at hsplit
  exact classes_callees_first _ htest hroot front component back hsplit a ha b
    ((mem_finishOrder hg).mpr (reaches_mem hg hmem hreach)) hreach

end Codegen6502.Proofs.Calls.Components
