import Codegen6502.Liveness.Basic
import Mathlib.Algebra.Order.BigOperators.Group.Finset
import Mathlib.Algebra.Order.Ring.Nat
import Mathlib.Data.List.Perm.Subperm
import Mathlib.Data.List.Sort

/-!
# The sets of live items settle

Sweeping over the code reaches sets that satisfy the flow equations before the bound on the number
of sweeps runs out.

* `contains_union`, `contains_diff`: the operations on sets, by their members;
* `Rising`: what every sweep keeps.  The sets are in ascending order, hold only items that are used
  somewhere, and lie below what the equations make of them;
* `settled`: another sweep over the settled sets changes nothing.  Each sweep before that adds
  an item to some set, and there is only room for `sweepBound` of them.
-/

namespace Codegen6502.Proofs.Liveness.Settling

open Codegen6502.Liveness

/-! ### Sets -/

theorem rank_injective : Function.Injective Item.rank := by
  intro a b h
  cases a with
  | reg r => cases b with
    | reg s => cases r <;> cases s <;> simp_all [Item.rank]
    | vreg w => cases r <;> simp [Item.rank] at h <;> omega
    | _ => cases r <;> simp [Item.rank] at h
  | vreg v => cases b with
    | reg s => cases s <;> simp [Item.rank] at h <;> omega
    | vreg w =>
      simp only [Item.rank, Nat.add_left_cancel_iff] at h
      rw [show v = w from congrArg VReg.mk (UInt32.toNat_inj.mp h)]
    | _ => simp [Item.rank] at h; omega
  | nz => cases b with
    | reg s => cases s <;> simp [Item.rank] at h
    | vreg w => simp [Item.rank] at h; omega
    | _ => simp_all [Item.rank]
  | carry => cases b with
    | reg s => cases s <;> simp [Item.rank] at h
    | vreg w => simp [Item.rank] at h; omega
    | _ => simp_all [Item.rank]

/-- Ascending order without repetition. -/
def Ascending (items : List Item) : Prop := items.Pairwise fun a b => a.rank < b.rank

theorem mem_merge (xs ys : List Item) (item : Item) :
    item ∈ LiveSet.merge xs ys ↔ item ∈ xs ∨ item ∈ ys := by
  fun_induction LiveSet.merge xs ys with
  | case1 ys => simp
  | case2 xs h => simp
  | case3 x xs ys ih => simp only [List.mem_cons, ih]; grind
  | case4 x xs y ys hne hlt ih => simp only [List.mem_cons, ih]; grind
  | case5 x xs y ys hne hlt ih => simp only [List.mem_cons, ih]; grind

theorem ascending_merge (xs ys : List Item) (hx : Ascending xs) (hy : Ascending ys) :
    Ascending (LiveSet.merge xs ys) := by
  fun_induction LiveSet.merge xs ys with
  | case1 ys => exact hy
  | case2 xs h => exact hx
  | case3 x xs ys ih =>
    obtain ⟨hxs, hx⟩ := List.pairwise_cons.mp hx
    obtain ⟨hys, hy⟩ := List.pairwise_cons.mp hy
    refine List.pairwise_cons.mpr ⟨fun a ha => ?_, ih hx hy⟩
    rcases (mem_merge ..).mp ha with ha | ha
    · exact hxs a ha
    · exact hys a ha
  | case4 x xs y ys hne hlt ih =>
    obtain ⟨hxs, hx⟩ := List.pairwise_cons.mp hx
    refine List.pairwise_cons.mpr ⟨fun a ha => ?_, ih hx hy⟩
    rcases (mem_merge ..).mp ha with ha | ha
    · exact hxs a ha
    · rcases List.mem_cons.mp ha with rfl | ha
      · exact hlt
      · exact hlt.trans ((List.pairwise_cons.mp hy).1 a ha)
  | case5 x xs y ys hne hlt ih =>
    have hyx : y.rank < x.rank :=
      lt_of_le_of_ne (Nat.le_of_not_lt hlt) fun h => hne (rank_injective h).symm
    obtain ⟨hys, hy⟩ := List.pairwise_cons.mp hy
    refine List.pairwise_cons.mpr ⟨fun a ha => ?_, ih hx hy⟩
    rcases (mem_merge ..).mp ha with ha | ha
    · rcases List.mem_cons.mp ha with rfl | ha
      · exact hyx
      · exact hyx.trans ((List.pairwise_cons.mp hx).1 a ha)
    · exact hys a ha

@[simp] theorem contains_union (s t : LiveSet) (item : Item) :
    (s.union t).contains item = (s.contains item || t.contains item) := by
  rw [Bool.eq_iff_iff]
  simp [LiveSet.contains, LiveSet.union, mem_merge]

@[simp] theorem contains_diff (s t : LiveSet) (item : Item) :
    (s.diff t).contains item = (s.contains item && !t.contains item) := by
  rw [Bool.eq_iff_iff]
  simp [LiveSet.contains, LiveSet.diff]

@[simp] theorem contains_none (item : Item) : LiveSet.contains {} item = false := rfl

/-- Inclusion of sets. -/
def Within (s t : LiveSet) : Prop := ∀ item, s.contains item = true → t.contains item = true

theorem Within.refl (s : LiveSet) : Within s s := fun _ h => h

theorem Within.trans {s t u : LiveSet} (hst : Within s t) (htu : Within t u) : Within s u :=
  fun item h => htu item (hst item h)

theorem Ascending.nodup {items : List Item} (h : Ascending items) : items.Nodup :=
  h.imp fun hab heq => by subst heq; exact lt_irrefl _ hab

/-- A set in ascending order within another is a sublist of it. -/
theorem sublist_of_within {s t : LiveSet} (hs : Ascending s.items) (ht : Ascending t.items)
    (h : Within s t) : s.items.Sublist t.items := by
  have : Std.Antisymm fun a b : Item => a.rank < b.rank :=
    ⟨fun a b hab hba => absurd hba (Nat.lt_asymm hab)⟩
  refine List.sublist_of_subperm_of_pairwise (List.subperm_of_subset hs.nodup ?_) hs ht
  intro item hitem
  have hcontains := h item
  simp only [LiveSet.contains, List.contains_iff_mem] at hcontains
  exact hcontains hitem

theorem eq_of_within {s t : LiveSet} (hs : Ascending s.items) (ht : Ascending t.items)
    (h : Within s t) (hlength : t.items.length ≤ s.items.length) : s = t := by
  have hitems := (sublist_of_within hs ht h).eq_of_length_le hlength
  cases s
  cases t
  simp_all

/-! ### The equations -/

variable {graph : Array FlowNode} {before after : Array LiveSet} {node : FlowNode}

theorem contains_outOf (before : Array LiveSet) (node : FlowNode) (item : Item) :
    (outOf before node).contains item = true ↔
      ∃ j ∈ node.next, (before.getD j {}).contains item = true := by
  have key : ∀ (next : List ℕ) (s : LiveSet),
      (next.foldl (fun s j => s.union (before.getD j {})) s).contains item = true ↔
        s.contains item = true ∨ ∃ j ∈ next, (before.getD j {}).contains item = true := by
    intro next
    induction next with
    | nil => simp
    | cons j rest ih =>
      intro s
      rw [List.foldl_cons, ih, contains_union, Bool.or_eq_true]
      simp only [List.mem_cons, exists_eq_or_imp]
      grind
  unfold outOf
  rw [key]
  simp

theorem contains_inOf (before : Array LiveSet) (node : FlowNode) (item : Item) :
    (inOf before node).contains item = true ↔
      (outOf before node).contains item = true ∧ node.defs.contains item = false ∨
        node.uses.contains item = true := by
  simp [inOf]

theorem ascending_outOf (h : ∀ i, Ascending (before.getD i {}).items) (node : FlowNode) :
    Ascending (outOf before node).items := by
  have key : ∀ (next : List ℕ) (s : LiveSet), Ascending s.items →
      Ascending (next.foldl (fun s j => s.union (before.getD j {})) s).items := by
    intro next
    induction next with
    | nil => exact fun s hs => hs
    | cons j rest ih => exact fun s hs => ih _ (ascending_merge _ _ hs (h j))
  exact key node.next {} List.Pairwise.nil

theorem ascending_inOf (h : ∀ i, Ascending (before.getD i {}).items)
    (huses : Ascending node.uses.items) : Ascending (inOf before node).items :=
  ascending_merge _ _ ((ascending_outOf h node).filter _) huses

/-- Inclusion of the sets of every line. -/
def Below (before after : Array LiveSet) : Prop :=
  ∀ i, Within (before.getD i {}) (after.getD i {})

theorem Below.refl (before : Array LiveSet) : Below before before := fun _ => .refl _

theorem Below.trans {b c d : Array LiveSet} (hbc : Below b c) (hcd : Below c d) : Below b d :=
  fun i => (hbc i).trans (hcd i)

theorem inOf_mono (h : Below before after) (node : FlowNode) :
    Within (inOf before node) (inOf after node) := by
  intro item hitem
  rw [contains_inOf, contains_outOf] at hitem ⊢
  rcases hitem with ⟨⟨j, hj, hlive⟩, hdefs⟩ | huses
  · exact .inl ⟨⟨j, hj, h j item hlive⟩, hdefs⟩
  · exact .inr huses

/-! ### One update -/

/-- The sets on the way up to a solution of the equations. -/
structure Rising (graph : Array FlowNode) (used : List Item) (exit : LiveSet)
    (before : Array LiveSet) : Prop where
  size : before.size = graph.size + 1
  exit : before.getD graph.size {} = exit
  ascending : ∀ i, Ascending (before.getD i {}).items
  used : ∀ i item, (before.getD i {}).contains item = true → item ∈ used
  below : ∀ (i : ℕ) (node : FlowNode), graph[i]? = some node →
    Within (before.getD i {}) (inOf before node)

/-- What is asked of a graph: the sets of used items are in order, and the items are among those
that are counted. -/
structure Counted (graph : Array FlowNode) (used : List Item) : Prop where
  ascending : ∀ (i : ℕ) (node : FlowNode), graph[i]? = some node → Ascending node.uses.items
  used : ∀ (i : ℕ) (node : FlowNode), graph[i]? = some node →
    ∀ item, node.uses.contains item = true → item ∈ used

theorem update_getD (hsize : before.size = graph.size + 1) (i j : ℕ) :
    (update graph before i).getD j {} =
      match graph[i]? with
      | some node => if i = j then inOf before node else before.getD j {}
      | none => before.getD j {} := by
  unfold update
  cases hnode : graph[i]? with
  | none => rfl
  | some node =>
    have hi : i < before.size := by
      have := (Array.getElem?_eq_some_iff.mp hnode).1
      omega
    simp only [Array.getD_eq_getD_getElem?, Array.getElem?_setIfInBounds]
    split_ifs <;> simp

theorem size_update (graph : Array FlowNode) (before : Array LiveSet) (i : ℕ) :
    (update graph before i).size = before.size := by
  unfold update
  split <;> simp

variable {used : List Item} {exit : LiveSet}

theorem Rising.below_update (h : Rising graph used exit before) (i : ℕ) :
    Below before (update graph before i) := by
  intro j item hitem
  rw [update_getD h.size]
  cases hnode : graph[i]? with
  | none => exact hitem
  | some node =>
    dsimp only
    split_ifs with hij
    · exact h.below i node hnode item (hij ▸ hitem)
    · exact hitem

/-- **An update keeps the sets rising.** -/
theorem Rising.update (hgraph : Counted graph used) (h : Rising graph used exit before) (i : ℕ) :
    Rising graph used exit (update graph before i) := by
  have hbelow := h.below_update i
  cases hnode : graph[i]? with
  | none =>
    have : Liveness.update graph before i = before := by unfold Liveness.update; rw [hnode]
    rw [this]
    exact h
  | some node =>
    have hget : ∀ j, (Liveness.update graph before i).getD j {} =
        if i = j then inOf before node else before.getD j {} := by
      intro j
      rw [update_getD h.size, hnode]
    have hi : i < graph.size := (Array.getElem?_eq_some_iff.mp hnode).1
    refine ⟨by rw [size_update, h.size], ?_, fun j => ?_, fun j item hitem => ?_,
      fun j other hother item hitem => ?_⟩
    · rw [hget, if_neg (by omega)]
      exact h.exit
    · rw [hget]
      split_ifs
      · exact ascending_inOf h.ascending (hgraph.ascending i node hnode)
      · exact h.ascending j
    · rw [hget] at hitem
      split_ifs at hitem
      · rw [contains_inOf, contains_outOf] at hitem
        rcases hitem with ⟨⟨k, -, hlive⟩, -⟩ | huses
        · exact h.used k item hlive
        · exact hgraph.used i node hnode item huses
      · exact h.used j item hitem
    · refine inOf_mono hbelow other item ?_
      rw [hget] at hitem
      split_ifs at hitem with hij
      · subst hij
        rw [hnode] at hother
        cases hother
        exact hitem
      · exact h.below j other hother item hitem

/-! ### Sweeps -/

theorem Rising.updates (hgraph : Counted graph used) (indices : List ℕ) :
    ∀ {before : Array LiveSet}, Rising graph used exit before →
      Rising graph used exit (indices.foldl (Liveness.update graph) before) ∧
        Below before (indices.foldl (Liveness.update graph) before) := by
  induction indices with
  | nil => exact fun h => ⟨h, .refl _⟩
  | cons i rest ih =>
    intro before h
    obtain ⟨hrising, hbelow⟩ := ih (h.update hgraph i)
    exact ⟨hrising, (h.below_update i).trans hbelow⟩

theorem updates_getD_of_not_mem (indices : List ℕ) :
    ∀ {before : Array LiveSet}, before.size = graph.size + 1 → ∀ j ∉ indices,
      (indices.foldl (Liveness.update graph) before).getD j {} = before.getD j {} := by
  induction indices with
  | nil => exact fun _ _ _ => rfl
  | cons i rest ih =>
    intro before hsize j hj
    rw [List.mem_cons, not_or] at hj
    rw [List.foldl_cons, ih (by rw [size_update, hsize]) j hj.2, update_getD hsize]
    cases graph[i]? with
    | none => rfl
    | some node => exact if_neg (Ne.symm hj.1)

theorem eq_of_getD {b c : Array LiveSet} (hsize : b.size = c.size)
    (h : ∀ i, b.getD i {} = c.getD i {}) : b = c := by
  refine Array.ext hsize fun i hb hc => ?_
  have := h i
  simpa [Array.getD, hb, hc] using this

/-- Updates of different lines that change nothing together change nothing one by one. -/
theorem update_eq_of_updates (indices : List ℕ) :
    ∀ {before : Array LiveSet}, before.size = graph.size + 1 → indices.Nodup →
      indices.foldl (Liveness.update graph) before = before →
      ∀ i ∈ indices, Liveness.update graph before i = before := by
  induction indices with
  | nil => simp
  | cons i rest ih =>
    intro before hsize hnodup hfixed
    obtain ⟨hi, hrest⟩ := List.nodup_cons.mp hnodup
    have hsize' : (Liveness.update graph before i).size = graph.size + 1 := by
      rw [size_update, hsize]
    -- Line `i` is not touched again, so it already has its old set after its own update.
    have hfirst : Liveness.update graph before i = before := by
      refine eq_of_getD (size_update ..) fun j => ?_
      by_cases hj : i = j
      · subst hj
        rw [← updates_getD_of_not_mem rest hsize' i hi, ← List.foldl_cons, hfixed]
      · rw [update_getD hsize]
        cases graph[i]? with
        | none => rfl
        | some node => exact if_neg hj
    rw [List.foldl_cons, hfirst] at hfixed
    intro j hj
    rcases List.mem_cons.mp hj with rfl | hj
    · exact hfirst
    · exact ih hsize hrest hfixed j hj

/-! ### Room for items -/

/-- The number of live items in the sets of all lines. -/
def population (graph : Array FlowNode) (before : Array LiveSet) : ℕ :=
  ∑ i ∈ Finset.range graph.size, (before.getD i {}).items.length

theorem Rising.population_le (h : Rising graph used exit before) :
    population graph before ≤ graph.size * used.length := by
  have hlength : ∀ i ∈ Finset.range graph.size,
      (before.getD i {}).items.length ≤ used.length := by
    intro i _
    refine (List.subperm_of_subset (h.ascending i).nodup fun item hitem => ?_).length_le
    exact h.used i item (by simpa [LiveSet.contains] using hitem)
  calc population graph before
      ≤ ∑ _i ∈ Finset.range graph.size, used.length := Finset.sum_le_sum hlength
    _ = graph.size * used.length := by simp

/-- Sets that have grown hold more items. -/
theorem Rising.population_lt (h : Rising graph used exit before)
    (hafter : Rising graph used exit after) (hbelow : Below before after) (hne : after ≠ before) :
    population graph before < population graph after := by
  have hle : ∀ i, (before.getD i {}).items.length ≤ (after.getD i {}).items.length := fun i =>
    (sublist_of_within (h.ascending i) (hafter.ascending i) (hbelow i)).length_le
  by_contra hpopulation
  refine hne (eq_of_getD (by rw [h.size, hafter.size]) fun i => ?_)
  symm
  refine eq_of_within (h.ascending i) (hafter.ascending i) (hbelow i) ?_
  rcases Nat.lt_trichotomy i graph.size with hi | rfl | hi
  · by_contra hlt
    exact hpopulation (Finset.sum_lt_sum (fun j _ => hle j)
      ⟨i, Finset.mem_range.mpr hi, Nat.lt_of_not_le hlt⟩)
  · rw [h.exit, hafter.exit]
  · have hout : after.getD i {} = {} := by
      rw [Array.getD_eq_getD_getElem?, Array.getElem?_eq_none (by rw [hafter.size]; omega)]
      rfl
    rw [hout]
    exact Nat.zero_le _

/-! ### The solution -/

/-- The sets of a solution: a sweep changes nothing. -/
theorem Rising.settle (hgraph : Counted graph used) (bound : ℕ) :
    ∀ {before : Array LiveSet}, Rising graph used exit before →
      graph.size * used.length < population graph before + bound →
      Rising graph used exit (settle graph bound before) ∧
        sweep graph (settle graph bound before) = settle graph bound before := by
  induction bound with
  | zero =>
    intro before h hbound
    have := h.population_le
    omega
  | succ bound ih =>
    intro before h hbound
    obtain ⟨hafter, hbelow⟩ := h.updates hgraph (List.range graph.size).reverse
    unfold Liveness.settle
    dsimp only
    split_ifs with hfixed
    · exact ⟨h, hfixed⟩
    · have hlt := h.population_lt hafter hbelow hfixed
      refine ih hafter ?_
      change _ < population graph (sweep graph before) at hlt
      omega

/-- The items that are counted for the bound. -/
def counted (graph : Array FlowNode) (exit : LiveSet) : List Item :=
  graph.toList.flatMap (fun node => node.uses.items) ++ exit.items

theorem length_counted (graph : Array FlowNode) (exit : LiveSet) :
    graph.size * (counted graph exit).length + 1 = sweepBound graph exit := by
  have key : ∀ nodes : List FlowNode, (nodes.flatMap fun node => node.uses.items).length =
      totalOf (fun node => node.uses.items.length) nodes := by
    intro nodes
    induction nodes with
    | nil => rfl
    | cons node rest ih => simp [ih]
  unfold sweepBound counted
  rw [List.length_append, key]

/-- **The settled sets solve the equations**: with sets in ascending order to start from, what is
live before a line is what the line makes of what is live before its successors. -/
theorem settled (graph : Array FlowNode) (exit : LiveSet) (hexit : Ascending exit.items)
    (huses : ∀ (i : ℕ) (node : FlowNode), graph[i]? = some node → Ascending node.uses.items) :
    let before := settle graph (sweepBound graph exit)
      ((Array.replicate graph.size LiveSet.empty).push exit)
    before.getD graph.size {} = exit ∧
      ∀ (i : ℕ) (node : FlowNode), graph[i]? = some node →
        before.getD i {} = inOf before node := by
  have hgraph : Counted graph (counted graph exit) := by
    refine ⟨huses, fun i node hnode item hitem => ?_⟩
    refine List.mem_append_left _ (List.mem_flatMap.mpr ⟨node, ?_, ?_⟩)
    · exact Array.mem_toList_iff.mpr (Array.mem_of_getElem? hnode)
    · simpa [LiveSet.contains] using hitem
  have hstart : ∀ i, ((Array.replicate graph.size LiveSet.empty).push exit).getD i {} =
      if i = graph.size then exit else {} := by
    intro i
    simp only [Array.getD_eq_getD_getElem?, Array.getElem?_push, Array.size_replicate,
      Array.getElem?_replicate]
    split_ifs <;> rfl
  have hrising : Rising graph (counted graph exit) exit
      ((Array.replicate graph.size LiveSet.empty).push exit) := by
    refine ⟨by simp, by rw [hstart, if_pos rfl], fun i => ?_, fun i item hitem => ?_,
      fun i node hnode item hitem => ?_⟩
    · rw [hstart]
      split_ifs
      · exact hexit
      · exact List.Pairwise.nil
    · rw [hstart] at hitem
      split_ifs at hitem
      · exact List.mem_append_right _ (by simpa [LiveSet.contains] using hitem)
      · cases hitem
    · have hi : i < graph.size := (Array.getElem?_eq_some_iff.mp hnode).1
      rw [hstart, if_neg (by omega)] at hitem
      cases hitem
  obtain ⟨hsettled, hsweep⟩ := hrising.settle hgraph (sweepBound graph exit)
    (by rw [← length_counted]; omega)
  refine ⟨hsettled.exit, fun i node hnode => ?_⟩
  have hi : i < graph.size := (Array.getElem?_eq_some_iff.mp hnode).1
  have hupdate := update_eq_of_updates (List.range graph.size).reverse hsettled.size
    (List.nodup_reverse.mpr List.nodup_range) hsweep i (by simpa using hi)
  have hget := update_getD hsettled.size i i
  rw [hupdate, hnode] at hget
  simpa using hget

end Codegen6502.Proofs.Liveness.Settling
