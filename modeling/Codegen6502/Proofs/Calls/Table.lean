import Codegen6502.Proofs.Calls.Closure
import Codegen6502.Proofs.Calls.Pipeline

/-!
# The table of clobber sets

The components of the call graph are allocated one after the other, callees first, and the set of
each function is closed before any caller outside of its component is allocated.

* `initialClobbers_spec`: what is known before;
* `allocateFunctions_spec`: the functions of one component;
* `Filled`, `allocateAll_filled`: what holds of the table at the end.  The set of a name is exactly
  what the functions overwrite that can be reached from it (`Filled.has_val`), and every function
  was allocated with the sets of the table for its callees in other components, and with the worst
  case for those in its own (`Filled.allocated`).
-/

namespace Codegen6502.Proofs.Calls.Table

open Compilation ClobberTable Computations Components Search ClobberSets Closure Pipeline Relation

variable {x : Compilation} {p : Program}

/-- A number of calls in a row, all of them in bodies. -/
def BodyReaches (x : Compilation) : String → String → Prop := ReflTransGen (BodyCalls x)

/-! ### Before any allocation -/

theorem closed_setFixed (t : ClobberTable) (n m : String) (set : Clobbers)
    (h : t.closed? m = t.own? m) : (t.setFixed n set).closed? m = (t.setFixed n set).own? m := by
  unfold closed? own? setFixed at *
  simp only [Std.TreeMap.getElem?_insert, h]

/-- The sets that a number of names get one after the other. -/
theorem foldl_setFixed {α : Type} (name : α → String) (set : α → Clobbers) (elements : List α)
    (t : ClobberTable) :
    (elements.foldl (fun t a => t.setFixed (name a) (set a)) t).unknown = t.unknown ∧
    (∀ n, t.closed? n = t.own? n →
      (elements.foldl (fun t a => t.setFixed (name a) (set a)) t).closed? n =
        (elements.foldl (fun t a => t.setFixed (name a) (set a)) t).own? n) ∧
    (∀ n, n ∉ elements.map name →
      (elements.foldl (fun t a => t.setFixed (name a) (set a)) t).own? n = t.own? n) ∧
    ((elements.map name).Nodup → ∀ a ∈ elements,
      (elements.foldl (fun t a => t.setFixed (name a) (set a)) t).own? (name a) = some (set a)) := by
  induction elements generalizing t with
  | nil => simp
  | cons a rest ih =>
    obtain ⟨hunknown, hclosed, hother, hmem⟩ := ih (t.setFixed (name a) (set a))
    refine ⟨hunknown, fun n hn => hclosed n (closed_setFixed t (name a) n (set a) hn),
      fun n hn => ?_, fun hnodup b hb => ?_⟩
    · rw [List.map_cons, List.mem_cons, not_or] at hn
      rw [List.foldl_cons, hother n hn.2]
      unfold own? setFixed
      rw [Std.TreeMap.getElem?_insert, if_neg]
      simpa using Ne.symm hn.1
    · rw [List.map_cons, List.nodup_cons] at hnodup
      rw [List.foldl_cons]
      rcases List.mem_cons.mp hb with rfl | hb
      · rw [hother _ hnodup.1]
        unfold own? setFixed
        rw [Std.TreeMap.getElem?_insert_self]
      · exact hmem hnodup.2 b hb

/-- **What is known before any allocation.** -/
theorem initialClobbers_spec (x : Compilation) (p : Program)
    (hnames : (p.functions.map (·.name)).Nodup) :
    (x.initialClobbers p).unknown = .everything x.convention.zeroPage ∧
    (∀ n, (x.initialClobbers p).closed? n = (x.initialClobbers p).own? n) ∧
    (∀ n, n ∉ x.routines.map Routine.name → n ∉ (declared p).map (·.name) →
      (x.initialClobbers p).own? n = none) ∧
    (∀ f ∈ declared p, (x.initialClobbers p).own? f.name =
      some ((x.bindings[f.name]?.bind (·.declaredClobbers)).getD
        (.everything x.convention.zeroPage))) := by
  have hdeclared : ((declared p).map (·.name)).Nodup := hnames.sublist (List.filter_sublist.map _)
  obtain ⟨hunknown, hclosed, hother, -⟩ := foldl_setFixed Routine.name x.routineClobbers x.routines
    { unknown := .everything x.convention.zeroPage }
  obtain ⟨hunknown', hclosed', hother', hmem'⟩ := foldl_setFixed FunctionDef.name
    (fun f => (x.bindings[f.name]?.bind (·.declaredClobbers)).getD
      (.everything x.convention.zeroPage)) (declared p)
    (x.routines.foldl (fun (t : ClobberTable) r => t.setFixed r.name (x.routineClobbers r))
      { unknown := .everything x.convention.zeroPage })
  refine ⟨hunknown'.trans hunknown, fun n => hclosed' n (hclosed n rfl), fun n hr hd => ?_,
    fun f hf => hmem' hdeclared f hf⟩
  have := hother' n hd
  rw [hother n hr] at this
  exact this

/-! ### One component -/

/-- What calls overwrite depends on the closed sets only. -/
theorem callClobbers_congr {t u : ClobberTable} (hclosed : t.closedSets = u.closedSets)
    (hunknown : t.unknown = u.unknown) (s : SelectedCode) :
    x.callClobbers t s = x.callClobbers u s := by
  have : ∀ n, t.closedOrUnknown n = u.closedOrUnknown n := by
    intro n
    unfold closedOrUnknown
    rw [hclosed, hunknown]
  have htarget : x.targetClobbers t = x.targetClobbers u := by
    funext target
    cases target <;> simp [targetClobbers, this]
  unfold callClobbers
  rw [htarget]

/-- The state after some names have been allocated, from the one before. -/
structure Allocates (x : Compilation) (names : List String) (before after : Progress) : Prop where
  closedSets_eq : after.clobbers.closedSets = before.clobbers.closedSets
  unknown_eq : after.clobbers.unknown = before.clobbers.unknown
  other : ∀ n, n ∉ names ∨ x.selected[n]? = none →
    after.clobbers.own? n = before.clobbers.own? n ∧ after.allocated[n]? = before.allocated[n]?
  member : ∀ n ∈ names, ∀ s, x.selected[n]? = some s → ∀ b, x.bindings[n]? = some b →
    ∃ a, allocate x.convention.zeroPage s b (x.callClobbers before.clobbers s) = .ok a ∧
      after.allocated[n]? = some a ∧ after.clobbers.own? n = some a.ownClobbers

/-- **Allocating the functions of a component.** -/
theorem allocateFunctions_spec
    (hbound : ∀ (n : String) s, x.selected[n]? = some s → ∃ b, x.bindings[n]? = some b)
    {names : List String} {before after : Progress}
    (h : names.foldlM x.allocateFunction before = .ok after) : Allocates x names before after := by
  refine foldlM_invariant h (fun done state => Allocates x done before state)
    ⟨rfl, rfl, by simp, by simp⟩ ?_
  intro done n rest state state' _ hinv hstep
  unfold allocateFunction at hstep
  cases hs : x.selected[n]? with
  | none =>
    have hstate : state' = state := by
      simp only [hs] at hstep
      cases hstep
      rfl
    subst hstate
    refine ⟨hinv.closedSets_eq, hinv.unknown_eq, fun m hm => hinv.other m ?_, fun m hm s hms => ?_⟩
    · rcases hm with hm | hm
      · exact Or.inl fun hmem => hm (by simp [hmem])
      · exact Or.inr hm
    · refine hinv.member m ?_ s hms
      rcases List.mem_append.mp hm with hm | hm
      · exact hm
      · rw [List.mem_singleton.mp hm, hs] at hms
        cases hms
  | some s =>
    obtain ⟨b, hb⟩ := hbound n s hs
    simp only [hs, hb] at hstep
    obtain ⟨a, ha, hstep⟩ := bind_eq_ok.mp hstep
    cases hstep
    rw [callClobbers_congr hinv.closedSets_eq hinv.unknown_eq] at ha
    have hne : ∀ m, m ≠ n → ¬ compare n m = .eq := fun m hm heq =>
      hm (Std.LawfulEqCmp.eq_of_compare heq).symm
    refine ⟨hinv.closedSets_eq, hinv.unknown_eq, fun m hm => ?_, fun m hm s' hms b' hmb => ?_⟩
    · have hmn : m ≠ n := by
        rintro rfl
        rcases hm with hm | hm
        · exact hm (by simp)
        · rw [hs] at hm
          cases hm
      obtain ⟨hown, hall⟩ := hinv.other m (hm.imp (fun h hmem => h (by simp [hmem])) id)
      simp only [setOwn, own?, Std.TreeMap.getElem?_insert, if_neg (hne m hmn)]
      exact ⟨hown, hall⟩
    · by_cases hmn : m = n
      · subst hmn
        rw [hs] at hms
        rw [hb] at hmb
        cases hms
        cases hmb
        exact ⟨a, ha, Std.TreeMap.getElem?_insert_self, Std.TreeMap.getElem?_insert_self⟩
      · have hm' : m ∈ done := by
          rcases List.mem_append.mp hm with hm | hm
          · exact hm
          · exact absurd (List.mem_singleton.mp hm) hmn
        simp only [setOwn, own?, Std.TreeMap.getElem?_insert, if_neg (hne m hmn)]
        exact hinv.member m hm' s' hms b' hmb

/-! ### Components of the call graph -/

/-- No function has the name of a support routine. -/
def Apart (x : Compilation) : Prop := ∀ r ∈ x.routines, x.selected[r.name]? = none

/-- The support routines that a routine goes on to are there as well. -/
def RoutinesClosed (x : Compilation) : Prop :=
  ∀ r ∈ x.routines, ∀ d ∈ r.dependencies, d ∈ x.routines

theorem edge_selected (hapart : Apart x) {a b : String} {s : SelectedCode}
    (ha : x.selected[a]? = some s) : Edge (x.callGraph p) a b ↔ BodyCalls x a b := by
  rw [(callGraph_spec x p).1]
  constructor
  · rintro (h | ⟨r, hr, rfl, -⟩)
    · exact h
    · rw [hapart r hr] at ha
      cases ha
  · exact Or.inl

/-- A support routine reaches no function. -/
theorem reaches_unselected (hapart : Apart x) (hclosed : RoutinesClosed x) {a b : String}
    (ha : x.selected[a]? = none) (h : Reaches (x.callGraph p) a b) : x.selected[b]? = none := by
  induction h with
  | refl => exact ha
  | tail _ hcall ih =>
    rcases ((callGraph_spec x p).1 _ _).mp hcall with ⟨s, hs, -⟩ | ⟨r, hr, -, hb⟩
    · rw [ih] at hs
      cases hs
    · obtain ⟨d, hd, rfl⟩ := List.mem_map.mp hb
      exact hapart d (hclosed r hr d hd)

/-- Where one member of a component is a function with a body, all are. -/
theorem component_selected (hapart : Apart x) (hclosed : RoutinesClosed x)
    {component : List String} (hc : component ∈ (x.callGraph p).components) {n m : String}
    (hn : n ∈ component) (hm : m ∈ component) {s : SelectedCode} (hs : x.selected[n]? = some s) :
    ∃ s', x.selected[m]? = some s' := by
  cases hsm : x.selected[m]? with
  | some s' => exact ⟨s', rfl⟩
  | none =>
    have hreach := (mutual_of_mem (callGraph_spec x p).2.1 hc hm hn).1
    rw [reaches_unselected hapart hclosed hsm hreach] at hs
    cases hs

/-! ### The invariant -/

theorem own_eq {t u : ClobberTable} {n : String} (hunknown : t.unknown = u.unknown)
    (h : t.own? n = u.own? n) : own t n = own u n := by
  unfold own
  unfold own? at h
  rw [Std.TreeMap.getD_eq_getD_getElem?, Std.TreeMap.getD_eq_getD_getElem?, h, hunknown]

/-- What holds when some components have been allocated. -/
structure Invariant (x : Compilation) (p : Program) (done : List (List String)) (state : Progress) :
    Prop where
  unknown_eq : state.clobbers.unknown = (x.initialClobbers p).unknown
  /-- Nothing is changed but for the functions of these components. -/
  unchanged : ∀ n, n ∉ done.flatten ∨ x.selected[n]? = none →
    state.clobbers.own? n = (x.initialClobbers p).own? n ∧
      state.clobbers.closed? n = (x.initialClobbers p).closed? n ∧ state.allocated[n]? = none
  /-- Each function was allocated with the sets of the table, and with what was known in advance of
  those that reach it. -/
  allocated : ∀ n ∈ done.flatten, ∀ s, x.selected[n]? = some s → ∀ b, x.bindings[n]? = some b →
    ∃ a t, allocate x.convention.zeroPage s b (x.callClobbers t s) = .ok a ∧
      state.allocated[n]? = some a ∧ state.clobbers.own? n = some a.ownClobbers ∧
      t.unknown = (x.initialClobbers p).unknown ∧
      ∀ m, Reaches (x.callGraph p) n m →
        (Reaches (x.callGraph p) m n → t.closed? m = (x.initialClobbers p).closed? m) ∧
        (¬ Reaches (x.callGraph p) m n → t.closed? m = state.clobbers.closed? m)
  sound : ∀ n ∈ done.flatten, ∀ s, x.selected[n]? = some s →
    Sub (own state.clobbers n) (val state.clobbers n) ∧
      ∀ c, BodyCalls x n c → Sub (val state.clobbers c) (val state.clobbers n)
  exact : ∀ n ∈ done.flatten, ∀ i, Has (val state.clobbers n) i →
    ∃ k ∈ done.flatten, BodyReaches x n k ∧ Has (own state.clobbers k) i

theorem invariant_start (x : Compilation) (p : Program) :
    Invariant x p [] { clobbers := x.initialClobbers p } :=
  ⟨rfl, fun n _ => ⟨rfl, rfl, by simp⟩, by simp, by simp, by simp⟩

/-- What a component starts from: the components in front of it have been allocated. -/
structure Setting (x : Compilation) (p : Program) (done : List (List String))
    (component : List String) : Prop where
  apart : Apart x
  routines : RoutinesClosed x
  names : (p.functions.map (·.name)).Nodup
  bound : ∀ (n : String) s, x.selected[n]? = some s → ∃ b, x.bindings[n]? = some b
  isNext : ∃ rest, (x.callGraph p).components = done ++ component :: rest

namespace Setting

variable {done : List (List String)} {component : List String}

theorem not_mem_done (h : Setting x p done component) {n : String} (hn : n ∈ component) :
    n ∉ done.flatten := by
  obtain ⟨rest, hsplit⟩ := h.isNext
  have hnodup := nodup_components (callGraph_spec x p).2.1
  rw [hsplit, List.flatten_append, List.flatten_cons] at hnodup
  exact fun hmem => (List.nodup_append.mp hnodup).2.2 n hmem n (by simp [hn]) rfl

theorem outside (h : Setting x p done component) {n : String} (hn : n ∈ done.flatten) :
    n ∉ component := fun hmem => h.not_mem_done hmem hn

theorem reaches_done (h : Setting x p done component) {n m : String} (hn : n ∈ done.flatten)
    (hreach : Reaches (x.callGraph p) n m) : m ∈ done.flatten := by
  obtain ⟨rest, hsplit⟩ := h.isNext
  obtain ⟨c, hc, hnc⟩ := List.mem_flatten.mp hn
  obtain ⟨front, back, rfl⟩ := List.append_of_mem hc
  have hsplit' : (x.callGraph p).components = front ++ c :: (back ++ component :: rest) := by
    simp [hsplit]
  have := components_callees_first (callGraph_spec x p).2.1 hsplit' hnc hreach
  simp only [List.flatten_append, List.flatten_cons, List.mem_append]
  grind

theorem reaches_component (h : Setting x p done component) {n m : String} (hn : n ∈ component)
    (hreach : Reaches (x.callGraph p) n m) : m ∈ component ∨ m ∈ done.flatten := by
  obtain ⟨rest, hsplit⟩ := h.isNext
  exact components_callees_first (callGraph_spec x p).2.1 hsplit hn hreach

theorem mem_components (h : Setting x p done component) :
    component ∈ (x.callGraph p).components := by
  obtain ⟨rest, hsplit⟩ := h.isNext
  simp [hsplit]

/-- The members of the component are those that reach each other. -/
theorem reaches_back_iff (h : Setting x p done component) {n m : String} (hn : n ∈ component)
    (hreach : Reaches (x.callGraph p) n m) : Reaches (x.callGraph p) m n ↔ m ∈ component := by
  constructor
  · intro hback
    rcases h.reaches_component hn hreach with hm | hm
    · exact hm
    · exact absurd (h.reaches_done hm hback) (h.not_mem_done hn)
  · intro hm
    exact (mutual_of_mem (callGraph_spec x p).2.1 h.mem_components hm hn).1

end Setting

/-! ### Steps of the invariant -/

section Step

variable {done : List (List String)} {component : List String} {state mid : Progress}

theorem mem_flatten_snoc {n : String} :
    n ∈ (done ++ [component]).flatten ↔ n ∈ done.flatten ∨ n ∈ component := by
  simp

/-- A component without functions changes nothing. -/
theorem Invariant.skip (hset : Setting x p done component) (hinv : Invariant x p done state)
    (halloc : Allocates x component state mid)
    (hnone : ∀ n ∈ component, x.selected[n]? = none) : Invariant x p (done ++ [component]) mid := by
  have hunknown : mid.clobbers.unknown = state.clobbers.unknown := halloc.unknown_eq
  have hsame : ∀ n, mid.clobbers.own? n = state.clobbers.own? n ∧
      mid.allocated[n]? = state.allocated[n]? := fun n => by
    by_cases hn : n ∈ component
    · exact halloc.other n (Or.inr (hnone n hn))
    · exact halloc.other n (Or.inl hn)
  have hclosed : ∀ n, mid.clobbers.closed? n = state.clobbers.closed? n := fun n => by
    unfold closed?
    rw [halloc.closedSets_eq]
  have hval : ∀ n, val mid.clobbers n = val state.clobbers n := fun n =>
    val_eq_of_closed hunknown (hclosed n)
  have hown : ∀ n, own mid.clobbers n = own state.clobbers n := fun n =>
    own_eq hunknown (hsame n).1
  have hselected : ∀ n s, n ∈ (done ++ [component]).flatten → x.selected[n]? = some s →
      n ∈ done.flatten := by
    intro n s hn hs
    rcases mem_flatten_snoc.mp hn with hn | hn
    · exact hn
    · rw [hnone n hn] at hs
      cases hs
  refine
    { unknown_eq := hunknown.trans hinv.unknown_eq
      unchanged := fun n hn => ?_
      allocated := fun n hn s hs b hb => ?_
      sound := fun n hn s hs => ?_
      exact := fun n hn i hi => ?_ }
  · rw [(hsame n).1, (hsame n).2, hclosed n]
    refine hinv.unchanged n (hn.imp (fun h hmem => h ?_) id)
    exact mem_flatten_snoc.mpr (Or.inl hmem)
  · obtain ⟨a, t, ha, hget, howna, htu, ht⟩ :=
      hinv.allocated n (hselected n s hn hs) s hs b hb
    refine ⟨a, t, ha, (hsame n).2.trans hget, (hsame n).1.trans howna, htu, fun m hm => ?_⟩
    rw [hclosed m]
    exact ht m hm
  · rw [hown, hval]
    simp only [hval]
    exact hinv.sound n (hselected n s hn hs) s hs
  · rw [hval] at hi
    rcases mem_flatten_snoc.mp hn with hn | hn
    · obtain ⟨k, hk, hreach, hik⟩ := hinv.exact n hn i hi
      exact ⟨k, mem_flatten_snoc.mpr (Or.inl hk), hreach, by rwa [hown]⟩
    · -- What is known in advance of a name is known of it alone.
      refine ⟨n, mem_flatten_snoc.mpr (Or.inr hn), ReflTransGen.refl, ?_⟩
      obtain ⟨hown₀, hclosed₀, -⟩ := hinv.unchanged n (Or.inr (hnone n hn))
      have hvalown : val state.clobbers n = own state.clobbers n := by
        unfold val closedOrUnknown own
        unfold closed? at hclosed₀
        unfold own? at hown₀
        have := (initialClobbers_spec x p hset.names).2.1 n
        unfold closed? own? at this
        rw [Std.TreeMap.getD_eq_getD_getElem?, Std.TreeMap.getD_eq_getD_getElem?, hclosed₀, hown₀,
          this]
      rw [hown, ← hvalown]
      exact hi

section Closing

/-! The table after the functions of a component have been allocated and their sets closed.  Names
outside of the component keep what they had. -/

variable {u : ClobberTable} {n : String}

theorem own?_closed (hc : Closed (x.callGraph p) component mid.clobbers u) :
    u.own? n = mid.clobbers.own? n := by
  unfold own?
  rw [hc.ownSets_eq]

theorem own_closed (hc : Closed (x.callGraph p) component mid.clobbers u) :
    own u n = own mid.clobbers n := own_eq hc.unknown_eq (own?_closed hc)

theorem Allocates.closed? (halloc : Allocates x component state mid) :
    mid.clobbers.closed? n = state.clobbers.closed? n := by
  unfold ClobberTable.closed?
  rw [halloc.closedSets_eq]

theorem Allocates.own_outside (halloc : Allocates x component state mid)
    (hc : Closed (x.callGraph p) component mid.clobbers u) (hn : n ∉ component) :
    own u n = own state.clobbers n :=
  (own_closed hc).trans (own_eq halloc.unknown_eq (halloc.other n (Or.inl hn)).1)

theorem Allocates.closed_outside (halloc : Allocates x component state mid)
    (hc : Closed (x.callGraph p) component mid.clobbers u) (hn : n ∉ component) :
    u.closed? n = state.clobbers.closed? n := (hc.closed_eq n hn).trans halloc.closed?

theorem Allocates.val_outside (halloc : Allocates x component state mid)
    (hc : Closed (x.callGraph p) component mid.clobbers u) (hn : n ∉ component) :
    val u n = val state.clobbers n :=
  val_eq_of_closed (hc.unknown_eq.trans halloc.unknown_eq) (halloc.closed_outside hc hn)

/-- A name that is not a function of the component keeps what it had. -/
theorem Invariant.unchanged_step (hinv : Invariant x p done state)
    (halloc : Allocates x component state mid)
    (hc : Closed (x.callGraph p) component mid.clobbers u)
    (hall : ∀ n ∈ component, ∃ s, x.selected[n]? = some s)
    (hn : n ∉ (done ++ [component]).flatten ∨ x.selected[n]? = none) :
    u.own? n = (x.initialClobbers p).own? n ∧ u.closed? n = (x.initialClobbers p).closed? n ∧
      mid.allocated[n]? = none := by
  have hnc : n ∉ component := by
    rcases hn with hn | hn
    · exact fun hmem => hn (mem_flatten_snoc.mpr (Or.inr hmem))
    · intro hmem
      obtain ⟨s, hs⟩ := hall n hmem
      rw [hs] at hn
      cases hn
  obtain ⟨hownm, hallm⟩ := halloc.other n (Or.inl hnc)
  rw [own?_closed hc, hownm, halloc.closed_outside hc hnc, hallm]
  refine hinv.unchanged n (hn.imp (fun h hmem => h ?_) id)
  exact mem_flatten_snoc.mpr (Or.inl hmem)

/-- Each function was allocated with sets of the table, those of the component with the sets before
it. -/
theorem Invariant.allocated_step (hset : Setting x p done component)
    (hinv : Invariant x p done state) (halloc : Allocates x component state mid)
    (hc : Closed (x.callGraph p) component mid.clobbers u)
    (hn : n ∈ (done ++ [component]).flatten) {s : SelectedCode} (hs : x.selected[n]? = some s)
    {b : Binding} (hb : x.bindings[n]? = some b) :
    ∃ a t, allocate x.convention.zeroPage s b (x.callClobbers t s) = .ok a ∧
      mid.allocated[n]? = some a ∧ u.own? n = some a.ownClobbers ∧
      t.unknown = (x.initialClobbers p).unknown ∧
      ∀ m, Reaches (x.callGraph p) n m →
        (Reaches (x.callGraph p) m n → t.closed? m = (x.initialClobbers p).closed? m) ∧
        (¬ Reaches (x.callGraph p) m n → t.closed? m = u.closed? m) := by
  rcases mem_flatten_snoc.mp hn with hn | hn
  · obtain ⟨a, t, ha, hget, howna, htu, ht⟩ := hinv.allocated n hn s hs b hb
    obtain ⟨hownm, hallm⟩ := halloc.other n (Or.inl (hset.outside hn))
    refine ⟨a, t, ha, hallm.trans hget, (own?_closed hc).trans (hownm.trans howna), htu,
      fun m hm => ?_⟩
    obtain ⟨hback, hfwd⟩ := ht m hm
    refine ⟨hback, fun hno => ?_⟩
    rw [hfwd hno]
    exact (halloc.closed_outside hc (hset.outside (hset.reaches_done hn hm))).symm
  · obtain ⟨a, ha, hget, howna⟩ := halloc.member n hn s hs b hb
    refine ⟨a, state.clobbers, ha, hget, (own?_closed hc).trans howna, hinv.unknown_eq,
      fun m hm => ?_⟩
    rw [hset.reaches_back_iff hn hm]
    refine ⟨fun hmem => ?_, fun hno => (halloc.closed_outside hc hno).symm⟩
    exact (hinv.unchanged m (Or.inl (hset.not_mem_done hmem))).2.1

/-- The closed sets hold what the functions overwrite and what they call. -/
theorem Invariant.sound_step (hset : Setting x p done component) (hinv : Invariant x p done state)
    (halloc : Allocates x component state mid)
    (hc : Closed (x.callGraph p) component mid.clobbers u)
    (hn : n ∈ (done ++ [component]).flatten) {s : SelectedCode} (hs : x.selected[n]? = some s) :
    Sub (own u n) (val u n) ∧ ∀ c, BodyCalls x n c → Sub (val u c) (val u n) := by
  rcases mem_flatten_snoc.mp hn with hn | hn
  · obtain ⟨hsub, hcalls⟩ := hinv.sound n hn s hs
    rw [halloc.val_outside hc (hset.outside hn), halloc.own_outside hc (hset.outside hn)]
    refine ⟨hsub, fun c hcall => ?_⟩
    have hreach : Reaches (x.callGraph p) n c :=
      ReflTransGen.single ((edge_selected hset.apart hs).mpr hcall)
    rw [halloc.val_outside hc (hset.outside (hset.reaches_done hn hreach))]
    exact hcalls c hcall
  · rw [own_closed hc]
    refine ⟨hc.own_sub n hn, fun c hcall => ?_⟩
    exact hc.absorbed n hn c ((edge_selected hset.apart hs).mpr hcall)

/-- The closed sets hold nothing else: the least sets are below what can be reached. -/
theorem Invariant.exact_step (hset : Setting x p done component) (hinv : Invariant x p done state)
    (halloc : Allocates x component state mid)
    (hc : Closed (x.callGraph p) component mid.clobbers u)
    (hall : ∀ n ∈ component, ∃ s, x.selected[n]? = some s)
    (hn : n ∈ (done ++ [component]).flatten) {i : Resource} (hi : Has (val u n) i) :
    ∃ k ∈ (done ++ [component]).flatten, BodyReaches x n k ∧ Has (own u k) i := by
  refine hc.least (fun n i => n ∈ (done ++ [component]).flatten →
    ∃ k ∈ (done ++ [component]).flatten, BodyReaches x n k ∧ Has (own u k) i) ?_ ?_ ?_ n i hi hn
  · intro m hm c hcall i hS _
    obtain ⟨s, hs⟩ := hall m hm
    have hbody : BodyCalls x m c := (edge_selected hset.apart hs).mp hcall
    have hcmem : c ∈ (done ++ [component]).flatten :=
      mem_flatten_snoc.mpr (hset.reaches_component hm (ReflTransGen.single hcall)).symm
    obtain ⟨k, hk, hreach, hik⟩ := hS hcmem
    exact ⟨k, hk, ReflTransGen.head hbody hreach, hik⟩
  · intro m hm i hi hmem
    exact ⟨m, hmem, ReflTransGen.refl, by rwa [own_closed hc]⟩
  · intro m hm i hi hmem
    have hmdone : m ∈ done.flatten := (mem_flatten_snoc.mp hmem).resolve_right hm
    rw [val_eq_of_closed halloc.unknown_eq halloc.closed?] at hi
    obtain ⟨k, hk, hreach, hik⟩ := hinv.exact m hmdone i hi
    refine ⟨k, mem_flatten_snoc.mpr (Or.inl hk), hreach, ?_⟩
    rwa [halloc.own_outside hc (hset.outside hk)]

end Closing

/-- A component of functions gets its sets closed. -/
theorem Invariant.step (hset : Setting x p done component) (hinv : Invariant x p done state)
    (halloc : Allocates x component state mid)
    (hall : ∀ n ∈ component, ∃ s, x.selected[n]? = some s) :
    Invariant x p (done ++ [component])
      { mid with clobbers := mid.clobbers.close (x.callGraph p) component } := by
  have hc := close_spec (x.callGraph p) component mid.clobbers
  exact
    { unknown_eq := (hc.unknown_eq.trans halloc.unknown_eq).trans hinv.unknown_eq
      unchanged := fun _ hn => (hinv.unchanged_step halloc hc hall hn :)
      allocated := fun _ hn _ hs _ hb => (hinv.allocated_step hset halloc hc hn hs hb :)
      sound := fun _ hn _ hs => hinv.sound_step hset halloc hc hn hs
      exact := fun _ hn _ hi => hinv.exact_step hset halloc hc hall hn hi }

end Step

/-! ### The table at the end -/

theorem routinesClosed {c : Convention} {limits : Limits} (h : Started c limits p x) :
    RoutinesClosed x := by
  intro r hr d hd
  rw [h.routines_eq] at hr ⊢
  unfold Routine.withDependencies Routine.sorted at *
  rw [mem_eraseReps, List.mem_mergeSort, List.mem_flatMap] at hr ⊢
  obtain ⟨r', hr', hmem⟩ := hr
  refine ⟨r', hr', ?_⟩
  rcases List.mem_cons.mp hmem with rfl | hmem
  · exact List.mem_cons_of_mem _ hd
  · -- A routine that another one goes on to goes no further.
    cases r' <;> simp [Routine.dependencies] at hmem
    subst hmem
    simp [Routine.dependencies] at hd

variable {c : Convention} {limits : Limits} {progress : Progress}

theorem allocateAll_invariant (hstart : Started c limits p x) (hapart : Apart x)
    (h : x.allocateAll p = .ok progress) :
    Invariant x p (x.callGraph p).components progress := by
  refine foldlM_invariant h (fun done state => Invariant x p done state) (invariant_start x p) ?_
  intro done component rest state state' hsplit hinv hstep
  have hbound : ∀ (n : String) s, x.selected[n]? = some s → ∃ b, x.bindings[n]? = some b := by
    intro n s hs
    obtain ⟨b, hb, -⟩ := hstart.binding_of_selected hs
    exact ⟨b, hb⟩
  have hset : Setting x p done component :=
    ⟨hapart, routinesClosed hstart, hstart.bindings.nodup, hbound, rest, hsplit⟩
  obtain ⟨mid, hmid, hstep⟩ := bind_eq_ok.mp hstep
  have halloc := allocateFunctions_spec hbound hmid
  split at hstep
  · rename_i hany
    cases hstep
    obtain ⟨n, hn, hsel⟩ := List.any_eq_true.mp hany
    rw [Std.TreeMap.contains_eq_isSome_getElem?] at hsel
    obtain ⟨s, hs⟩ := Option.isSome_iff_exists.mp hsel
    exact hinv.step hset halloc fun m hm =>
      component_selected hapart hset.routines hset.mem_components hn hm hs
  · rename_i hnone
    cases hstep
    refine hinv.skip hset halloc fun n hn => ?_
    rw [List.any_eq_true] at hnone
    push Not at hnone
    have := hnone n hn
    rw [Std.TreeMap.contains_eq_isSome_getElem?] at this
    simpa using this

/-- What holds of the table of clobber sets and of the functions that have been allocated with
it. -/
structure Filled (x : Compilation) (p : Program) (progress : Progress) : Prop where
  unknown_eq : progress.clobbers.unknown = .everything x.convention.zeroPage
  /-- **The set of a name** is what all that it reaches overwrites. -/
  has_val : ∀ n i, Has (val progress.clobbers n) i ↔
    ∃ k, BodyReaches x n k ∧ Has (own progress.clobbers k) i
  own_declared : ∀ f ∈ declared p, own progress.clobbers f.name =
    (x.bindings[f.name]?.bind (·.declaredClobbers)).getD (.everything x.convention.zeroPage)
  allocated : ∀ (n : String) s, x.selected[n]? = some s → ∀ b, x.bindings[n]? = some b →
    ∃ a t, allocate x.convention.zeroPage s b (x.callClobbers t s) = .ok a ∧
      progress.allocated[n]? = some a ∧ own progress.clobbers n = a.ownClobbers ∧
      ∀ m, BodyReaches x n m →
        (BodyReaches x m n → val t m = .everything x.convention.zeroPage) ∧
        (¬ BodyReaches x m n → val t m = val progress.clobbers m)
  selected_of_allocated : ∀ (n : String) a, progress.allocated[n]? = some a →
    ∃ s, x.selected[n]? = some s

/-- A way through the call graph that comes to a function goes through bodies only. -/
theorem bodyReaches_of_reaches (hapart : Apart x) (hclosed : RoutinesClosed x) {a b : String}
    (h : Reaches (x.callGraph p) a b) {s : SelectedCode} (hb : x.selected[b]? = some s) :
    BodyReaches x a b := by
  induction h using ReflTransGen.head_induction_on with
  | refl => exact ReflTransGen.refl
  | @head u v hcall hrest ih =>
    cases hu : x.selected[u]? with
    | none =>
      rw [reaches_unselected hapart hclosed hu (ReflTransGen.head hcall hrest)] at hb
      cases hb
    | some s' => exact ReflTransGen.head ((edge_selected hapart hu).mp hcall) ih

theorem reaches_of_bodyReaches (p : Program) {a b : String} (h : BodyReaches x a b) :
    Reaches (x.callGraph p) a b := by
  have hedge : ∀ u v, BodyCalls x u v → Edge (x.callGraph p) u v := fun u v huv =>
    ((callGraph_spec x p).1 u v).mpr (Or.inl huv)
  exact ReflTransGen.mono hedge a b h

theorem own_of_own? {t : ClobberTable} {n : String} {set : Clobbers} (h : t.own? n = some set) :
    own t n = set := by
  unfold own
  unfold own? at h
  rw [Std.TreeMap.getD_eq_getD_getElem?, h]
  rfl

/-- A function with a body is a node. -/
theorem selected_mem (hstart : Started c limits p x) {n : String} {s : SelectedCode}
    (hs : x.selected[n]? = some s) : n ∈ (x.callGraph p).components.flatten := by
  obtain ⟨f, hf, rfl, -⟩ := hstart.selected.mem_of_get n s hs
  obtain ⟨-, hcomplete, hnodes⟩ := callGraph_spec x p
  exact (Components.mem_components hcomplete _).mpr (hnodes f (List.mem_filter.mp hf).1)

/-- Nothing was known in advance of a function with a body. -/
theorem closed?_initial (hstart : Started c limits p x) (hapart : Apart x) {n : String}
    {s : SelectedCode} (hs : x.selected[n]? = some s) : (x.initialClobbers p).closed? n = none := by
  obtain ⟨-, hclosed, hnone, -⟩ := initialClobbers_spec x p hstart.bindings.nodup
  rw [hclosed n]
  refine hnone n (fun hmem => ?_) fun hmem => ?_
  · obtain ⟨r, hr, rfl⟩ := List.mem_map.mp hmem
    rw [hapart r hr] at hs
    cases hs
  · obtain ⟨f, hf, rfl⟩ := List.mem_map.mp hmem
    rw [hstart.not_selected_of_declared hf] at hs
    cases hs

section AtTheEnd

variable (hstart : Started c limits p x) (hinv : Invariant x p (x.callGraph p).components progress)
include hstart hinv

/-- A name without a body has one set. -/
theorem val_unselected {n : String} (hn : x.selected[n]? = none) :
    val progress.clobbers n = own progress.clobbers n := by
  obtain ⟨-, hclosed₀, -⟩ := initialClobbers_spec x p hstart.bindings.nodup
  obtain ⟨hown, hclosed, -⟩ := hinv.unchanged n (Or.inr hn)
  have := hclosed₀ n
  unfold val closedOrUnknown own
  unfold closed? own? at *
  rw [Std.TreeMap.getD_eq_getD_getElem?, Std.TreeMap.getD_eq_getD_getElem?, hown, hclosed, this]

/-- What a function overwrites is in the set of each name that reaches it. -/
theorem has_of_bodyReaches {n k : String} {i : Resource} (hreach : BodyReaches x n k)
    (hi : Has (own progress.clobbers k) i) : Has (val progress.clobbers n) i := by
  induction hreach using ReflTransGen.head_induction_on with
  | refl =>
    cases hs : x.selected[k]? with
    | none => rwa [val_unselected hstart hinv hs]
    | some s => exact (hinv.sound k (selected_mem hstart hs) s hs).1 i hi
  | @head u v hcall _ ih =>
    obtain ⟨s, hs, -⟩ := id hcall
    exact (hinv.sound u (selected_mem hstart hs) s hs).2 v hcall i ih

end AtTheEnd

theorem allocateAll_filled (hstart : Started c limits p x) (hapart : Apart x)
    (h : x.allocateAll p = .ok progress) : Filled x p progress := by
  have hinv := allocateAll_invariant hstart hapart h
  obtain ⟨hunknown₀, -, -, hdeclared₀⟩ := initialClobbers_spec x p hstart.bindings.nodup
  refine
    { unknown_eq := hinv.unknown_eq.trans hunknown₀
      has_val := fun n i =>
        ⟨fun hi => ?_, fun ⟨k, hreach, hi⟩ => has_of_bodyReaches hstart hinv hreach hi⟩
      own_declared := fun f hf => ?_
      allocated := fun n s hs b hb => ?_
      selected_of_allocated := fun n a ha => ?_ }
  · cases hs : x.selected[n]? with
    | none => exact ⟨n, ReflTransGen.refl, by rwa [← val_unselected hstart hinv hs]⟩
    | some s =>
      obtain ⟨k, -, hreach, hik⟩ := hinv.exact n (selected_mem hstart hs) i hi
      exact ⟨k, hreach, hik⟩
  · have hnone := hstart.not_selected_of_declared hf
    exact own_of_own? ((hinv.unchanged f.name (Or.inr hnone)).1.trans (hdeclared₀ f hf))
  · obtain ⟨a, t, ha, hget, hown, htu, ht⟩ :=
      hinv.allocated n (selected_mem hstart hs) s hs b hb
    refine ⟨a, t, ha, hget, own_of_own? hown, fun m hm => ⟨fun hback => ?_, fun hno => ?_⟩⟩
    · -- A function that reaches this one has a body.
      obtain ⟨s', hs'⟩ : ∃ s', x.selected[m]? = some s' := by
        rcases ReflTransGen.cases_head hback with rfl | ⟨v, ⟨s', hs', -⟩, -⟩
        · exact ⟨s, hs⟩
        · exact ⟨s', hs'⟩
      have hclosed := (ht m (reaches_of_bodyReaches p hm)).1 (reaches_of_bodyReaches p hback)
      unfold val closedOrUnknown
      rw [closed?_initial hstart hapart hs', closed?] at hclosed
      rw [Std.TreeMap.getD_eq_getD_getElem?, hclosed, htu]
      exact hunknown₀
    · refine val_eq_of_closed (htu.trans hinv.unknown_eq.symm) ?_
      refine (ht m (reaches_of_bodyReaches p hm)).2 fun hback => hno ?_
      exact bodyReaches_of_reaches hapart (routinesClosed hstart) hback hs
  · cases hs : x.selected[n]? with
    | some s => exact ⟨s, rfl⟩
    | none =>
      rw [(hinv.unchanged n (Or.inr hs)).2.2] at ha
      cases ha

end Codegen6502.Proofs.Calls.Table
