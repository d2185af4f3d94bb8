import Codegen6502.Proofs.Calls.Closure
import Codegen6502.Proofs.Calls.Partition

/-!
# Recomputing the clobber sets

The closing of a component repeats rounds as long as some merge has made a set larger, which it
tells by comparing sizes.  Here that loop is a relation between tables without any bound on the
rounds (`Repeats`, `ClosesAll`).

* `round_eq`, `unchanged_round`: a round absorbs the callees of every member, and reports no growth
  exactly if it has left all sets as they were;
* `repeats_settle`, `Repeats.unique`: the loop ends, with the table that `settle` computes;
* `Reached.step`: closing one component more keeps that every closed set is the union of the own
  sets of all that its node reaches;
* `recompute_union`: the sets recomputed over all components.
-/

namespace Codegen6502.Proofs.Calls.Recomputing

open CallGraph ClobberTable Relation Search Components ClobberSets Closure Calls.Partition

/-! ### The loop -/

/-- Merges a set into another, and tells by the sizes whether that has added anything. -/
def merge (s t : Clobbers) : Clobbers × Bool := (s.union t, size s != size (s.union t))

/-- Merges the sets of some nodes one after the other; the flag tells whether any merge so far has
added anything. -/
def mergeAll (set : String → Clobbers) (nodes : List String) (start : Clobbers × Bool) :
    Clobbers × Bool :=
  nodes.foldl (fun r n => ((merge r.1 (set n)).1, r.2 || (merge r.1 (set n)).2)) start

/-- A member merges the sets of its callees into its own. -/
def turn (g : CallGraph) (state : ClobberTable × Bool) (member : String) : ClobberTable × Bool :=
  let result := mergeAll state.1.closedOrUnknown (g.callees member)
    (state.1.closedSets.getD member {}, state.2)
  ({ state.1 with closedSets := state.1.closedSets.insert member result.1 }, result.2)

/-- One turn of every member. -/
def round (g : CallGraph) (members : List String) (t : ClobberTable) : ClobberTable × Bool :=
  members.foldl (turn g) (t, false)

/-- Rounds are repeated until one has added nothing. -/
inductive Repeats (g : CallGraph) (members : List String) : ClobberTable → ClobberTable → Prop
  | last {t : ClobberTable} (h : (round g members t).2 = false) :
      Repeats g members t (round g members t).1
  | again {t u : ClobberTable} (h : (round g members t).2 = true)
      (rest : Repeats g members (round g members t).1 u) : Repeats g members t u

/-- Components are closed one after the other. -/
inductive ClosesAll (g : CallGraph) : List (List String) → ClobberTable → ClobberTable → Prop
  | nil {t : ClobberTable} : ClosesAll g [] t t
  | cons {component : List String} {rest : List (List String)} {t u v : ClobberTable}
      (close : Repeats g component (opened t component) u) (all : ClosesAll g rest u v) :
      ClosesAll g (component :: rest) t v

variable {g : CallGraph} {t u v : ClobberTable} {members : List String} {m n : String}

theorem Repeats.unique (h : Repeats g members t u) : ∀ {v}, Repeats g members t v → u = v := by
  induction h with
  | last hflag =>
    intro v hv
    cases hv with
    | last => rfl
    | again hflag' => simp [hflag] at hflag'
  | again hflag _ ih =>
    intro v hv
    cases hv with
    | last hflag' => simp [hflag] at hflag'
    | again _ hrest => exact ih hrest

theorem ClosesAll.unique {components : List (List String)} (h : ClosesAll g components t u) :
    ∀ {v}, ClosesAll g components t v → u = v := by
  induction h with
  | nil =>
    intro v hv
    cases hv
    rfl
  | cons hclose _ ih =>
    intro v hv
    cases hv with
    | cons hclose' hall => exact ih (hclose.unique hclose' ▸ hall)

/-! ### Growth by sizes -/

theorem sub_union (s t : Clobbers) : Sub s (s.union t) := fun i hi =>
  (has_union s t i).mpr (Or.inl hi)

theorem Sub.antisymm {s t : Clobbers} (hst : Sub s t) (hts : Sub t s) : s = t :=
  eq_of_has fun i => ⟨hst i, hts i⟩

/-- The sizes differ exactly if the sets do. -/
theorem size_eq_iff {s t : Clobbers} (h : Sub s t) : size s = size t ↔ s = t := by
  constructor
  · intro hsize
    by_contra hne
    have := size_lt h hne
    omega
  · exact fun heq => by rw [heq]

/-- A merge adds nothing exactly if it leaves the set as it was. -/
theorem merge_unchanged (s t : Clobbers) : (merge s t).2 = false ↔ s = s.union t := by
  unfold merge
  rw [bne_eq_false_iff_eq, size_eq_iff (sub_union s t)]

/-- What is there after some merges, and what the flag says of them. -/
theorem mergeAll_spec (set : String → Clobbers) (nodes : List String) :
    ∀ (s : Clobbers) (flag : Bool),
      (mergeAll set nodes (s, flag)).1 = nodes.foldl (fun s n => s.union (set n)) s ∧
        ((mergeAll set nodes (s, flag)).2 = false ↔
          flag = false ∧ (mergeAll set nodes (s, flag)).1 = s) := by
  induction nodes with
  | nil => simp [mergeAll]
  | cons c rest ih =>
    intro s flag
    obtain ⟨hset, hflag⟩ := ih (s.union (set c)) (flag || (merge s (set c)).2)
    have hcons : mergeAll set (c :: rest) (s, flag) =
        mergeAll set rest (s.union (set c), flag || (merge s (set c)).2) := rfl
    have hsub : Sub (s.union (set c)) (rest.foldl (fun s n => s.union (set n)) (s.union (set c))) :=
      fun i hi => (has_foldl_union set i rest _).mpr (Or.inl hi)
    rw [hcons]
    refine ⟨hset, hflag.trans ?_⟩
    rw [hset, Bool.or_eq_false_iff, merge_unchanged]
    constructor
    · rintro ⟨⟨hfirst, heq⟩, hrest⟩
      exact ⟨hfirst, hrest.trans heq.symm⟩
    · rintro ⟨hfirst, heq⟩
      -- What ends as it began has not grown in between.
      rw [heq] at hsub ⊢
      have hsame : s = s.union (set c) := Sub.antisymm (sub_union s (set c)) hsub
      exact ⟨⟨hfirst, hsame⟩, hsame⟩

theorem val_of_started (h : (t.closed? m).isSome = true) : t.closed? m = some (val t m) := by
  obtain ⟨s, hs⟩ := Option.isSome_iff_exists.mp h
  unfold closed? at hs ⊢
  rw [hs, val, closedOrUnknown, Std.TreeMap.getD_eq_getD_getElem?, hs]
  rfl

/-- A turn absorbs the callees, and the flag stays down exactly if the member's set has not
grown. -/
theorem turn_spec (h : (t.closed? m).isSome = true) (flag : Bool) :
    (turn g (t, flag) m).1 = absorb g t m ∧
      ((turn g (t, flag) m).2 = false ↔ flag = false ∧ val (absorb g t m) m = val t m) := by
  have hown : t.closedSets.getD m {} = val t m := by
    have hval := val_of_started h
    unfold closed? at hval
    rw [Std.TreeMap.getD_eq_getD_getElem?, hval]
    rfl
  obtain ⟨hset, hflag⟩ := mergeAll_spec (val t) (g.callees m) (t.closedSets.getD m {}) flag
  have habsorb : val (absorb g t m) m =
      (g.callees m).foldl (fun s callee => s.union (val t callee)) (t.closedSets.getD m {}) := by
    unfold absorb val closedOrUnknown
    rw [Std.TreeMap.getD_insert_self]
  refine ⟨?_, hflag.trans ?_⟩
  · unfold turn absorb
    rw [← hset]
  · rw [hset, habsorb, ← hown]

/-- **Some turns** absorb the callees of their members, and the flag stays down exactly if they
leave all sets as they were. -/
theorem turns_spec (turns : List String) : ∀ (t : ClobberTable) (flag : Bool), Started members t →
    (∀ m ∈ turns, m ∈ members) → (turns.foldl (turn g) (t, flag)).1 = turns.foldl (absorb g) t ∧
      ((turns.foldl (turn g) (t, flag)).2 = false ↔
        flag = false ∧ ∀ n, val (turns.foldl (absorb g) t) n = val t n) := by
  induction turns with
  | nil => simp
  | cons m rest ih =>
    intro t flag h hturns
    have hm : m ∈ members := hturns m (List.mem_cons_self ..)
    have hrest : ∀ k ∈ rest, k ∈ members := fun k hk => hturns k (List.mem_cons_of_mem _ hk)
    obtain ⟨hset, hflag⟩ := turn_spec (g := g) (h m hm) flag
    obtain ⟨hset', hflag'⟩ := ih (absorb g t m) (turn g (t, flag) m).2 (h.turn m) hrest
    have hturn : turn g (t, flag) m = (absorb g t m, (turn g (t, flag) m).2) := by rw [← hset]
    rw [List.foldl_cons, List.foldl_cons, hturn]
    refine ⟨hset', hflag'.trans ?_⟩
    rw [hflag, and_assoc]
    refine and_congr_right fun _ => ⟨fun ⟨hself, hall⟩ n => ?_, fun hall => ?_⟩
    · rw [hall n]
      by_cases hmn : m = n
      · exact hmn ▸ hself
      · exact val_eq_of_closed unknown_absorb (closed_absorb_of_ne hmn)
    · have hmid : ∀ n, val (absorb g t m) n = val t n := by
        intro n
        have hmono := foldl_absorb_mono (g := g) (h.turn (g := g) m) hrest n
        rw [hall n] at hmono
        exact Sub.antisymm hmono (sub_absorb (h m hm) n)
      exact ⟨hmid m, fun n => (hall n).trans (hmid n).symm⟩

theorem round_eq (h : Started members t) :
    (round g members t).1 = members.foldl (absorb g) t :=
  (turns_spec members t false h fun _ hm => hm).1

/-- A round has added nothing exactly if the members' sets agree before and after it. -/
theorem unchanged_round (h : Started members t) : (round g members t).2 = false ↔
    agreeOn members t (members.foldl (absorb g) t) = true := by
  have hflag := (turns_spec (g := g) members t false h fun _ hm => hm).2
  refine hflag.trans ?_
  unfold agreeOn
  rw [List.all_eq_true]
  constructor
  · intro ⟨_, hall⟩ m hm
    rw [decide_eq_true_iff, val_of_started (h m hm), val_of_started (h.round members m hm), hall m]
  · refine fun hagree => ⟨rfl, fun n => val_eq_of_closed unknown_foldl_absorb ?_⟩
    by_cases hn : n ∈ members
    · exact (of_decide_eq_true (hagree n hn)).symm
    · exact closed_foldl_absorb hn

/-- **The loop ends**, with the table that the bounded rounds come to. -/
theorem repeats_settle (h : Started members t) (bound : ℕ)
    (hbound : members.length * 259 < total members t + bound) :
    Repeats g members t (settle g members bound t) := by
  induction bound generalizing t with
  | zero =>
    have := total_le members t
    omega
  | succ bound ih =>
    have hround := round_eq (g := g) h
    simp only [settle]
    split
    · rename_i hagree
      have hlast := Repeats.last ((unchanged_round h).mpr hagree)
      rwa [hround] at hlast
    · rename_i hagree
      have hflag : (round g members t).2 = true := by
        rw [← Bool.not_eq_false, unchanged_round h]
        exact hagree
      have hgrown : ∃ m ∈ members, val t m ≠ val (members.foldl (absorb g) t) m := by
        by_contra hno
        push Not at hno
        refine hagree (List.all_eq_true.mpr fun m hm => decide_eq_true ?_)
        rw [val_of_started (h m hm), val_of_started (h.round members m hm), hno m hm]
      have hlt := total_lt (foldl_absorb_mono (g := g) h fun m hm => hm) hgrown
      refine Repeats.again hflag ?_
      rw [hround]
      exact ih (h.round members) (by omega)

theorem started_opened (t : ClobberTable) (members : List String) :
    Started members (opened t members) := by
  intro m hm
  rw [show (opened t members).closed? m = _ from (opened_spec t members t).2.2 m, if_pos hm]
  rfl

theorem repeats_close (g : CallGraph) (members : List String) (t : ClobberTable) :
    Repeats g members (opened t members) (t.close g members) :=
  repeats_settle (started_opened t members) _ (by omega)

theorem started_close (g : CallGraph) (members : List String) (t : ClobberTable) :
    Started members (t.close g members) :=
  (settle_spec (started_opened t members) _ (by omega)).started

theorem closesAll_foldl (g : CallGraph) (components : List (List String)) (t : ClobberTable) :
    ClosesAll g components t (components.foldl (fun b c => b.close g c) t) := by
  induction components generalizing t with
  | nil => exact .nil
  | cons c rest ih => exact .cons (repeats_close g c t) (ih _)

/-! ### Unions over what is reached -/

/-- Some node that `n` reaches, itself counted, overwrites the resource by itself. -/
def ReachedBy (g : CallGraph) (t : ClobberTable) (n : String) (i : Resource) : Prop :=
  ∃ m, Reaches g n m ∧ Has (own t m) i

/-- The nodes in `done` have been closed in `u`, and no others: their sets are the unions of the own
sets in `t` of everything they reach. -/
structure Reached (g : CallGraph) (t : ClobberTable) (done : List (List String))
    (u : ClobberTable) : Prop where
  ownSets_eq : u.ownSets = t.ownSets
  unknown_eq : u.unknown = t.unknown
  closed : ∀ n, (u.closed? n).isSome = true ↔ n ∈ done.flatten
  has_val : ∀ n ∈ done.flatten, ∀ i, Has (val u n) i ↔ ReachedBy g t n i

theorem reached_start (g : CallGraph) (t : ClobberTable) :
    Reached g t [] { t with closedSets := ∅ } where
  ownSets_eq := rfl
  unknown_eq := rfl
  closed n := by simp [closed?]
  has_val := by simp

/-- **Closing one component more.**  What its members reach is in it or has been closed. -/
theorem Reached.step {done rest : List (List String)} {component : List String}
    (hg : Complete g) (hsplit : g.components = done ++ component :: rest)
    (h : Reached g t done u) : Reached g t (done ++ [component]) (u.close g component) := by
  have hclose := close_spec g component u
  have hown : ∀ n, own u n = own t n := fun n => by
    unfold own
    rw [h.ownSets_eq, h.unknown_eq]
  have hmem : ∀ n, n ∈ (done ++ [component]).flatten ↔ n ∈ done.flatten ∨ n ∈ component := by
    simp
  have hnodup := nodup_components hg
  rw [hsplit, List.flatten_append, List.flatten_cons] at hnodup
  have hapart : ∀ n ∈ done.flatten, n ∉ component := fun n hn hc =>
    (List.nodup_append.mp hnodup).2.2 n hn n (List.mem_append_left _ hc) rfl
  have hcalls : ∀ n ∈ component, ∀ b, Reaches g n b → b ∈ done.flatten ∨ b ∈ component :=
    fun n hn b hreach => (components_callees_first hg hsplit hn hreach).symm
  have hearlier : ∀ n ∈ done.flatten, val (u.close g component) n = val u n := fun n hn =>
    val_eq_of_closed hclose.unknown_eq (hclose.closed_eq n (hapart n hn))
  refine ⟨hclose.ownSets_eq.trans h.ownSets_eq, hclose.unknown_eq.trans h.unknown_eq,
    fun n => ?_, fun n hn i => ?_⟩
  · rw [hmem]
    by_cases hn : n ∈ component
    · simp [hn, started_close g component u n hn]
    · rw [hclose.closed_eq n hn, h.closed n]
      simp [hn]
  · rcases (hmem n).mp hn with hdone | hcomp
    · rw [hearlier n hdone, h.has_val n hdone i]
    · constructor
      · -- The unions are a family that closing stays below.
        intro hi
        refine hclose.least (fun n i => n ∈ (done ++ [component]).flatten → ReachedBy g t n i)
          (fun m hm c hcall i hS _ => ?_) (fun m _ i hi _ => ?_) (fun m hm i hi hmem' => ?_) n i hi hn
        · have hc := hcalls m hm c (ReflTransGen.single hcall)
          obtain ⟨k, hreach, hk⟩ := hS ((hmem c).mpr hc)
          exact ⟨k, hreach.head hcall, hk⟩
        · exact ⟨m, ReflTransGen.refl, hown m ▸ hi⟩
        · exact (h.has_val m (((hmem m).mp hmem').resolve_right hm) i).mp hi
      · rintro ⟨m, hreach, hm⟩
        induction hreach using ReflTransGen.head_induction_on with
        | refl => exact hclose.own_sub m hcomp i (hown m ▸ hm)
        | @head a c hcall hrest ih =>
          refine hclose.absorbed a hcomp c hcall i ?_
          rcases hcalls a hcomp c (ReflTransGen.single hcall) with hc | hc
          · rw [hearlier c hc, h.has_val c hc i]
            exact ⟨m, hrest, hm⟩
          · exact ih ((hmem c).mpr (Or.inr hc)) hc

/-- Closing some components in their order. -/
theorem reached_components (hg : Complete g) (t : ClobberTable) :
    ∀ (rest done : List (List String)) (u : ClobberTable), g.components = done ++ rest →
      Reached g t done u → Reached g t g.components (rest.foldl (fun b c => b.close g c) u) := by
  intro rest
  induction rest with
  | nil =>
    intro done u hsplit h
    rw [hsplit, List.append_nil]
    exact h
  | cons c rest ih =>
    intro done u hsplit h
    exact ih (done ++ [c]) (u.close g c) (by rw [hsplit]; simp) (h.step hg hsplit)

/-! ### The recomputed sets -/

/-- Only nodes have callees. -/
theorem mem_of_edge {a b : String} (h : Edge g a b) : a ∈ g.nodes := by
  by_contra ha
  have hnot : a ∉ g.edges := fun hmem => ha (Std.TreeMap.mem_keys.mpr hmem)
  unfold Edge callees at h
  rw [Std.TreeMap.getD_eq_fallback hnot] at h
  exact List.not_mem_nil h

/-- A family of sets that has what each node overwrites by itself and is closed under calls. -/
structure Family (g : CallGraph) (t : ClobberTable) (S : String → Resource → Prop) : Prop where
  own : ∀ n ∈ g.nodes, ∀ i, Has (own t n) i → S n i
  calls : ∀ a b, Edge g a b → ∀ i, S b i → S a i

theorem Family.reaches {S : String → Resource → Prop} (h : Family g t S) {n m : String}
    {i : Resource} (hreach : Reaches g n m) (hm : S m i) : S n i := by
  induction hreach using ReflTransGen.head_induction_on with
  | refl => exact hm
  | head hcall _ ih => exact h.calls _ _ hcall i ih

/-- **The transitive clobber sets.**  The loops over the components end, with the recomputed sets
and no others.  Exactly the nodes have one, which is the union of the own sets, or the unknown one,
of all the nodes it reaches; they are the least family above the own sets that is closed under
calls. -/
theorem recompute_union (hg : Built g) (t : ClobberTable) :
    (∃ u, (∀ v, ClosesAll g g.components { t with closedSets := ∅ } v ↔ v = u) ∧
      u.closedSets = t.recompute g) ∧
    (∀ n, n ∉ g.nodes → (t.recompute g)[n]? = none) ∧
    (∀ n ∈ g.nodes, ∃ s, (t.recompute g)[n]? = some s ∧ ∀ i, Has s i ↔
      ∃ m ∈ g.nodes, Reaches g n m ∧ Has (t.ownSets.getD m t.unknown) i) ∧
    Family g t (fun n i => ∃ s, (t.recompute g)[n]? = some s ∧ Has s i) ∧
    ∀ S, Family g t S → ∀ n s, (t.recompute g)[n]? = some s → ∀ i, Has s i → S n i := by
  have hcomplete := hg.complete
  obtain ⟨u, hu⟩ : ∃ u, u = g.components.foldl (fun (b : ClobberTable) c => b.close g c)
    { t with closedSets := ∅ } := ⟨_, rfl⟩
  have hreached : Reached g t g.components u :=
    hu ▸ reached_components hcomplete t g.components [] _ rfl (reached_start g t)
  have hrec : t.recompute g = u.closedSets := by rw [hu]; rfl
  have hall : ClosesAll g g.components { t with closedSets := ∅ } u :=
    hu ▸ closesAll_foldl g g.components _
  have hmem : ∀ n, n ∈ g.components.flatten ↔ n ∈ g.nodes := mem_components hcomplete
  have hset : ∀ n ∈ g.nodes, u.closed? n = some (val u n) := fun n hn =>
    val_of_started ((hreached.closed n).mpr ((hmem n).mpr hn))
  have hhas : ∀ n ∈ g.nodes, ∀ i, Has (val u n) i ↔ ReachedBy g t n i := fun n hn =>
    hreached.has_val n ((hmem n).mpr hn)
  rw [hrec]
  refine ⟨⟨u, fun v => ⟨fun hv => (hall.unique hv).symm, fun heq => heq ▸ hall⟩, rfl⟩,
    fun n hn => ?_, fun n hn => ⟨val u n, hset n hn, fun i => ?_⟩,
    ⟨fun n hn i hi => ?_, fun a b hcall i hb => ?_⟩, fun S hS n s hs i hi => ?_⟩
  · have hnone := mt (hreached.closed n).mp fun h => hn ((hmem n).mp h)
    exact Option.not_isSome_iff_eq_none.mp hnone
  · rw [hhas n hn i]
    constructor
    · rintro ⟨m, hreach, hm⟩
      exact ⟨m, reaches_mem hcomplete hn hreach, hreach, hm⟩
    · rintro ⟨m, -, hreach, hm⟩
      exact ⟨m, hreach, hm⟩
  · exact ⟨val u n, hset n hn, (hhas n hn i).mpr ⟨n, ReflTransGen.refl, hi⟩⟩
  · -- The caller of a node is one, since nodes alone have callees.
    obtain ⟨s, hs, hi⟩ := hb
    have ha : a ∈ g.nodes := mem_of_edge hcall
    have hb : b ∈ g.nodes := hcomplete a b hcall
    obtain rfl : val u b = s := Option.some.inj ((hset b hb).symm.trans hs)
    obtain ⟨m, hreach, hm⟩ := (hhas b hb i).mp hi
    exact ⟨val u a, hset a ha, (hhas a ha i).mpr ⟨m, hreach.head hcall, hm⟩⟩
  · have hn : n ∈ g.nodes := by
      rw [← hmem n, ← hreached.closed n]
      exact Option.isSome_iff_exists.mpr ⟨s, hs⟩
    obtain rfl : val u n = s := Option.some.inj ((hset n hn).symm.trans hs)
    obtain ⟨m, hreach, hm⟩ := (hhas n hn i).mp hi
    exact hS.reaches hreach (hS.own m (reaches_mem hcomplete hn hreach) i hm)

/-- Own sets for two of the three nodes. -/
def ringTable : ClobberTable :=
  (({ unknown := .registers } : ClobberTable).setOwn "f" (Clobbers.empty.insertCell 0x80)).setOwn
    "g" Clobbers.empty

theorem recompute_of_ring : Built ring ∧ ∃ s, (ringTable.recompute ring)["f"]? = some s ∧
    Has s (.cell 0x80) ∧ Has s (.reg .y) ∧ ¬ Has s (.cell 0x81) := by
  have hbuilt : Built ring := ((Built.empty.addEdge "f" "g").addEdge "g" "f").addEdge "g" "h"
  have hnodes : ring.nodes = ["f", "g", "h"] := by decide +kernel
  obtain ⟨-, -, hsets, -, -⟩ := recompute_union hbuilt ringTable
  obtain ⟨s, hs, hhas⟩ := hsets "f" (by simp [hnodes])
  have hfg : Reaches ring "f" "g" := .single (by simp [ring, Pipeline.edge_addEdge])
  have hfh : Reaches ring "f" "h" := hfg.tail (by simp [ring, Pipeline.edge_addEdge])
  refine ⟨hbuilt, s, hs, (hhas _).mpr ⟨"f", by simp [hnodes], .refl, by decide +kernel⟩,
    (hhas _).mpr ⟨"h", by simp [hnodes], hfh, by decide +kernel⟩, fun h => ?_⟩
  obtain ⟨m, hm, -, hown⟩ := (hhas _).mp h
  rw [hnodes] at hm
  have hnone : ∀ m ∈ ["f", "g", "h"],
      ¬ Has (ringTable.ownSets.getD m ringTable.unknown) (.cell 0x81) := by decide +kernel
  exact hnone m hm hown

end Codegen6502.Proofs.Calls.Recomputing
