import Codegen6502.Proofs.Calls.ClobberSets

/-!
# Closing clobber sets

Closing the members of a component repeats rounds in which every member absorbs the sets of its
callees.

* `foldl_absorb_mono`, `sub_foldl_absorb`, `foldl_absorb_least`: one round;
* `settle_spec`: the rounds end with a table that has absorbed everything, since every earlier round
  makes some set larger;
* `close_spec`: the closed sets are the least ones above the members' own that contain the sets of
  all callees.
-/

namespace Codegen6502.Proofs.Calls.Closure

open ClobberTable Search ClobberSets

/-- The set by which a node counts in a table. -/
abbrev val (t : ClobberTable) (n : String) : Clobbers := t.closedOrUnknown n

/-- What a node overwrites by itself. -/
def own (t : ClobberTable) (n : String) : Clobbers := t.ownSets.getD n t.unknown

variable {g : CallGraph} {t u : ClobberTable} {m n : String} {members : List String}

theorem val_eq_of_closed (hu : t.unknown = u.unknown) (h : t.closed? n = u.closed? n) :
    val t n = val u n := by
  unfold val closedOrUnknown
  unfold closed? at h
  rw [Std.TreeMap.getD_eq_getD_getElem?, Std.TreeMap.getD_eq_getD_getElem?, h, hu]

/-! ### One round -/

@[simp] theorem ownSets_absorb : (absorb g t m).ownSets = t.ownSets := rfl

@[simp] theorem unknown_absorb : (absorb g t m).unknown = t.unknown := rfl

theorem closed_absorb_of_ne (h : m ≠ n) : (absorb g t m).closed? n = t.closed? n := by
  unfold absorb closed?
  rw [Std.TreeMap.getElem?_insert, if_neg]
  simpa using h

theorem closed_absorb_self : ((absorb g t m).closed? m).isSome = true := by
  simp [absorb, closed?]

/-- What a member has after it has absorbed its callees. -/
theorem has_absorb_self (hm : (t.closed? m).isSome = true) (i : Resource) :
    Has (val (absorb g t m) m) i ↔ Has (val t m) i ∨ ∃ c, Edge g m c ∧ Has (val t c) i := by
  have hval : t.closedSets.getD m {} = val t m := by
    obtain ⟨s, hs⟩ := Option.isSome_iff_exists.mp hm
    unfold closed? at hs
    unfold val closedOrUnknown
    rw [Std.TreeMap.getD_eq_getD_getElem?, Std.TreeMap.getD_eq_getD_getElem?, hs]
    rfl
  have : val (absorb g t m) m =
      (g.callees m).foldl (fun s callee => s.union (val t callee)) (val t m) := by
    unfold val closedOrUnknown absorb
    rw [Std.TreeMap.getD_insert_self]
    exact congrArg (fun s => (g.callees m).foldl (fun s callee => s.union (val t callee)) s) hval
  rw [this, has_foldl_union]
  rfl

/-- The members all have a closed set. -/
def Started (members : List String) (t : ClobberTable) : Prop :=
  ∀ m ∈ members, (t.closed? m).isSome = true

theorem Started.turn (h : Started members t) (m : String) : Started members (absorb g t m) := by
  intro k hk
  by_cases hmk : m = k
  · subst hmk
    exact closed_absorb_self
  · rw [closed_absorb_of_ne hmk]
    exact h k hk

theorem sub_absorb (hm : (t.closed? m).isSome = true) (n : String) :
    Sub (val t n) (val (absorb g t m) n) := by
  by_cases hmn : m = n
  · subst hmn
    exact fun i hi => (has_absorb_self hm i).mpr (Or.inl hi)
  · rw [val_eq_of_closed (unknown_absorb (g := g)) (closed_absorb_of_ne hmn)]
    exact Sub.refl _

section Round

variable {turns : List String}

@[simp] theorem ownSets_foldl_absorb : (turns.foldl (absorb g) t).ownSets = t.ownSets := by
  induction turns generalizing t with
  | nil => rfl
  | cons m rest ih => rw [List.foldl_cons, ih, ownSets_absorb]

@[simp] theorem unknown_foldl_absorb : (turns.foldl (absorb g) t).unknown = t.unknown := by
  induction turns generalizing t with
  | nil => rfl
  | cons m rest ih => rw [List.foldl_cons, ih, unknown_absorb]

theorem closed_foldl_absorb (hn : n ∉ turns) :
    (turns.foldl (absorb g) t).closed? n = t.closed? n := by
  induction turns generalizing t with
  | nil => rfl
  | cons m rest ih =>
    rw [List.mem_cons, not_or] at hn
    rw [List.foldl_cons, ih hn.2, closed_absorb_of_ne (Ne.symm hn.1)]

theorem Started.round (h : Started members t) (turns : List String) :
    Started members (turns.foldl (absorb g) t) := by
  induction turns generalizing t with
  | nil => exact h
  | cons m rest ih => exact ih (h.turn m)

/-- A round makes no set smaller. -/
theorem foldl_absorb_mono (h : Started members t) (hturns : ∀ m ∈ turns, m ∈ members)
    (n : String) : Sub (val t n) (val (turns.foldl (absorb g) t) n) := by
  induction turns generalizing t with
  | nil => exact Sub.refl _
  | cons m rest ih =>
    have hm : m ∈ members := hturns m (List.mem_cons_self ..)
    exact (sub_absorb (h m hm) n).trans
      (ih (h.turn m) fun k hk => hturns k (List.mem_cons_of_mem _ hk))

/-- After a round every member has what its callees had before. -/
theorem sub_foldl_absorb (h : Started members t) (hturns : ∀ m ∈ turns, m ∈ members)
    (hm : m ∈ turns) {c : String} (hcall : Edge g m c) :
    Sub (val t c) (val (turns.foldl (absorb g) t) m) := by
  obtain ⟨front, back, rfl⟩ := List.append_of_mem hm
  have hfront : Started members (front.foldl (absorb g) t) := h.round front
  have hmem : m ∈ members := hturns m hm
  rw [List.foldl_append, List.foldl_cons]
  have hbefore : Sub (val t c) (val (front.foldl (absorb g) t) c) :=
    foldl_absorb_mono h (fun k hk => hturns k (by simp [hk])) c
  have hturn : Sub (val (front.foldl (absorb g) t) c)
      (val (absorb g (front.foldl (absorb g) t) m) m) :=
    fun i hi => (has_absorb_self (hfront m hmem) i).mpr (Or.inr ⟨c, hcall, hi⟩)
  exact (hbefore.trans hturn).trans
    (foldl_absorb_mono (hfront.turn m) (fun k hk => hturns k (by simp [hk])) m)

/-- A round stays below every family that contains its callees' sets. -/
theorem foldl_absorb_least (h : Started members t) (hturns : ∀ m ∈ turns, m ∈ members)
    {S : String → Resource → Prop} (hS : ∀ m ∈ members, ∀ c, Edge g m c → ∀ i, S c i → S m i)
    (ht : ∀ n i, Has (val t n) i → S n i) :
    ∀ n i, Has (val (turns.foldl (absorb g) t) n) i → S n i := by
  induction turns generalizing t with
  | nil => exact ht
  | cons m rest ih =>
    have hm : m ∈ members := hturns m (List.mem_cons_self ..)
    refine ih (h.turn m) (fun k hk => hturns k (List.mem_cons_of_mem _ hk)) fun n i hi => ?_
    by_cases hmn : m = n
    · subst hmn
      rcases (has_absorb_self (h m hm) i).mp hi with hi | ⟨c, hcall, hi⟩
      · exact ht m i hi
      · exact hS m hm c hcall i (ht c i hi)
    · rw [val_eq_of_closed (unknown_absorb (g := g)) (closed_absorb_of_ne hmn)] at hi
      exact ht n i hi

end Round

/-! ### The rounds -/

/-- The number of elements of all members' sets. -/
def total (members : List String) (t : ClobberTable) : ℕ :=
  totalOf (fun m => size (val t m)) members

theorem total_le (members : List String) (t : ClobberTable) :
    total members t ≤ members.length * 259 := by
  unfold total
  induction members with
  | nil => simp
  | cons m rest ih =>
    have := size_le (val t m)
    rw [totalOf_cons, List.length_cons]
    omega

/-- Where some member's set grows, the total does. -/
theorem total_lt {turns : List String} (hsub : ∀ n, Sub (val t n) (val u n))
    (hne : ∃ m ∈ turns, val t m ≠ val u m) : total turns t < total turns u := by
  have hle : ∀ names : List String, total names t ≤ total names u := by
    intro names
    unfold total
    induction names with
    | nil => simp
    | cons m rest ih =>
      have := size_le_size (hsub m)
      rw [totalOf_cons, totalOf_cons]
      omega
  obtain ⟨m, hm, hne⟩ := hne
  induction turns with
  | nil => simp at hm
  | cons k rest ih =>
    have hrest := hle rest
    have hk := size_le_size (hsub k)
    unfold total at *
    rw [totalOf_cons, totalOf_cons]
    rcases List.mem_cons.mp hm with rfl | hm
    · have := size_lt (hsub m) hne
      omega
    · have := ih hm
      omega

/-- What holds of a table from which the rounds start, and of the one with which they end. -/
structure Settled (g : CallGraph) (members : List String) (t u : ClobberTable) : Prop where
  ownSets_eq : u.ownSets = t.ownSets
  unknown_eq : u.unknown = t.unknown
  started : Started members u
  closed_eq : ∀ n, n ∉ members → u.closed? n = t.closed? n
  mono : ∀ n, Sub (val t n) (val u n)
  absorbed : ∀ m ∈ members, ∀ c, Edge g m c → Sub (val u c) (val u m)
  least : ∀ S : String → Resource → Prop,
    (∀ m ∈ members, ∀ c, Edge g m c → ∀ i, S c i → S m i) →
    (∀ n i, Has (val t n) i → S n i) → ∀ n i, Has (val u n) i → S n i

/-- **The rounds end** with all callees absorbed. -/
theorem settle_spec (h : Started members t) (bound : ℕ)
    (hbound : members.length * 259 < total members t + bound) :
    Settled g members t (settle g members bound t) := by
  induction bound generalizing t with
  | zero =>
    have := total_le members t
    omega
  | succ bound ih =>
    have hmono := foldl_absorb_mono (g := g) h fun m (hm : m ∈ members) => hm
    simp only [settle]
    split
    · -- Nothing has grown, so the round has found nothing to absorb.
      rename_i hagree
      have hval : ∀ n, val (members.foldl (absorb g) t) n = val t n := by
        intro n
        refine val_eq_of_closed unknown_foldl_absorb ?_
        by_cases hn : n ∈ members
        · have := List.all_eq_true.mp hagree n hn
          exact (of_decide_eq_true this).symm
        · exact closed_foldl_absorb hn
      refine
        { ownSets_eq := ownSets_foldl_absorb
          unknown_eq := unknown_foldl_absorb
          started := h.round members
          closed_eq := fun n hn => closed_foldl_absorb hn
          mono := hmono
          absorbed := fun m hm c hcall => ?_
          least := fun S hS ht => foldl_absorb_least h (fun m hm => hm) hS ht }
      rw [hval c]
      exact sub_foldl_absorb h (fun m hm => hm) hm hcall
    · rename_i hagree
      have hgrown : ∃ m ∈ members, val t m ≠ val (members.foldl (absorb g) t) m := by
        by_contra hno
        push Not at hno
        refine hagree (List.all_eq_true.mpr fun m hm => decide_eq_true ?_)
        have hstart := h m hm
        have hstart' := h.round (g := g) members m hm
        obtain ⟨s, hs⟩ := Option.isSome_iff_exists.mp hstart
        obtain ⟨s', hs'⟩ := Option.isSome_iff_exists.mp hstart'
        have := hno m hm
        unfold val closedOrUnknown at this
        unfold closed? at hs hs' ⊢
        rw [Std.TreeMap.getD_eq_getD_getElem?, Std.TreeMap.getD_eq_getD_getElem?, hs, hs'] at this
        rw [hs, hs']
        exact congrArg some this
      have hlt := total_lt hmono hgrown
      have hrec := ih (h.round (g := g) members) (by omega)
      exact
        { ownSets_eq := hrec.ownSets_eq.trans ownSets_foldl_absorb
          unknown_eq := hrec.unknown_eq.trans unknown_foldl_absorb
          started := hrec.started
          closed_eq := fun n hn => (hrec.closed_eq n hn).trans (closed_foldl_absorb hn)
          mono := fun n => (hmono n).trans (hrec.mono n)
          absorbed := hrec.absorbed
          least := fun S hS ht =>
            hrec.least S hS (foldl_absorb_least h (fun m hm => hm) hS ht) }

/-! ### Closing -/

/-- The table from which the rounds start: every member has its own set. -/
def opened (t : ClobberTable) (members : List String) : ClobberTable :=
  members.foldl (fun b m => { b with closedSets := b.closedSets.insert m (own t m) }) t

theorem close_eq (g : CallGraph) (members : List String) :
    t.close g members = settle g members (members.length * 259 + 1) (opened t members) := rfl

theorem opened_spec (t : ClobberTable) (turns : List String) : ∀ b : ClobberTable,
    let c := turns.foldl (fun b m => { b with closedSets := b.closedSets.insert m (own t m) }) b
    c.ownSets = b.ownSets ∧ c.unknown = b.unknown ∧
      ∀ n, c.closed? n = if n ∈ turns then some (own t n) else b.closed? n := by
  induction turns with
  | nil => simp
  | cons m rest ih =>
    intro b
    obtain ⟨hown, hunknown, hclosed⟩ :=
      ih { b with closedSets := b.closedSets.insert m (own t m) }
    refine ⟨hown, hunknown, fun n => ?_⟩
    rw [List.foldl_cons, hclosed]
    by_cases hn : n ∈ rest
    · simp [hn]
    · simp only [hn, if_false, List.mem_cons, or_false, closed?, Std.TreeMap.getElem?_insert,
        Std.LawfulEqCmp.compare_eq_iff_eq]
      by_cases hmn : m = n
      · simp [hmn]
      · simp [hmn, Ne.symm hmn]

/-- **Closing a component.**  The members get the least sets above their own that contain the sets
of all callees; nothing else changes. -/
structure Closed (g : CallGraph) (members : List String) (t u : ClobberTable) : Prop where
  ownSets_eq : u.ownSets = t.ownSets
  unknown_eq : u.unknown = t.unknown
  closed_eq : ∀ n, n ∉ members → u.closed? n = t.closed? n
  own_sub : ∀ m ∈ members, Sub (own t m) (val u m)
  absorbed : ∀ m ∈ members, ∀ c, Edge g m c → Sub (val u c) (val u m)
  least : ∀ S : String → Resource → Prop,
    (∀ m ∈ members, ∀ c, Edge g m c → ∀ i, S c i → S m i) →
    (∀ m ∈ members, ∀ i, Has (own t m) i → S m i) →
    (∀ n, n ∉ members → ∀ i, Has (val t n) i → S n i) → ∀ n i, Has (val u n) i → S n i

theorem close_spec (g : CallGraph) (members : List String) (t : ClobberTable) :
    Closed g members t (t.close g members) := by
  obtain ⟨hown, hunknown, hclosed⟩ := opened_spec t members t
  change (opened t members).ownSets = _ at hown
  change (opened t members).unknown = _ at hunknown
  change ∀ n, (opened t members).closed? n = _ at hclosed
  have hstart : Started members (opened t members) := by
    intro m hm
    rw [hclosed, if_pos hm]
    rfl
  have hmember : ∀ m ∈ members, val (opened t members) m = own t m := by
    intro m hm
    have := hclosed m
    rw [if_pos hm, closed?] at this
    unfold val closedOrUnknown
    rw [Std.TreeMap.getD_eq_getD_getElem?, this]
    rfl
  have hother : ∀ n, n ∉ members → (opened t members).closed? n = t.closed? n := by
    intro n hn
    rw [hclosed, if_neg hn]
  rw [close_eq]
  have hs := settle_spec (g := g) hstart (members.length * 259 + 1) (by omega)
  refine
    { ownSets_eq := hs.ownSets_eq.trans hown
      unknown_eq := hs.unknown_eq.trans hunknown
      closed_eq := fun n hn => (hs.closed_eq n hn).trans (hother n hn)
      own_sub := fun m hm => ?_
      absorbed := hs.absorbed
      least := fun S hS hSown hSother => hs.least S hS fun n i hi => ?_ }
  · rw [← hmember m hm]
    exact hs.mono m
  · by_cases hn : n ∈ members
    · rw [hmember n hn] at hi
      exact hSown n hn i hi
    · rw [val_eq_of_closed hunknown (hother n hn)] at hi
      exact hSother n hn i hi

end Codegen6502.Proofs.Calls.Closure
