import Codegen6502.Proofs.Calls.Trail

/-!
# Low links

The pass that numbers the nodes yields the components.

* `Underway.follow_fresh`, `Underway.follow_stacked`, `Underway.follow_settled`: a call followed
  keeps what holds in the visit of its caller;
* `Underway.stay`, `Underway.complete`: leaving a node keeps the invariant, whether it leads back to
  an earlier node or completes a component;
* `visit_passed`: the visit of a node keeps it, by induction on the depth;
* `lowLinkComponents_eq`: the pass yields `components`.
-/

namespace Codegen6502.Proofs.Calls.LowLinks

open CallGraph Relation Search Components Trail

variable {g : CallGraph} {s t u : Trail} {n m : String}
  {together : String → String → Bool} {path fin fin' above : List String}

/-! ### Following the calls of a node -/

/-- Some of the nodes call the node. -/
def CalledFrom (g : CallGraph) (above : List String) (w : String) : Prop := ∃ v ∈ above, Edge g v w

/-- The visit of `n`, which `s` has not numbered, leaves `t`: of what it put on the stack, `above`
is left. -/
structure Passed (g : CallGraph) (together : String → String → Bool) (path fin : List String)
    (s : Trail) (n : String) (fin' above : List String) (t : Trail) : Prop where
  inv : Inv g together path fin' t
  grown : Extends s fin above t fin'
  entered : n ∈ t.index
  link : LinkTo g s n (t.link n) (CalledFrom g above)
  leads : ∀ rest, Leads g (.enter n :: rest) fin s rest fin' t

/-- The visit of `n` from `s` has followed the calls in `done` and come to `t`, where `above` is
what the stack holds above `n`. -/
structure Underway (g : CallGraph) (together : String → String → Bool) (path fin : List String)
    (s : Trail) (n : String) (done todo fin' above : List String) (t : Trail) : Prop where
  before : Inv g together path fin s
  inv : Inv g together (n :: path) fin' t
  grown : Extends s fin (above ++ [n]) t fin'
  number : t.place n = s.next
  link_le : t.link n ≤ s.next
  link : LinkTo g s n (t.link n) fun w => CalledFrom g above w ∨ w ∈ done
  called : ∀ b ∈ done, b ∈ t.index
  leads : ∀ rest, Leads g (.enter n :: rest) fin s (todo.map .enter ++ .leave n :: rest) fin' t

theorem underway_start (h : Inv g together path fin s) (hn : n ∉ s.index) (hnode : n ∈ g.nodes)
    (hcalled : ∀ u ∈ path, Reaches g u n) :
    Underway g together path fin s n [] (g.callees n) fin [] (s.enter n) where
  before := h
  inv := h.enter hn hnode hcalled
  grown := extends_enter hn fin
  number := place_enter_self
  link_le := Nat.le_of_eq link_enter_self
  link := by
    rw [link_enter_self]
    exact ⟨fun hlt => absurd hlt (Nat.lt_irrefl _), fun w _ hw => by simp [CalledFrom] at hw⟩
  called := by simp
  leads rest := leads_enter hn hnode

section

variable {done todo : List String} {b : String}

theorem Underway.mem_stack (h : Underway g together path fin s n done todo fin' above t) :
    m ∈ t.stack ↔ m ∈ above ∨ m = n ∨ m ∈ s.stack := by
  rw [h.grown.stack_eq]
  simp

theorem Underway.place_eq (h : Underway g together path fin s n done todo fin' above t)
    (hm : m ∈ s.stack) : t.place m = s.place m :=
  (h.grown.kept m (h.before.stack_known m hm)).2.1

theorem Underway.place_lt (h : Underway g together path fin s n done todo fin' above t)
    (hm : m ∈ s.stack) : s.place m < s.next :=
  h.before.below m (h.before.stack_known m hm)

/-- What is above a node on the stack has a larger number. -/
theorem Underway.lt_place (h : Underway g together path fin s n done todo fin' above t)
    (hm : m ∈ above) : s.next < t.place m := by
  have hordered := h.inv.ordered
  rw [h.grown.stack_eq, List.append_assoc] at hordered
  have hlt := (List.pairwise_append.mp hordered).2.2 m hm n (by simp)
  rwa [h.number] at hlt

/-- The nodes of the stack with smaller numbers were there before. -/
theorem Underway.mem_of_place_lt (h : Underway g together path fin s n done todo fin' above t)
    (hm : m ∈ t.stack) (hlt : t.place m < s.next) : m ∈ s.stack := by
  rcases h.mem_stack.mp hm with hm | rfl | hm
  · have := h.lt_place hm
    omega
  · rw [h.number] at hlt
    omega
  · exact hm

theorem Underway.numbered (h : Underway g together path fin s n done todo fin' above t) :
    n ∈ t.index :=
  (h.inv.known n).mpr (Or.inr (List.mem_cons_self ..))

/-- A callee on the stack. -/
theorem Underway.linkTo_stacked (h : Underway g together path fin s n done todo fin' above t)
    (hcall : Edge g n b) (hb : b ∈ t.stack) : LinkTo g s n (t.place b) (· = b) where
  back hlt := by
    have hmem := h.mem_of_place_lt hb hlt
    exact ⟨b, hmem, (h.place_eq hmem).symm, ReflTransGen.single hcall⟩
  least w hw heq := Nat.le_of_eq (heq ▸ h.place_eq hw)

/-- A callee that was visited. -/
theorem Underway.linkTo_fresh (h : Underway g together path fin s n done todo fin' above t)
    (hcall : Edge g n b) {number : ℕ} {called : String → Prop} (hlink : LinkTo g t b number called) :
    LinkTo g s n number called where
  back hlt := by
    have hnext := h.inv.below n h.numbered
    rw [h.number] at hnext
    obtain ⟨w, hw, hplace, hreach⟩ := hlink.back (by omega)
    have hmem : w ∈ s.stack := h.mem_of_place_lt hw (by omega)
    exact ⟨w, hmem, (h.place_eq hmem).symm.trans hplace, hreach.head hcall⟩
  least w hw hcalled := by
    rw [← h.place_eq hw]
    exact hlink.least w (h.mem_stack.mpr (Or.inr (Or.inr hw))) hcalled

variable (h : Underway g together path fin s n done (b :: todo) fin' above t)

include h

theorem Underway.follow_fresh {fin'' above' : List String} (hn : n ∉ s.index) (hcall : Edge g n b)
    (hb : b ∉ t.index) (hp : Passed g together (n :: path) fin' t b fin'' above' u) :
    Underway g together path fin s n (done ++ [b]) todo fin'' (above' ++ above)
      (u.lower n (u.link b)) := by
  obtain ⟨-, hplace, hlink⟩ := hp.grown.kept n h.numbered
  have hnew : b ∉ s.stack := fun hmem => hb (h.inv.stack_known b (h.mem_stack.mpr (by simp [hmem])))
  refine
    { before := h.before
      inv := hp.inv.lower n _
      grown := ?_
      number := hplace.trans h.number
      link_le := ?_
      link := ?_
      called := fun a ha => ?_
      leads := fun rest => ?_ }
  · rw [List.append_assoc]
    exact (h.grown.trans hp.grown).lower hn _
  · have := h.link_le
    rw [link_lower_self, hlink]
    omega
  · rw [link_lower_self, hlink]
    refine (h.link.min (h.linkTo_fresh hcall hp.link)).imp fun w hw hcalled => ?_
    rcases hcalled with ⟨v, hv, hvw⟩ | hdone
    · rcases List.mem_append.mp hv with hv | hv
      · exact Or.inr ⟨v, hv, hvw⟩
      · exact Or.inl (Or.inl ⟨v, hv, hvw⟩)
    · rcases List.mem_append.mp hdone with hdone | heq
      · exact Or.inl (Or.inr hdone)
      · exact absurd (List.mem_singleton.mp heq ▸ hw) hnew
  · show a ∈ u.index
    rcases List.mem_append.mp ha with ha | ha
    · exact (hp.grown.kept a (h.called a ha)).1
    · rw [List.mem_singleton.mp ha]
      exact hp.entered
  · exact ((h.leads rest).trans (hp.leads _)).lower n _

theorem Underway.follow_stacked (hn : n ∉ s.index) (hcall : Edge g n b) (hb : b ∈ t.stack) :
    Underway g together path fin s n (done ++ [b]) todo fin' above (t.lower n (t.place b)) := by
  have hknown : b ∈ t.index := h.inv.stack_known b hb
  refine
    { before := h.before
      inv := h.inv.lower n _
      grown := h.grown.lower hn _
      number := h.number
      link_le := ?_
      link := ?_
      called := fun a ha => ?_
      leads := fun rest => ((h.leads rest).trans (leads_skip hknown)).lower n _ }
  · have := h.link_le
    rw [link_lower_self]
    omega
  · rw [link_lower_self]
    refine (h.link.min (h.linkTo_stacked hcall hb)).imp fun w hw hcalled => ?_
    simp only [List.mem_append, List.mem_singleton] at hcalled
    grind
  · rcases List.mem_append.mp ha with ha | ha
    · exact h.called a ha
    · rw [List.mem_singleton.mp ha]
      exact hknown

theorem Underway.follow_settled (hknown : b ∈ t.index) (hb : b ∉ t.stack) :
    Underway g together path fin s n (done ++ [b]) todo fin' above t := by
  refine
    { before := h.before
      inv := h.inv
      grown := h.grown
      number := h.number
      link_le := h.link_le
      link := h.link.imp fun w hw hcalled => ?_
      called := fun a ha => ?_
      leads := fun rest => (h.leads rest).trans (leads_skip hknown) }
  · rcases hcalled with hcalled | hdone
    · exact Or.inl hcalled
    · rcases List.mem_append.mp hdone with hdone | heq
      · exact Or.inr hdone
      · rw [← List.mem_singleton.mp heq] at hb
        exact absurd (h.mem_stack.mpr (Or.inr (Or.inr hw))) hb
  · rcases List.mem_append.mp ha with ha | ha
    · exact h.called a ha
    · rw [List.mem_singleton.mp ha]
      exact hknown

end

/-! ### Leaving a node -/

/-- What complete components reach belongs to complete components. -/
theorem Inv.reaches_settled (h : Inv g together path fin s) {a b : String} (ha : a ∈ fin)
    (hout : a ∉ s.stack) (hreach : Reaches g a b) : b ∈ fin ∧ b ∉ s.stack := by
  induction hreach with
  | refl => exact ⟨ha, hout⟩
  | @tail b c _ hcall ih =>
    have hc := h.settled b ih.1 ih.2 c hcall
    refine ⟨?_, hc⟩
    rcases (h.known c).mp (h.fin_calls b ih.1 c hcall) with hfin | hopen
    · exact hfin
    · exact absurd (h.open_stacked c hopen) hc

theorem Inv.known_left (h : Inv g together (n :: path) fin s) (m : String) :
    m ∈ s.index ↔ m ∈ n :: fin ∨ m ∈ path := by
  rw [h.known m, List.mem_cons, List.mem_cons]
  grind

section

variable (h : Underway g together path fin s n (g.callees n) [] fin' above t)

include h

theorem Underway.calls : ∀ a ∈ n :: fin', ∀ b, Edge g a b → b ∈ t.index := by
  intro a ha b hcall
  rcases List.mem_cons.mp ha with rfl | ha
  · exact h.called b hcall
  · exact h.inv.fin_calls a ha b hcall

theorem Underway.not_left : n ∉ fin' := fun hmem =>
  (List.nodup_cons.mp (List.nodup_middle.mp h.inv.nodup)).1 (List.mem_append_left _ hmem)

theorem Underway.mem_of_top : n ∈ t.stack := h.mem_stack.mpr (Or.inr (Or.inl rfl))

/-- **Leaving** a node that leads back to an earlier one. -/
theorem Underway.stay (hn : t.link n ≠ t.place n) :
    Passed g together path fin s n (n :: fin') (above ++ [n]) (t.leave n) := by
  have hleave : t.leave n = t := if_neg hn
  have hlink := h.link_le
  rw [h.number] at hn
  obtain ⟨w, hw, hplace, hreach⟩ := h.link.back (by omega)
  rw [hleave]
  refine ⟨⟨h.inv.known_left, List.nodup_middle.mp h.inv.nodup, h.inv.nodes, h.inv.below,
    fun m hm => h.inv.open_stacked m (List.mem_cons_of_mem _ hm), h.inv.stack_known, h.inv.ordered,
    fun u hu => h.inv.forward u (List.mem_cons_of_mem _ hu), fun v hv => ?_, h.calls,
    fun a ha hout => ?_, ?_⟩, ⟨?_, h.grown.stack_eq, h.grown.kept⟩, h.numbered,
    h.link.imp fun w _ hcalled => ?_, fun rest => (h.leads rest).trans (leads_leave rfl)⟩
  · -- What led back to the node leads on to the open node that its low link stands for.
    have hwt : w ∈ t.stack := h.mem_stack.mpr (Or.inr (Or.inr hw))
    obtain ⟨u, hu, hle, hvu⟩ := h.inv.back v hv
    rcases List.mem_cons.mp hu with rfl | hu
    · obtain ⟨u', hu', hle', hwu⟩ := h.inv.back w hwt
      have hsmall := h.place_eq hw
      have hu'ne : u' ≠ u := by
        rintro rfl
        rw [h.number] at hle'
        omega
      refine ⟨u', (List.mem_cons.mp hu').resolve_left hu'ne, ?_, hvu.trans (hreach.trans hwu)⟩
      rw [h.number] at hle
      omega
    · exact ⟨u, hu, hle, hvu⟩
  · rcases List.mem_cons.mp ha with rfl | ha
    · exact absurd h.mem_of_top hout
    · exact h.inv.settled a ha hout
  · rw [h.inv.components_eq, List.filter_cons_of_neg (by simpa using h.mem_of_top)]
  · have := h.grown.count
    rw [List.length_cons]
    omega
  · obtain ⟨v, hv, hvw⟩ := hcalled
    rcases List.mem_append.mp hv with hv | hv
    · exact Or.inl ⟨v, hv, hvw⟩
    · rw [List.mem_singleton.mp hv] at hvw
      exact Or.inr hvw

/-! A node whose low link is its own number. -/

variable (hroot : t.link n = t.place n)

include hroot

/-- The nodes that have been left, or are being left, and were not on the stack before call none
that was. -/
theorem Underway.apart {a b : String} (ha : a ∈ n :: fin') (hout : a ∉ s.stack)
    (hcall : Edge g a b) : b ∉ s.stack := by
  intro hb
  have hlt := h.place_lt hb
  rw [h.number] at hroot
  by_cases hstack : a ∈ t.stack
  · have hle : t.link n ≤ s.place b := by
      rcases h.mem_stack.mp hstack with hmem | rfl | hmem
      · exact h.link.least b hb (Or.inl ⟨a, hmem, hcall⟩)
      · exact h.link.least b hb (Or.inr hcall)
      · exact absurd hmem hout
    omega
  · rcases List.mem_cons.mp ha with rfl | ha
    · exact hstack h.mem_of_top
    · exact h.inv.settled a ha hstack b hcall (h.mem_stack.mpr (Or.inr (Or.inr hb)))

theorem Underway.reaches_apart {a b : String} (ha : a ∈ n :: fin') (hout : a ∉ s.stack)
    (hreach : Reaches g a b) : b ∈ n :: fin' ∧ b ∉ s.stack := by
  induction hreach with
  | refl => exact ⟨ha, hout⟩
  | @tail b c _ hcall ih =>
    have hc := h.apart hroot ih.1 ih.2 hcall
    refine ⟨?_, hc⟩
    rcases (h.inv.known_left c).mp (h.calls b ih.1 c hcall) with hfin | hopen
    · exact hfin
    · exact absurd (h.before.open_stacked c hopen) hc

omit hroot in
theorem Underway.not_mem_of_above (hm : m ∈ above) : m ≠ n ∧ m ∉ s.stack ∧ m ∈ fin' := by
  have hlt := h.lt_place hm
  have hne : m ≠ n := by
    rintro rfl
    rw [h.number] at hlt
    omega
  have hout : m ∉ s.stack := by
    intro hmem
    have := h.place_lt hmem
    have := h.place_eq hmem
    omega
  refine ⟨hne, hout, ?_⟩
  rcases (h.inv.known m).mp (h.inv.stack_known m (h.mem_stack.mpr (Or.inl hm))) with hfin | hopen
  · exact hfin
  · rcases List.mem_cons.mp hopen with heq | hopen
    · exact absurd heq hne
    · exact absurd (h.before.open_stacked m hopen) hout

/-- What stands above the node belongs to its component. -/
theorem Underway.mutual_of_above (hm : m ∈ above) : Mutual g n m := by
  have hstack : m ∈ t.stack := h.mem_stack.mpr (Or.inl hm)
  have hlt := h.lt_place hm
  obtain ⟨hne, hout, hfin⟩ := h.not_mem_of_above hm
  refine ⟨h.inv.forward n (List.mem_cons_self ..) m hstack (by rw [h.number]; omega), ?_⟩
  obtain ⟨u, hu, -, hreach⟩ := h.inv.back m hstack
  rcases List.mem_cons.mp hu with rfl | hu
  · exact hreach
  · have hmem := h.before.open_stacked u hu
    exact absurd hmem (h.reaches_apart hroot (List.mem_cons_of_mem _ hfin) hout hreach).2

/-- Of the nodes that were not on the stack, those above the node make up its component. -/
theorem Underway.together_iff (htest : Tests g together g.nodes) (hm : m ∈ fin')
    (hout : m ∉ s.stack) : together n m = true ↔ m ∈ above := by
  have hnode : m ∈ g.nodes := h.inv.nodes m ((h.inv.known m).mpr (Or.inl hm))
  rw [htest n (h.inv.nodes n h.numbered) m hnode]
  constructor
  · intro hmutual
    by_contra habove
    have hne : m ≠ n := fun heq => h.not_left (heq ▸ hm)
    have hstack : m ∉ t.stack := by
      rw [h.mem_stack]
      grind
    exact (h.inv.reaches_settled hm hstack hmutual.2).2 h.mem_of_top
  · exact fun habove => h.mutual_of_above hroot habove

omit hroot in
theorem Underway.not_mem_before : n ∉ s.stack := by
  intro hmem
  have := h.place_lt hmem
  have := h.place_eq hmem
  have := h.number
  omega

/-- The component that the node completes. -/
theorem Underway.classes_eq (htest : Tests g together g.nodes) :
    classes together ((n :: fin').filter fun m => m ∉ s.stack) =
      t.components ++ [(above ++ [n]).mergeSort (· ≤ ·)] := by
  have hnodup : fin'.Nodup := (List.nodup_append.mp h.inv.nodup).1
  have habove : (above ++ [n]).Nodup := by
    have := h.inv.stack_nodup
    rw [h.grown.stack_eq] at this
    exact (List.nodup_append.mp this).1
  rw [List.filter_cons_of_pos (by simpa using h.not_mem_before), classes_cons, h.inv.components_eq,
    List.filter_filter]
  congr 2
  · -- What is left of the finished nodes is what was complete before.
    refine List.filter_congr fun m hm => ?_
    have htog := h.together_iff hroot htest hm
    have hstack := h.mem_stack (m := m)
    have hne : m ≠ n := fun heq => h.not_left (heq ▸ hm)
    by_cases hout : m ∈ s.stack
    · simp [hstack, hout]
    · have := htog hout
      by_cases hmem : m ∈ above <;> simp_all
  · rw [sortedNames_of_nodup, mergeSort_eq _ habove]
    · intro m
      simp only [List.mem_cons, List.mem_filter, List.mem_append, decide_eq_true_eq]
      constructor
      · rintro (rfl | ⟨⟨hm, hout⟩, htog⟩)
        · exact Or.inr (Or.inl rfl)
        · exact Or.inl ((h.together_iff hroot htest hm hout).mp htog)
      · rintro (hm | rfl | hm)
        · obtain ⟨-, hout, hfin⟩ := h.not_mem_of_above hm
          exact Or.inr ⟨⟨hfin, hout⟩, (h.together_iff hroot htest hfin hout).mpr hm⟩
        · exact Or.inl rfl
        · exact absurd hm List.not_mem_nil
    all_goals
      refine List.nodup_cons.mpr ⟨fun hmem => h.not_left ?_, (hnodup.filter _).filter _⟩
      exact List.mem_of_mem_filter (List.mem_of_mem_filter hmem)

/-- **Leaving** a node that completes a component. -/
theorem Underway.complete (htest : Tests g together g.nodes) :
    Passed g together path fin s n (n :: fin') [] (t.leave n) := by
  have hunstack : unstack n t.stack = (above ++ [n], s.stack) := by
    have hnot : n ∉ above := fun hmem => (h.not_mem_of_above hmem).1 rfl
    rw [h.grown.stack_eq, List.append_assoc, List.singleton_append, unstack_append hnot]
  have hleave : t.leave n = { t with
      stack := s.stack
      components := t.components ++ [(above ++ [n]).mergeSort (· ≤ ·)] } := by
    rw [leave, if_pos hroot, hunstack]
  have hback : ∀ v ∈ s.stack, v ∈ t.stack := fun v hv => h.mem_stack.mpr (Or.inr (Or.inr hv))
  rw [hleave]
  refine ⟨⟨h.inv.known_left, List.nodup_middle.mp h.inv.nodup, h.inv.nodes, h.inv.below,
    h.before.open_stacked, fun m hm => h.inv.stack_known m (hback m hm), ?_,
    fun u hu v hv => h.inv.forward u (List.mem_cons_of_mem _ hu) v (hback v hv), fun v hv => ?_,
    h.calls, fun a ha hout b hcall => h.apart hroot ha hout hcall, ?_⟩,
    ⟨?_, rfl, h.grown.kept⟩, h.numbered, ⟨h.link.back, fun w _ hcalled => ?_⟩,
    fun rest => (h.leads rest).trans (leads_leave rfl)⟩
  · have hordered := h.inv.ordered
    rw [h.grown.stack_eq] at hordered
    exact (List.pairwise_append.mp hordered).2.1
  · obtain ⟨u, hu, hle, hreach⟩ := h.inv.back v (hback v hv)
    rcases List.mem_cons.mp hu with rfl | hu
    · -- The node has a larger number than whatever was on the stack before it.
      have hlt := h.place_lt hv
      rw [h.number, h.place_eq hv] at hle
      omega
    · exact ⟨u, hu, hle, hreach⟩
  · exact (h.classes_eq hroot htest).symm
  · have := h.grown.count
    rw [List.length_cons]
    omega
  · obtain ⟨v, hv, -⟩ := hcalled
    exact absurd hv List.not_mem_nil

end

/-! ### Runs -/

/-- The calls of a node, followed one after the other. -/
theorem Underway.follow_all {visit : Trail → String → Trail} (hn : n ∉ s.index)
    (hvisit : ∀ fin' t b, Inv g together (n :: path) fin' t → fin.length ≤ fin'.length →
      b ∉ t.index → Edge g n b →
      ∃ fin'' above', Passed g together (n :: path) fin' t b fin'' above' (visit t b)) :
    ∀ (todo done fin' above : List String) (t : Trail), g.callees n = done ++ todo →
      Underway g together path fin s n done todo fin' above t →
      ∃ fin'' above', Underway g together path fin s n (g.callees n) [] fin'' above'
        (todo.foldl (follow visit n) t) := by
  intro todo
  induction todo with
  | nil =>
    intro done fin' above t hsplit h
    rw [List.append_nil] at hsplit
    exact ⟨fin', above, hsplit ▸ h⟩
  | cons b todo ih =>
    intro done fin' above t hsplit h
    have hcall : Edge g n b := by
      unfold Edge
      rw [hsplit]
      simp
    have hsplit' : g.callees n = (done ++ [b]) ++ todo := by
      rw [hsplit, List.append_assoc, List.singleton_append]
    rw [List.foldl_cons]
    by_cases hb : b ∈ t.index
    · by_cases hstack : b ∈ t.stack
      · rw [follow_of_stacked hb hstack]
        exact ih _ _ _ _ hsplit' (h.follow_stacked hn hcall hstack)
      · rw [follow_of_settled hb hstack]
        exact ih _ _ _ _ hsplit' (h.follow_settled hb hstack)
    · obtain ⟨fin'', above', hp⟩ := hvisit fin' t b h.inv h.grown.count hb hcall
      rw [follow_of_new hb]
      exact ih _ _ _ _ hsplit' (h.follow_fresh hn hcall hb hp)

/-- The nodes that a pass has entered are nodes of the graph, each counted once. -/
theorem Inv.length_lt (h : Inv g together path fin s) (hn : n ∉ s.index) (hnode : n ∈ g.nodes) :
    (fin ++ path).length < g.nodes.length := by
  have hnew : n ∉ fin ++ path := fun hmem => hn ((h.known n).mpr (List.mem_append.mp hmem))
  have hnodup : (n :: (fin ++ path)).Nodup := List.nodup_cons.mpr ⟨hnew, h.nodup⟩
  refine (List.subperm_of_subset hnodup fun m hm => ?_).length_le
  rcases List.mem_cons.mp hm with rfl | hm
  · exact hnode
  · exact h.nodes m ((h.known m).mpr (List.mem_append.mp hm))

/-- **The visit of a node.**  The depth is enough where it covers the nodes not entered yet. -/
theorem visit_passed (hg : Complete g) (htest : Tests g together g.nodes) (depth : ℕ) :
    ∀ (path fin : List String) (s : Trail) (n : String), Inv g together path fin s →
      n ∉ s.index → n ∈ g.nodes → (∀ u ∈ path, Reaches g u n) →
      g.nodes.length ≤ depth + (fin ++ path).length →
      ∃ fin' above, Passed g together path fin s n fin' above (visit g depth s n) := by
  induction depth with
  | zero =>
    intro path fin s n h hn hnode _ hdepth
    have := h.length_lt hn hnode
    omega
  | succ depth ih =>
    intro path fin s n h hn hnode hcalled hdepth
    have hvisit : ∀ fin' t b, Inv g together (n :: path) fin' t → fin.length ≤ fin'.length →
        b ∉ t.index → Edge g n b →
        ∃ fin'' above', Passed g together (n :: path) fin' t b fin'' above' (visit g depth t b) := by
      intro fin' t b ht hlen hb hcall
      refine ih (n :: path) fin' t b ht hb (hg n b hcall) (fun u hu => ?_) ?_
      · rcases List.mem_cons.mp hu with rfl | hu
        · exact ReflTransGen.single hcall
        · exact (hcalled u hu).tail hcall
      · simp only [List.length_append, List.length_cons] at hdepth ⊢
        omega
    obtain ⟨fin', above, hend⟩ := Underway.follow_all hn hvisit (g.callees n) [] fin []
      (s.enter n) rfl (underway_start h hn hnode hcalled)
    rw [visit]
    by_cases hroot : ((g.callees n).foldl (follow (visit g depth) n) (s.enter n)).link n =
        ((g.callees n).foldl (follow (visit g depth) n) (s.enter n)).place n
    · exact ⟨n :: fin', [], hend.complete hroot htest⟩
    · exact ⟨n :: fin', above ++ [n], hend.stay hroot⟩

/-- A pass over some nodes, each of them visited unless it has been. -/
theorem pass_spec (hg : Complete g) (htest : Tests g together g.nodes) {depth : ℕ}
    (hdepth : g.nodes.length ≤ depth) : ∀ (names fin : List String) (s : Trail),
    (∀ n ∈ names, n ∈ g.nodes) → Inv g together [] fin s →
    ∃ fin', Inv g together [] fin'
        (names.foldl (fun s n => if s.index.contains n then s else visit g depth s n) s) ∧
      Leads g (names.map .enter) fin s [] fin'
        (names.foldl (fun s n => if s.index.contains n then s else visit g depth s n) s) := by
  intro names
  induction names with
  | nil => exact fun fin s _ h => ⟨fin, h, Leads.refl⟩
  | cons n rest ih =>
    intro fin s hnodes h
    have hrest : ∀ m ∈ rest, m ∈ g.nodes := fun m hm => hnodes m (List.mem_cons_of_mem _ hm)
    rw [List.foldl_cons, List.map_cons]
    by_cases hn : n ∈ s.index
    · rw [if_pos (Std.TreeMap.contains_iff_mem.mpr hn)]
      obtain ⟨fin', h', hleads⟩ := ih fin s hrest h
      exact ⟨fin', h', (leads_skip hn).trans hleads⟩
    · rw [if_neg (by rwa [Std.TreeMap.contains_iff_mem])]
      obtain ⟨fin₁, above, hp⟩ := visit_passed hg htest depth [] fin s n h hn
        (hnodes n (List.mem_cons_self ..)) (by simp) (by omega)
      obtain ⟨fin', h', hleads⟩ := ih fin₁ _ hrest hp.inv
      exact ⟨fin', h', (hp.leads _).trans hleads⟩

/-- **The pass yields the components**, as long as its depth covers the nodes. -/
theorem lowLinkComponents_eq (hg : Complete g) {depth : ℕ} (hdepth : g.nodes.length ≤ depth) :
    lowLinkComponents g depth = g.components := by
  obtain ⟨together, heq, htest⟩ := components_eq hg
  have hnodes : Tests g together g.nodes := fun a ha b hb =>
    htest a ((mem_finishOrder hg).mpr ha) b ((mem_finishOrder hg).mpr hb)
  obtain ⟨fin, hinv, hleads⟩ := pass_spec hg hnodes hdepth g.nodes [] {} (fun _ hn => hn) inv_start
  obtain ⟨seen, -, steps, hsteps, hrun⟩ := hleads [] fun m => by simp
  -- With no open node left, nothing is left on the stack.
  have hfilter : (fin.filter fun m => m ∉ (g.nodes.foldl
      (fun s n => if s.index.contains n then s else visit g depth s n) ({} : Trail)).stack) = fin := by
    refine List.filter_eq_self.mpr fun m _ => ?_
    refine decide_eq_true fun hm => ?_
    obtain ⟨u, hu, -⟩ := hinv.back m hm
    exact absurd hu List.not_mem_nil
  have hbound := remaining_lt_searchBound (g := g) (Nat.le_refl g.nodes.length)
  have horder : g.finishOrder = fin := by
    unfold finishOrder
    rw [show g.searchBound = steps + (g.searchBound - steps) by omega, hrun]
    cases g.searchBound - steps <;> rfl
  rw [lowLinkComponents, hinv.components_eq, hfilter, heq, horder]

end Codegen6502.Proofs.Calls.LowLinks
