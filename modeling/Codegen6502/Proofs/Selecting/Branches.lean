import Codegen6502.Proofs.Selecting.Deciding

/-!
# Branches

The sequences that lowering chooses from for a branch.  `branch_reaches` says that each of them
leads to the label of the outcome of the comparison on what is read for the operands, and changes
nothing in use.  What is read is the value of an operand, but for a word of which the second byte is
behind offset 255 of a pointer (`farBranch_misses`).
-/

namespace Codegen6502.Proofs.Selecting.Branches

open Selection Growth Shapes
open Processor.Memory Processor.LineRun Processor.Straight Processor.Arithmetic Processor.Passages
open Tracking Places Moves Courses Reading Constants Deciding

variable {c : Context} {k : Linkage} {s t : Store} {st st' : State} {d : Draft} {op : CompareOp}
  {lhs rhs : Value} {type : ValueType} {ifTrue ifFalse : LabelId} {next : Option Node}

/-! ### Choices -/

/-- The sequences that lowering chooses from. -/
def branchChoices (op : CompareOp) (lhs rhs : Value) (type : ValueType) (ifTrue ifFalse : LabelId)
    (next : Option Node) : Lower (List Draft) := do
  match lhs.constant?, rhs.constant? with
  | some l, some r =>
    checkConstant l type
    checkConstant r type
    return [← candidate (jumpTo (if op.holds (wrap l type) (wrap r type) then ifTrue else ifFalse) next)]
  | _, _ =>
    let name := Naming.nodeLabel (← read).function.name
    if next = some (.label ifFalse) then branchCandidates op lhs rhs type (name ifTrue)
    else if next = some (.label ifTrue) then branchCandidates op.negated lhs rhs type (name ifFalse)
    else return (← branchCandidates op lhs rhs type (name ifTrue)).map (·.jmp (name ifFalse))

theorem commit_fork (d : Draft) : d.commit d.fork = d := by simp [Draft.commit, Draft.fork]

theorem commit_fork_push (d : Draft) (line : Line) : d.commit (d.fork.push line) = d.push line := by
  simp [Draft.commit, Draft.fork, Draft.push]

/-- A jump is the only choice for itself. -/
theorem jumpTo_eq (id : LabelId) :
    jumpTo id next = (do commitCheapest [← candidate (jumpTo id next)]) := by
  funext c st
  by_cases hnext : next = some (.label id)
  · have hjump : jumpTo id next = pure () := by simp [jumpTo, hnext]
    rw [hjump]
    change _ = Except.ok ((), { st with draft := st.draft.commit st.draft.fork })
    rw [commit_fork]
    rfl
  · have hjump : jumpTo id next = (do jmp (Naming.nodeLabel (← read).function.name id)) := by
      simp [jumpTo, hnext]
    rw [hjump]
    change _ = Except.ok ((), { st with draft := st.draft.commit (st.draft.fork.jmp
      (Naming.nodeLabel c.function.name id)) })
    unfold Draft.jmp
    rw [commit_fork_push]
    rfl

theorem lowerBranch_eq (node : Node) : lowerBranch node op lhs rhs type ifTrue ifFalse next = (do
    checkScalar type node
    commitCheapest (← branchChoices op lhs rhs type ifTrue ifFalse next)) := by
  unfold lowerBranch branchChoices
  refine congrArg _ (funext fun _ => ?_)
  rcases lhs.constant? with _ | l <;> rcases rhs.constant? with _ | r
  case some.some =>
    simp only [bind_assoc, pure_bind]
    exact congrArg _ (funext fun _ => congrArg _ (funext fun _ => jumpTo_eq _))
  all_goals
    simp only [bind_assoc]
    refine congrArg _ (funext fun c => ?_)
    split
    · rfl
    · split
      · rfl
      · simp only [bind_assoc, pure_bind]

/-! ### Where a choice leads -/

theorem nodeLabel_ne_innerLabel (name : String) (id : LabelId) (n : ℕ) :
    Naming.nodeLabel name id ≠ Naming.innerLabel name n := by
  intro h
  have hlist := congrArg String.toList h
  simp [Naming.nodeLabel, Naming.innerLabel] at hlist

/-- The label that control goes to. -/
def chosen (ifTrue ifFalse : LabelId) (cond : Store → Bool) (s : Store) : LabelId :=
  if cond s then ifTrue else ifFalse

/-- A choice that leads to one of two labels, or stays in front of it if it comes next. -/
def Directs (c : Context) (k : Linkage) (ifTrue ifFalse : LabelId) (next : Option Node) (lo hi : ℕ)
    (base : Draft) (pre : Store → Prop) (cond : Store → Bool) (d : Draft) : Prop :=
  ∃ names, Fresh c lo hi names ∧
    Leads k names (Naming.nodeLabel c.function.name ifTrue :: Naming.nodeLabel c.function.name ifFalse ::
      names) base.fork d pre fun s p => Same base.pointerCell base.nextVReg.toNat s p.store ∧
        (p.seeking = some (Naming.nodeLabel c.function.name (chosen ifTrue ifFalse cond s)) ∨
          p.seeking = none ∧ next = some (.label (chosen ifTrue ifFalse cond s)))

section Choices

variable {lo hi : ℕ} {base : Draft} {pre : Store → Prop} {f : Store → Bool}

/-- The false label comes next. -/
theorem directs_falling (h : Decides c k (Naming.nodeLabel c.function.name ifTrue) lo hi base pre f d) :
    Directs c k ifTrue ifFalse (some (.label ifFalse)) lo hi base pre f d := by
  obtain ⟨names, hfresh, htries⟩ := h
  refine ⟨names, hfresh, (Leads.widen htries (by grind)).imp (fun _ hs => hs) ?_⟩
  rintro s p - - ⟨hsame, hp⟩
  refine ⟨hsame, ?_⟩
  cases hf : f s <;> simp [chosen, hf, hp]

/-- The true label comes next. -/
theorem directs_inverted
    (h : Decides c k (Naming.nodeLabel c.function.name ifFalse) lo hi base pre (fun s => !f s) d) :
    Directs c k ifTrue ifFalse (some (.label ifTrue)) lo hi base pre f d := by
  obtain ⟨names, hfresh, htries⟩ := h
  refine ⟨names, hfresh, (Leads.widen htries (by grind)).imp (fun _ hs => hs) ?_⟩
  rintro s p - - ⟨hsame, hp⟩
  refine ⟨hsame, ?_⟩
  cases hf : f s <;> simp [chosen, hf, hp]

/-- Neither comes next: a jump follows. -/
theorem directs_jumping
    (h : Decides c k (Naming.nodeLabel c.function.name ifTrue) lo hi base pre f d) :
    Directs c k ifTrue ifFalse next lo hi base pre f
      (d.jmp (Naming.nodeLabel c.function.name ifFalse)) := by
  obtain ⟨names, hfresh, htries⟩ := h
  have hjump := leads_jmp (k := k) d (Naming.nodeLabel c.function.name ifFalse)
  refine ⟨names ++ [], by rwa [List.append_nil], ((Leads.trans htries hjump (by simp)
    fun _ _ _ _ _ => trivial).widen (by grind)).imp (fun _ hs => hs) ?_⟩
  rintro s p - - (⟨t, ⟨hsame, hno⟩, rfl⟩ | ⟨t, other, rfl, hsame, hyes⟩)
  · refine ⟨hsame, Or.inl ?_⟩
    simp [chosen, not_of_staying hno]
  · obtain ⟨hf, rfl⟩ := of_leaving hyes
    refine ⟨hsame, Or.inl ?_⟩
    simp [chosen, hf]

theorem draft_candidate {build : Lower Unit} (h : candidate build c st = .ok (d, st')) :
    st'.draft = st.draft := by
  obtain ⟨st₁, -, -, rfl⟩ := candidate_ok h
  rfl

/-- The comparison of two constants comes to a jump, or to nothing. -/
theorem directs_jumpTo {answer : Bool} (hf : ∀ s, f s = answer)
    (hd : candidate (jumpTo (if answer then ifTrue else ifFalse) next) c st = .ok (d, st')) :
    Directs c k ifTrue ifFalse next lo hi st.draft pre f d := by
  have hchosen : ∀ s, (if answer then ifTrue else ifFalse) = chosen ifTrue ifFalse f s := fun s => by
    rw [chosen, hf s]
  obtain ⟨st₁, hbuild, rfl, rfl⟩ := candidate_ok hd
  by_cases hnext : next = some (.label (if answer then ifTrue else ifFalse))
  · rw [jumpTo, if_neg (by simp [hnext])] at hbuild
    cases hbuild
    refine ⟨[], fresh_nil _ _, rfl, [], rfl, by simp, rfl, by simp, fun s hs _ => ?_⟩
    refine ⟨hs.1.2, fun _ => hs, Same.refl s, Or.inr ⟨rfl, ?_⟩⟩
    rw [← hchosen s]
    exact hnext
  · rw [jumpTo, if_pos hnext] at hbuild
    cases hbuild
    refine ⟨[], fresh_nil _ _, ((leads_jmp (k := k) st.draft.fork _).widen ?_).imp
      (fun _ _ => trivial) ?_⟩
    · intro g hg
      rw [List.mem_singleton.mp hg]
      split <;> simp
    · rintro s p - - rfl
      exact ⟨Same.refl s, Or.inl (by rw [← hchosen s])⟩

end Choices

/-- **Every choice leads to the label of the outcome.** -/
theorem directs_choice {choices : List Draft} (hst : Settled c st.draft)
    (hscalar : type.isScalar = true)
    (h : branchChoices op lhs rhs type ifTrue ifFalse next c st = .ok (choices, st')) :
    st'.draft = st.draft ∧ ∀ d ∈ choices, Directs c k ifTrue ifFalse next st.nextLabel st'.nextLabel
      st.draft (Legible c k st.draft type lhs rhs) (outcome c k op lhs rhs type) d := by
  have hc : ∀ id, Comparing c st type (Naming.nodeLabel c.function.name id) := fun id =>
    ⟨hst, hscalar, nodeLabel_ne_innerLabel _ id⟩
  have hvalues : (do
      let name := Naming.nodeLabel (← read).function.name
      if next = some (.label ifFalse) then branchCandidates op lhs rhs type (name ifTrue)
      else if next = some (.label ifTrue) then branchCandidates op.negated lhs rhs type (name ifFalse)
      else return (← branchCandidates op lhs rhs type (name ifTrue)).map (·.jmp (name ifFalse)) :
        Lower (List Draft)) c st = .ok (choices, st') →
      st'.draft = st.draft ∧ ∀ d ∈ choices, Directs c k ifTrue ifFalse next st.nextLabel st'.nextLabel
        st.draft (Legible c k st.draft type lhs rhs) (outcome c k op lhs rhs type) d := by
    intro h
    obtain ⟨c', st₁, hread, h⟩ := bind_ok.mp h
    cases hread
    split at h
    · rename_i hnext
      have hoffers := offers_branch (k := k) (hc ifTrue) h
      exact ⟨hoffers.advances.draft, fun d hd => hnext ▸ directs_falling (hoffers.decides d hd)⟩
    · split at h
      · rename_i hnext
        have hoffers := (offers_branch (k := k) (hc ifFalse) h).imp (fun _ hs => hs) fun s _ =>
          outcome_negated op s
        exact ⟨hoffers.advances.draft, fun d hd => hnext ▸ directs_inverted (hoffers.decides d hd)⟩
      · obtain ⟨ds, st₂, hds, hpure⟩ := bind_ok.mp h
        obtain ⟨rfl, rfl⟩ := pure_ok.mp hpure
        have hoffers := offers_branch (k := k) (hc ifTrue) hds
        refine ⟨hoffers.advances.draft, fun d hd => ?_⟩
        obtain ⟨d', hd', rfl⟩ := List.mem_map.mp hd
        exact directs_jumping (hoffers.decides d' hd')
  cases lhs with
  | constant l =>
    cases rhs with
    | constant r =>
      obtain ⟨_, st₁, hcheck, h₁⟩ := bind_ok.mp h
      obtain ⟨rfl, -⟩ := checkConstant_ok hcheck
      obtain ⟨_, st₂, hcheck', h₂⟩ := bind_ok.mp h₁
      obtain ⟨rfl, -⟩ := checkConstant_ok hcheck'
      obtain ⟨d, st₃, hd, hpure⟩ := bind_ok.mp h₂
      obtain ⟨rfl, rfl⟩ := pure_ok.mp hpure
      have houtcome : ∀ s, outcome c k op (.constant l) (.constant r) type s =
          op.holds (wrap l type) (wrap r type) := fun s => by
        rw [outcome, number_readOf_constant hscalar, number_readOf_constant hscalar, holds_eq]
      refine ⟨draft_candidate hd, fun d' hd' => ?_⟩
      obtain rfl := List.mem_singleton.mp hd'
      exact directs_jumpTo houtcome hd
    | _ => exact hvalues h
  | _ => exact hvalues h

/-! ### Running a choice -/

/-- The code around a choice: it has both labels, the node that comes next stands behind the choice
if it is a label, and what stands behind has none of the labels made for the choice. -/
structure Surrounds (c : Context) (ifTrue ifFalse : LabelId) (next : Option Node) (lo hi : ℕ)
    (front lines back : List Line) : Prop where
  ifTrue : .label (Naming.nodeLabel c.function.name ifTrue) ∈ front ++ lines ++ back
  ifFalse : .label (Naming.nodeLabel c.function.name ifFalse) ∈ front ++ lines ++ back
  follows : ∀ id, next = some (.label id) →
    back.head? = some (.label (Naming.nodeLabel c.function.name id))
  inner : ∀ n, lo ≤ n → n < hi → .label (Naming.innerLabel c.function.name n) ∉ back

/-- No label of the lines of a choice comes again. -/
theorem lone_of_fresh {lines back : List Line} {lo hi : ℕ} (hfresh : Fresh c lo hi (labelsIn lines))
    (hback : ∀ n, lo ≤ n → n < hi → .label (Naming.innerLabel c.function.name n) ∉ back) :
    Lone lines back := by
  rintro mid name rest hlines hmem
  rw [hlines, labelsIn_append] at hfresh
  have hnames : labelsIn (.label name :: rest) = name :: labelsIn rest := rfl
  rw [hnames] at hfresh
  rcases List.mem_append.mp hmem with hmem | hmem
  · have hnodup := (List.nodup_append.mp hfresh.nodup).2.1
    exact (List.nodup_cons.mp hnodup).1 (mem_labelsIn.mpr hmem)
  · obtain ⟨n, hlo, hhi, rfl⟩ := hfresh.numbered name (by simp)
    exact hback n hlo hhi hmem

/-- **A run through a choice** ends at the label of the outcome. -/
theorem Directs.run {lo hi : ℕ} {base : Draft} {pre : Store → Prop} {f : Store → Bool}
    {e : Environment} {front back : List Line} {x : Config}
    (h : Directs c e.linkage ifTrue ifFalse next lo hi base pre f d)
    (calls : Std.TreeMap ℕ CallTarget)
    (hcode : Surrounds c ifTrue ifFalse next lo hi front d.code back) (hx : x.line = front.length)
    (hs : Alert e.linkage base x.store) (hp : pre x.store) :
    ∃ y, Reaches e (front ++ d.code ++ back) calls x y ∧ y.captures = x.captures ∧
      Same base.pointerCell base.nextVReg.toNat x.store y.store ∧
      (front ++ d.code ++ back)[y.line]? =
        some (.label (Naming.nodeLabel c.function.name (chosen ifTrue ifFalse f x.store))) := by
  obtain ⟨names, hfresh, -, lines, hlines, hforward, rfl, hgoals, hrun⟩ := h
  obtain rfl : d.code = lines := hlines
  obtain ⟨-, -, hsame, hseeking⟩ := hrun x.store hs hp
  have hexit : ∀ line ∈ d.code, ∀ target, exit? line = some target →
      .label target ∈ front ++ d.code ++ back := by
    intro line hline target htarget
    rcases List.mem_cons.mp (hgoals line hline target htarget) with rfl | hgoal
    · exact hcode.ifTrue
    · rcases List.mem_cons.mp hgoal with rfl | hgoal
      · exact hcode.ifFalse
      · simp [mem_labelsIn.mp hgoal]
  obtain ⟨y, hreaches, hcaptures, hstore, hat⟩ := run_follow (e := e) d.code front back
    { store := x.store } x rfl hforward hexit (lone_of_fresh hfresh hcode.inner) ⟨rfl, hx⟩
  refine ⟨y, hreaches, hcaptures, hstore ▸ hsame, ?_⟩
  rcases hseeking with hsome | ⟨hnone, hnext⟩
  · rw [hsome] at hat
    exact ((Allocating.Blocks.labelIndices_getElem? _).mp hat).1
  · rw [hnone] at hat
    rw [show y.line = _ from hat, ← List.length_append, List.getElem?_append_right le_rfl, Nat.sub_self]
    rw [← List.head?_eq_getElem?]
    exact hcode.follows _ hnext

/-! ### Branches decide by what is read -/

/-- Whether a comparison holds between the values of its operands. -/
def holdsBetween (c : Context) (k : Linkage) (op : CompareOp) (lhs rhs : Value) (type : ValueType)
    (s : Store) : Bool :=
  compares op (number type.isSigned (bytesOf c k s type.size.toNat lhs))
    (number type.isSigned (bytesOf c k s type.size.toNat rhs))

theorem outcome_eq_holdsBetween (hl : ¬Wraps type.size.toNat lhs) (hr : ¬Wraps type.size.toNat rhs) :
    outcome c k op lhs rhs type s = holdsBetween c k op lhs rhs type s := by
  rw [outcome, holdsBetween, readOf_eq hl, readOf_eq hr]

theorem lowerNode_branch_ok {taken : Bool}
    (h : lowerNode (.branch op lhs rhs type ifTrue ifFalse) next c st = .ok (taken, st')) :
    type.isScalar = true ∧ ∃ choices st₁,
      branchChoices op lhs rhs type ifTrue ifFalse next c st = .ok (choices, st₁) ∧
        ∃ d ∈ choices, st' = { st₁ with draft := st₁.draft.commit d } := by
  obtain ⟨_, st₁, hlower, hpure⟩ := bind_ok.mp h
  obtain ⟨-, rfl⟩ := pure_ok.mp hpure
  rw [lowerBranch_eq] at hlower
  obtain ⟨_, st₂, hcheck, hrest⟩ := bind_ok.mp hlower
  obtain ⟨hscalar, rfl⟩ := checkScalar_ok hcheck
  obtain ⟨choices, st₃, hchoices, hcommit⟩ := bind_ok.mp hrest
  exact ⟨hscalar, choices, st₃, hchoices, commitCheapest_ok hcommit⟩

/-- **A branch decides by what is read for its operands.**  Whatever the comparison, the type, the
operands and what is known before, every sequence that lowering chooses from leads from the branch
to the label of the outcome, and changes nothing but the scratch pointer and new registers.  The
outcome is right unless the second byte of an operand is behind offset 255 of a pointer. -/
theorem branch_reaches {taken : Bool} (hst : Prepared c st) (htracks : TracksA st.draft)
    (hroom : st.draft.nextVReg.toNat + 16 < 2 ^ 32)
    (h : lowerNode (.branch op lhs rhs type ifTrue ifFalse) next c st = .ok (taken, st')) :
    ∃ choices st₁, branchChoices op lhs rhs type ifTrue ifFalse next c st = .ok (choices, st₁) ∧
      (∃ d ∈ choices, st'.draft = st.draft.commit d) ∧
      ∀ d ∈ choices, ∀ (e : Environment) (calls : Std.TreeMap ℕ CallTarget) (front back : List Line)
        (x : Config), Surrounds c ifTrue ifFalse next st.nextLabel st'.nextLabel front d.code back →
        x.line = front.length → Alert e.linkage st.draft x.store →
        Legible c e.linkage st.draft type lhs rhs x.store →
        (∃ y, Reaches e (front ++ d.code ++ back) calls x y ∧
          Same st.draft.pointerCell st.draft.nextVReg.toNat x.store y.store ∧
          (front ++ d.code ++ back)[y.line]? = some (.label (Naming.nodeLabel c.function.name
            (if outcome c e.linkage op lhs rhs type x.store then ifTrue else ifFalse)))) ∧
        (¬Wraps type.size.toNat lhs → ¬Wraps type.size.toNat rhs →
          outcome c e.linkage op lhs rhs type x.store =
            holdsBetween c e.linkage op lhs rhs type x.store) := by
  obtain ⟨hscalar, choices, st₁, hchoices, d, hd, rfl⟩ := lowerNode_branch_ok h
  have hsettled : Settled c st.draft := ⟨hst.facts.2.1, htracks, hroom⟩
  have hdraft : st₁.draft = st.draft := (directs_choice (k := plainLinkage) hsettled hscalar hchoices).1
  refine ⟨choices, st₁, hchoices, ⟨d, hd, by rw [hdraft]⟩,
    fun d' hd' e calls front back x hcode hx hs hp => ⟨?_, outcome_eq_holdsBetween⟩⟩
  have hdirects := (directs_choice (k := e.linkage) hsettled hscalar hchoices).2 d' hd'
  obtain ⟨y, hreaches, -, hsame, hlabel⟩ := hdirects.run calls hcode hx hs hp
  exact ⟨y, hreaches, hsame, hlabel⟩

/-! ### A comparison with a word behind offset 255 -/

/-- Whether the word at offset 255 is `$0505`. -/
def farBranch : Node := .branch .eq farWord (.constant 0x0505) .u16 1 2

/-- The code behind: the label of the true case comes first. -/
def farBack : List Line := [.label (Naming.nodeLabel "f" 1), .label (Naming.nodeLabel "f" 2)]

/-- **The word is `$0505` and the branch goes to the label of the false case**: the second byte is
taken from the start of the page. -/
theorem farBranch_misses :
    ∃ st' d, lowerNode farBranch (some (.label 1)) (farContext [farBranch, .label 1, .label 2])
        followState = .ok (false, st') ∧ st'.draft = followState.draft.commit d ∧
      holdsBetween (farContext [farBranch, .label 1, .label 2]) plainLinkage .eq farWord
        (.constant 0x0505) .u16 farStore = true ∧
      ∀ (e : Environment) (calls : Std.TreeMap ℕ CallTarget), e.linkage = plainLinkage →
        ∃ y, Reaches e (d.code ++ farBack) calls { line := 0, store := farStore } y ∧
          (d.code ++ farBack)[y.line]? = some (.label (Naming.nodeLabel "f" 2)) := by
  obtain ⟨hread, hbytes⟩ := readOf_farWord [farBranch, .label 1, .label 2]
  obtain ⟨st', hok⟩ : ∃ st', lowerNode farBranch (some (.label 1))
      (farContext [farBranch, .label 1, .label 2]) followState = .ok (false, st') := ⟨_, rfl⟩
  have hprepared : Prepared (farContext [farBranch, .label 1, .label 2]) followState := by
    refine ⟨⟨⟨followContext.temps, 2⟩, rfl, rfl, by decide⟩, fun v hv => ?_, by decide, by decide⟩
    cases hv
  obtain ⟨choices, st₁, -, ⟨d, hd, hcommit⟩, hall⟩ := branch_reaches hprepared
    (fun _ h => (List.not_mem_nil h).elim) (by decide) hok
  refine ⟨st', d, hok, hcommit, ?_, fun e calls he => ?_⟩
  · change compares .eq (number false (bytesOf _ plainLinkage farStore 2 farWord)) _ = true
    rw [hbytes]
    decide
  · have hcode : Surrounds (farContext [farBranch, .label 1, .label 2]) 1 2 (some (.label 1))
        followState.nextLabel st'.nextLabel [] d.code farBack := by
      refine ⟨List.mem_append_right _ (by simp [farBack]; exact Or.inl rfl),
        List.mem_append_right _ (by simp [farBack]; exact Or.inr rfl), fun id hid => ?_,
        fun n _ _ hmem => ?_⟩
      · cases hid
        rfl
      · rcases List.mem_pair.mp hmem with heq | heq
        · exact nodeLabel_ne_innerLabel "f" 1 n (Line.label.inj heq).symm
        · exact nodeLabel_ne_innerLabel "f" 2 n (Line.label.inj heq).symm
    have halert : Alert e.linkage followState.draft farStore :=
      ⟨⟨knows_nothing, plain_farStore (by decide), plain_farStore (by decide)⟩, tells_none⟩
    have houtcome : outcome (farContext [farBranch, .label 1, .label 2]) e.linkage .eq farWord
        (.constant 0x0505) .u16 farStore = false := by
      rw [he]
      change compares .eq (number false (readOf _ plainLinkage farStore 2 farWord)) _ = false
      rw [hread]
      decide
    obtain ⟨⟨y, hreaches, -, hlabel⟩, -⟩ := hall d hd e calls [] farBack
      { line := 0, store := farStore } hcode rfl halert
      ⟨he ▸ readable_farWord _, readable_constant _ _ _⟩
    rw [houtcome] at hlabel
    exact ⟨y, hreaches, hlabel⟩

end Codegen6502.Proofs.Selecting.Branches
