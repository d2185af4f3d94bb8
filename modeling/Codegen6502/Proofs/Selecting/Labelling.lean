import Codegen6502.Proofs.Selecting.Deciding
import Codegen6502.Proofs.Selecting.FrameReach
import Mathlib.Data.Set.List
import Std.Data.String.ToNat

/-!
# The labels of selected code

Every label that stands in the code of a function stands there for one reason: it is the label of a
label node, the exit, or one that was made for a branch inside the code of a node.  The made ones
are numbered, and of the candidates that have made some only one is committed, so none comes twice.

* `Labels`: a step that places given labels; `Commits`: one that places labels known before or new;
* `Offers`: a step that builds candidates;
* `commits_lowerBinary`, `commits_lowerBranch`: the nodes that make labels;
* `labelled_body`, `labels_of_selected`: the labels of a body and of a function.
-/

namespace Codegen6502.Proofs.Selecting.Labelling

open Selection Places Growth Shapes Nodes Bodies FrameReach
open Courses (labelsIn labelsIn_append)
open Deciding (Fresh fresh_nil fresh_next)

variable {α β : Type} {c : Context} {r : Rules}

/-! ### Steps that place given labels -/

/-- The labels among entries. -/
def labelsOf (es : List Entry) : List String := labelsIn (es.map Prod.fst)

theorem labelsOf_append (es es' : List Entry) : labelsOf (es ++ es') = labelsOf es ++ labelsOf es' := by
  unfold labelsOf
  rw [List.map_append, labelsIn_append]

/-- Every success of a step appends code with these labels. -/
abbrev Labels (c : Context) (names : List String) (m : Lower α) (Q : α → Prop) : Prop :=
  Lowers Extends c (fun es => labelsOf es = names) m Q

section Steps

variable {m : Lower α} {f : α → Lower β} {Q : α → Prop} {Q' : β → Prop} {names : List String}

/-- A step without labels, and what comes after it. -/
theorem Labels.next (h : Labels c [] m Q) (h' : ∀ a, Q a → Labels c names (f a) Q') :
    Labels c names (m >>= f) Q' :=
  h.bind h' fun es es' hes hes' => by rw [labelsOf_append, hes, hes', List.nil_append]

/-- A step without labels behind one with labels. -/
theorem Labels.behind (h : Labels c names m Q) (h' : ∀ a, Q a → Labels c [] (f a) Q') :
    Labels c names (m >>= f) Q' :=
  h.bind h' fun es es' hes hes' => by rw [labelsOf_append, hes, hes', List.append_nil]

theorem labels_of_quiet (h : Quiet c m Q) : Labels c [] m Q :=
  h.imp (fun es hes => by rw [hes]; rfl) fun _ hq => hq

/-- Under rules that have no place for labels a walk has none. -/
theorem labelsOf_walk {known : String → Prop} {p q : Point} {es : List Entry}
    (hplaces : ∀ name, ¬r.places name) (h : Walk r known p q es) : labelsOf es = [] := by
  induction h with
  | nil p => rfl
  | @cons p q q' e es step rest ih =>
    have hline : labelsOf [e] = [] := by
      cases step with
      | label x hplace hx => exact absurd hplace (hplaces _)
      | setX d x x' hset hdeep => obtain rfl | rfl | ⟨i, rfl⟩ := hset <;> rfl
      | useX d x x' huse hx => obtain rfl | rfl | ⟨z, rfl⟩ := huse <;> rfl
      | _ => rfl
    rw [← List.singleton_append, labelsOf_append, hline, ih, List.nil_append]

theorem labels_of_forms {p q : Point} (hplaces : ∀ name, ¬r.places name) (h : Forms c r p q m Q) :
    Labels c [] m Q := h.imp (fun _ hes => labelsOf_walk hplaces hes) fun _ hq => hq

theorem labels_lays (h : Lays c (Growth.Plain everywhere) m Q) : Labels c [] m Q := by
  refine h.toExtends.imp (fun es hes => List.filterMap_eq_nil_iff.mpr fun line hline => ?_) fun _ hq => hq
  obtain ⟨e, he, rfl⟩ := List.mem_map.mp hline
  obtain ⟨opcode, operand, rfl, -⟩ := hes e he
  rfl

theorem labels_push (line : Line) :
    Labels c (labelsIn [line]) (modifyDraft (·.push line)) fun _ => True := by
  intro st u st' hok htracks
  cases hok
  have hgrown := Grown.push st.draft line
  exact ⟨⟨_, ⟨hgrown.code, hgrown.calls, le_rfl, hgrown.tracks⟩, rfl⟩, trivial⟩

theorem labels_label (name : String) : Labels c [name] (label name) fun _ => True :=
  labels_push (.label name)

theorem labels_branch (opcode : Opcode) (target : String) :
    Labels c [] (branch opcode target) fun _ => True := labels_push (.branch opcode target)

theorem labels_op {opcode : Opcode} {operand : Operand} (hop : isPlain opcode = true)
    (haccess : isAccess opcode = true) (hwithin : Within everywhere operand) :
    Labels c [] (op opcode operand) fun _ => True := labels_lays (lays_op hop hwithin haccess)

end Steps

/-! ### Steps that make labels -/

/-- A step that appends nothing.  The lists of labels that come with its result are known before or
new. -/
def Offers (c : Context) (known : List String → Prop) (m : Lower α) (out : α → List (List String)) :
    Prop :=
  ∀ st a st', m c st = .ok (a, st') → TracksA st.draft → Extends st st' [] ∧
    ∀ names ∈ out a, known names ∨ Fresh c st.nextLabel st'.nextLabel names

/-- A step that appends code whose labels are known before or new. -/
def Commits (c : Context) (known : List String → Prop) (m : Lower α) : Prop :=
  ∀ st a st', m c st = .ok (a, st') → TracksA st.draft → st.nextLabel ≤ st'.nextLabel ∧
    ∃ lines, st'.draft.code = st.draft.code ++ lines ∧
      (known (labelsIn lines) ∨ Fresh c st.nextLabel st'.nextLabel (labelsIn lines))

/-- What is known, and what has been offered. -/
def Also (known : List String → Prop) (offered : List (List String)) (names : List String) : Prop :=
  known names ∨ names ∈ offered

/-- The labels of candidates. -/
def codes (ds : List Draft) : List (List String) := ds.map fun d => labelsIn d.code

section Making

variable {known : List String → Prop} {m : Lower α} {f : α → Lower β} {Q : α → Prop}
  {out : α → List (List String)} {out' : β → List (List String)} {names : List String}

theorem Offers.quiet (h : Offers c known m out) : Quiet c m fun _ => True := fun st a st' hok htracks =>
  ⟨⟨[], (h st a st' hok htracks).1, rfl⟩, trivial⟩

theorem offers_pure {a : α} (h : ∀ names ∈ out a, known names) : Offers c known (pure a) out := by
  intro st b st' hok _
  obtain ⟨rfl, rfl⟩ := pure_ok.mp hok
  exact ⟨Chained.refl _, fun names hnames => Or.inl (h names hnames)⟩

theorem offers_newLabel : Offers c known newLabel fun name => [[name]] := by
  intro st name st' hok htracks
  obtain ⟨⟨es, hes, rfl⟩, -⟩ := quiet_newLabel st name st' hok htracks
  obtain ⟨rfl, rfl⟩ := newLabel_ok hok
  refine ⟨hes, fun names hnames => Or.inr ?_⟩
  rw [List.mem_singleton.mp hnames]
  exact fresh_next _

/-- What is new to a part is new to the whole. -/
theorem fresh_of_known {lo mid hi : ℕ} {offered : List (List String)} (hlo : lo ≤ mid) (hhi : mid ≤ hi)
    (hoffered : ∀ names ∈ offered, known names ∨ Fresh c lo mid names)
    (h : Also known offered names ∨ Fresh c mid hi names) : known names ∨ Fresh c lo hi names := by
  rcases h with (hknown | hmem) | hfresh
  · exact Or.inl hknown
  · exact (hoffered names hmem).imp_right fun hfresh => hfresh.mono le_rfl hhi
  · exact Or.inr (hfresh.mono hlo le_rfl)

/-- Candidates after candidates. -/
theorem Offers.next (h : Offers c known m out)
    (h' : ∀ a, Offers c (Also known (out a)) (f a) out') : Offers c known (m >>= f) out' := by
  intro st b st'' hok htracks
  obtain ⟨a, st', hm, hf⟩ := bind_ok.mp hok
  obtain ⟨hes, hout⟩ := h st a st' hm htracks
  obtain ⟨hes', hout'⟩ := h' a st' b st'' hf (hes.tracks htracks)
  exact ⟨Chained.trans hes hes', fun names hnames =>
    fresh_of_known hes.label hes'.label hout (hout' names hnames)⟩

/-- Candidates after a step that only looks. -/
theorem offers_after (h : Quiet c m Q) (h' : ∀ a, Q a → Offers c known (f a) out') :
    Offers c known (m >>= f) out' := by
  intro st b st'' hok htracks
  obtain ⟨a, st', hm, hf⟩ := bind_ok.mp hok
  obtain ⟨⟨es, hes, rfl⟩, hq⟩ := h st a st' hm htracks
  obtain ⟨hes', hout'⟩ := h' a hq st' b st'' hf (hes.tracks htracks)
  exact ⟨Chained.trans hes hes', fun names hnames =>
    (hout' names hnames).imp_right fun hfresh => hfresh.mono hes.label le_rfl⟩

/-- One of the candidates is committed. -/
theorem Offers.commitWith (h : Offers c known m out) (hq : Quiet c m Q)
    (h' : ∀ a, Q a → Commits c (Also known (out a)) (f a)) : Commits c known (m >>= f) := by
  intro st b st'' hok htracks
  obtain ⟨a, st', hm, hf⟩ := bind_ok.mp hok
  obtain ⟨hes, hout⟩ := h st a st' hm htracks
  obtain ⟨hle, lines, hcode, hlines⟩ := h' a (hq st a st' hm htracks).2 st' b st'' hf (hes.tracks htracks)
  refine ⟨hes.label.trans hle, lines, ?_, fresh_of_known hes.label hle hout hlines⟩
  rw [hcode, hes.code, List.map_nil, List.append_nil]

theorem Offers.commit (h : Offers c known m out) (h' : ∀ a, Commits c (Also known (out a)) (f a)) :
    Commits c known (m >>= f) := h.commitWith h.quiet fun a _ => h' a

/-- What is committed after a step without labels. -/
theorem Labels.commit (h : Labels c [] m Q) (h' : ∀ a, Q a → Commits c known (f a)) :
    Commits c known (m >>= f) := by
  intro st b st'' hok htracks
  obtain ⟨a, st', hm, hf⟩ := bind_ok.mp hok
  obtain ⟨⟨es, hes, hsilent⟩, hq⟩ := h st a st' hm htracks
  obtain ⟨hle, lines, hcode, hlines⟩ := h' a hq st' b st'' hf (hes.tracks htracks)
  have hlabels : labelsIn (es.map Prod.fst ++ lines) = labelsIn lines := by
    rw [labelsIn_append]
    exact (congrArg (· ++ labelsIn lines) hsilent).trans (List.nil_append _)
  refine ⟨hes.label.trans hle, es.map Prod.fst ++ lines, ?_, ?_⟩
  · rw [hcode, hes.code, List.append_assoc]
  · rw [hlabels]
    exact hlines.imp_right fun hfresh => hfresh.mono hes.label le_rfl

theorem Labels.commits (h : Labels c names m Q) (hnames : names = [] ∨ known names) :
    Commits c known m := by
  intro st a st' hok htracks
  obtain ⟨⟨es, hes, rfl⟩, -⟩ := h st a st' hok htracks
  refine ⟨hes.label, es.map Prod.fst, hes.code, ?_⟩
  rcases hnames with hnil | hknown
  · refine Or.inr ?_
    rw [show labelsIn (es.map Prod.fst) = [] from hnil]
    exact fresh_nil _ _
  · exact Or.inl hknown

theorem Labels.silent (h : Labels c [] m Q) : Commits c known m := h.commits (Or.inl rfl)

/-- Code that places a label that has just been made. -/
theorem commits_placing (skip : String) (h : Labels c [skip] m Q) :
    Commits c (Also known [[skip]]) m := h.commits (Or.inr (Or.inr (List.mem_singleton.mpr rfl)))

theorem Commits.then_pure {b : β} (h : Commits c known m) : Commits c known (m >>= fun _ => pure b) := by
  intro st b' st'' hok htracks
  obtain ⟨a, st', hm, hpure⟩ := bind_ok.mp hok
  obtain ⟨-, rfl⟩ := pure_ok.mp hpure
  exact h st a _ hm htracks

theorem offers_candidate {build : Lower Unit} (h : Commits c known build) :
    Offers c known (candidate build) fun d => [labelsIn d.code] := by
  intro st d st' hok htracks
  obtain ⟨st₁, hbuild, rfl, rfl⟩ := candidate_ok hok
  obtain ⟨hle, lines, hcode, hlines⟩ := h _ _ _ hbuild htracks
  refine ⟨⟨by simp, by simp [callsFrom], hle, id⟩, fun names hnames => ?_⟩
  have hlines' : st₁.draft.code = lines := hcode.trans (List.nil_append _)
  rw [List.mem_singleton.mp hnames, hlines']
  exact hlines

theorem commits_commitCheapest {ds : List Draft} (h : ∀ names ∈ codes ds, known names) :
    Commits c known (commitCheapest ds) := by
  intro st u st' hok _
  obtain ⟨d, hd, rfl⟩ := commitCheapest_ok hok
  exact ⟨le_rfl, d.code, rfl, Or.inl (h _ (List.mem_map_of_mem hd))⟩

/-- One of several candidates is committed. -/
theorem Offers.cheapest {m : Lower (List Draft)} (h : Offers c known m codes) :
    Commits c known (m >>= commitCheapest) :=
  h.commit fun _ => commits_commitCheapest fun _ hnames => Or.inr hnames

/-- Candidates without labels. -/
theorem codes_of_holds {p q : Point} {d : Draft} (hplaces : ∀ name, ¬r.places name)
    (h : Holds (Shaped r p q) d) : labelsIn d.code = [] := by
  obtain ⟨-, es, hcode, -, hes⟩ := h
  rw [hcode]
  exact labelsOf_walk hplaces hes

theorem offers_of_fit {p q : Point} {m : Lower (List Draft)} (hplaces : ∀ name, ¬r.places name)
    (h : Quiet c m (Fit r p q)) : Offers c known m codes := by
  intro st ds st' hok htracks
  obtain ⟨⟨es, hes, rfl⟩, hfit⟩ := h st ds st' hok htracks
  refine ⟨hes, fun names hnames => Or.inr ?_⟩
  obtain ⟨d, hd, rfl⟩ := List.mem_map.mp hnames
  rw [codes_of_holds hplaces (hfit d hd)]
  exact fresh_nil _ _

end Making

/-! ### Steps by one -/

/-- The rules under which everything may be named, and no label be placed. -/
def silentRules (c : Context) : Rules := { anyRules c with places := fun _ => False }

theorem silent_places (c : Context) (name : String) : ¬(silentRules c).places name := id

section ByteWise

variable {known : List String → Prop} {result : Temp} {op : BinaryOp} {lhs rhs : Value}
  {type : ValueType}

theorem commits_stepBytes {up : Bool} {bytes : List ByteLoc} (h : SitedAll everywhere bytes) :
    Commits c known (stepBytes up bytes) := by
  have hoperands : Quiet c (bytes.mapM directOperand) fun os => ∀ o ∈ os, Within everywhere o :=
    Lowers.quiet (.mapM fun loc hloc => lays_directOperand (h loc hloc))
  refine Labels.commit (labels_of_quiet hoperands) fun operands hwithin => ?_
  split
  · refine Labels.silent (labels_op ?_ ?_ (hwithin _ (by simp))) <;> split <;> rfl
  · rename_i lo hi
    have hlo : ∀ opcode, isPlain opcode = true → isAccess opcode = true →
        Labels c [] (Selection.op opcode lo) fun _ => True := fun _ hop haccess =>
      labels_op hop haccess (hwithin _ (by simp))
    have hhi : ∀ opcode, isPlain opcode = true → isAccess opcode = true →
        Labels c [] (Selection.op opcode hi) fun _ => True := fun _ hop haccess =>
      labels_op hop haccess (hwithin _ (by simp))
    refine offers_newLabel.commit fun skip => ?_
    refine commits_placing (Q := fun _ => True) skip ?_
    split
    · exact (hlo .inc rfl rfl).next fun _ _ => (labels_branch .bne skip).next fun _ _ =>
        (hhi .inc rfl rfl).next fun _ _ => labels_label skip
    · exact (hlo .lda rfl rfl).next fun _ _ => (labels_branch .bne skip).next fun _ _ =>
        (hhi .dec rfl rfl).next fun _ _ => (labels_label skip).behind fun _ _ => hlo .dec rfl rfl
  · exact Labels.silent (Q := fun _ => True) (lays_internal _)

theorem offers_byteWise :
    Offers c known (candidate (byteWise op lhs rhs type result)) fun d => [labelsIn d.code] :=
  offers_candidate <| Labels.silent <| labels_lays <|
    lays_byteWise (reaches_everywhere lhs _) (reaches_everywhere rhs _)

theorem offers_stepInPlace : Offers c known (stepInPlace result op lhs rhs type) codes := by
  have hnone : Offers c known (pure []) codes := offers_pure (by simp [codes])
  unfold stepInPlace
  split
  · exact hnone
  · refine offers_after (quiet_tempInfo result) fun info _ => ?_
    split
    · exact hnone
    · have hstep : Commits c known (do stepBytes (op = .add) (← destination result)) :=
        Labels.commit (labels_of_quiet (quiet_destination everywhere result)) fun dst hdst =>
          commits_stepBytes hdst
      exact (offers_candidate hstep).next fun d => offers_pure fun names hnames => Or.inr hnames

theorem offers_fusedStep {stored : Temp} {dest : Place} {storeType : ValueType} :
    Offers c known (fusedStep result op lhs rhs type stored dest storeType) fun d? =>
      codes d?.toList := by
  have hnone : Offers c known (pure none) fun d? => codes d?.toList := offers_pure (by simp [codes])
  unfold fusedStep
  refine offers_after quiet_read fun _ _ => ?_
  split
  · exact hnone
  · split
    · exact hnone
    · have hbytes := Lowers.quiet (lays_placeBytes (c := c) (reaches_everywhere (.memory dest)
        type.size.toNat dest rfl))
      refine offers_after hbytes fun bytes hsited => ?_
      split
      · exact hnone
      · exact (offers_candidate (commits_stepBytes hsited)).next fun d =>
          offers_pure fun names hnames => Or.inr hnames

theorem offers_byteWiseCandidates {generic : Draft} (hgeneric : known (labelsIn generic.code)) :
    Offers c known (byteWiseCandidates generic result op lhs rhs type) codes := by
  have hrest : ∀ (known : List String → Prop) (swapped : List Draft),
      known (labelsIn generic.code) → (∀ names ∈ codes swapped, known names) → Offers c known (do
        let stepped ← stepInPlace result op lhs rhs type
        return generic :: (swapped ++ stepped)) codes := by
    intro known swapped hgeneric hswapped
    refine offers_stepInPlace.next fun stepped => offers_pure fun names hnames => ?_
    simp only [codes, List.map_cons, List.map_append, List.mem_cons, List.mem_append] at hnames
    rcases hnames with rfl | hmem | hmem
    · exact Or.inl hgeneric
    · exact Or.inl (hswapped names hmem)
    · exact Or.inr hmem
  unfold byteWiseCandidates
  split
  · refine offers_byteWise.next fun d => ?_
    refine offers_after (quiet_pure (Q := (· = [d])) rfl) fun swapped hswapped => ?_
    exact hrest _ swapped (Or.inl hgeneric) fun names hnames => Or.inr (by rwa [hswapped] at hnames)
  · refine offers_after (quiet_pure (Q := (· = [])) rfl) fun swapped hswapped => ?_
    refine hrest _ swapped hgeneric fun names hnames => ?_
    rw [hswapped] at hnames
    exact (List.not_mem_nil hnames).elim

/-- A candidate that is gone on with by plain lines keeps its labels. -/
theorem offers_continueCandidate {d : Draft} {build : Lower Unit} (hd : TracksA d)
    (h : Lays c (Growth.Plain everywhere) build fun _ => True) (hknown : known (labelsIn d.code)) :
    Offers c known (lowerByteWise.continueCandidate d build) fun d' => [labelsIn d'.code] := by
  intro st d' st' hok htracks
  obtain ⟨old, st₁, hget, h1⟩ := bind_ok.mp hok
  cases hget
  obtain ⟨u₁, st₂, hset, h2⟩ := bind_ok.mp h1
  cases hset
  obtain ⟨u₂, st₃, hbuild, h3⟩ := bind_ok.mp h2
  obtain ⟨new, st₄, hget', h4⟩ := bind_ok.mp h3
  cases hget'
  obtain ⟨u₃, st₅, hset', h5⟩ := bind_ok.mp h4
  cases hset'
  obtain ⟨rfl, rfl⟩ := pure_ok.mp h5
  obtain ⟨⟨es, hes, hsilent⟩, -⟩ := labels_lays h _ _ _ hbuild hd
  refine ⟨⟨by simp, by simp [callsFrom], hes.label, id⟩, fun names hnames => Or.inl ?_⟩
  have hsame : labelsIn (d.code ++ es.map Prod.fst) = labelsIn d.code := by
    rw [labelsIn_append]
    exact (congrArg (labelsIn d.code ++ ·) hsilent).trans (List.append_nil _)
  rw [List.mem_singleton.mp hnames, hes.code, hsame]
  exact hknown

theorem commits_lowerByteWise {next : Option Node} :
    Commits c known (lowerByteWise result op lhs rhs type next) := by
  have hgeneric : Quiet c (candidate (byteWise op lhs rhs type result)) TracksA :=
    (quiet_byteWise (r := anyRules c) (reaches_everywhere lhs _) (reaches_everywhere rhs _)).imp
      (fun _ h => h) fun d hd => hd.1
  refine offers_byteWise.commitWith hgeneric fun generic htracks => ?_
  have halone : ∀ known : List String → Prop, known (labelsIn generic.code) → Commits c known (do
      commitCheapest (← byteWiseCandidates generic result op lhs rhs type)
      return false) := by
    intro known hknown
    exact (offers_byteWiseCandidates hknown).commit fun ds =>
      (commits_commitCheapest fun names hnames => Or.inr hnames).then_pure
  have hknown : Also known [labelsIn generic.code] (labelsIn generic.code) :=
    Or.inr (List.mem_singleton.mpr rfl)
  split
  · rename_i stored dest storeType
    refine offers_fusedStep.commit fun d? => ?_
    split
    · rename_i step
      have hstore : Lays c (Growth.Plain everywhere)
          (storeInto (.store (.temp stored) dest storeType) (.temp result) dest type)
          fun _ => True :=
        lays_storeInto (fun _ => reaches_everywhere _ _) fun _ =>
          reaches_everywhere (.memory dest) _ dest rfl
      refine (offers_continueCandidate htracks hstore (Or.inl hknown)).commit fun d =>
        Commits.then_pure ?_
      refine commits_commitCheapest fun names hnames => ?_
      rcases List.mem_cons.mp hnames with rfl | hmem
      · exact Or.inr (List.mem_singleton.mpr rfl)
      · exact Or.inl (Or.inr hmem)
    · exact halone _ (Or.inl hknown)
  · exact halone _ hknown

theorem commits_lowerBinary {node : Node} {next : Option Node} :
    Commits c known (lowerBinary node result op lhs rhs type next) := by
  have hfail : ∀ {m : Lower Bool}, Labels c [] m (fun _ => True) → Commits c known m := Labels.silent
  have hshift : ∀ op : BinaryOp, Commits c known (do
      lowerShift node result op lhs rhs type
      return false) := fun op =>
    (Labels.silent (labels_of_forms (silent_places c)
      (forms_lowerShift (reaches_everywhere lhs _)))).then_pure
  refine Labels.commit (labels_of_quiet (quiet_checkScalar type node)) fun _ _ => ?_
  split
  · refine Labels.commit (labels_of_quiet (quiet_checkConstant _ type)) fun _ _ => ?_
    refine Labels.commit (labels_of_quiet (quiet_checkConstant _ type)) fun _ _ => ?_
    split
    · refine Labels.commit (labels_of_quiet (quiet_destination everywhere result)) fun dst hdst => ?_
      refine (Labels.silent (labels_of_forms (silent_places c) (lowers_commitOnly (forms_plain
        (lays_copyBytes _ _ (fun loc hloc => ?_) hdst).plain)))).then_pure
      obtain ⟨i, -, rfl⟩ := List.mem_map.mp hloc
      trivial
    · exact hfail (lays_invalid _)
  · split
    · exact hfail (lays_unsupported node)
    · exact hfail (lays_unsupported node)
    · exact hfail (lays_unsupported node)
    · exact hshift _
    · exact hshift _
    all_goals exact commits_lowerByteWise

end ByteWise

/-! ### Branches -/

section Branches

variable {known : List String → Prop} {lhs rhs value : Value} {type : ValueType} {target : String}

theorem labels_loadA {loc : ByteLoc} (h : Sited everywhere loc) :
    Labels c [] (loadA loc) fun _ => True := labels_lays (lays_loadA h).plain

theorem labels_compute {opcode : Opcode} {loc : ByteLoc} (hop : isPlain opcode = true)
    (haccess : isAccess opcode = true) (h : Sited everywhere loc) :
    Labels c [] (compute opcode loc) fun _ => True := labels_lays (lays_compute hop h haccess)

theorem labels_bytes (value : Value) (type : ValueType) :
    Labels c [] (valueBytes value type) (SitedAll everywhere) :=
  labels_lays (lays_valueBytes (reaches_everywhere value _))

theorem labels_operandBytes (value : Value) (type : ValueType) :
    Labels c [] (operandBytes value type) (SitedAll everywhere) :=
  labels_lays (lays_operandBytes (reaches_everywhere value _))

theorem offers_equality {equal : Bool} :
    Offers c known (equality equal lhs rhs type target) fun d => [labelsIn d.code] := by
  refine offers_candidate (Labels.commit (labels_bytes lhs type) fun lb hlb => ?_)
  refine Labels.commit (labels_operandBytes rhs type) fun rb hrb => ?_
  split
  · exact Labels.silent <| (labels_loadA (hlb _ (by simp))).next fun _ _ =>
      (labels_compute rfl (by rfl) (hrb _ (by simp))).next fun _ _ => labels_branch _ target
  · rename_i l0 l1 r0 r1
    have hfirst := labels_loadA (c := c) (hlb l0 (by simp))
    have hsecond := labels_loadA (c := c) (hlb l1 (by simp))
    have hcompare : ∀ r ∈ [r0, r1], Labels c [] (compute .cmp r) fun _ => True := fun r hr =>
      labels_compute rfl (by rfl) (hrb r hr)
    split
    · refine offers_newLabel.commit fun skip => commits_placing (Q := fun _ => True) skip ?_
      exact hfirst.next fun _ _ => (hcompare r0 (by simp)).next fun _ _ =>
        (labels_branch .bne skip).next fun _ _ => hsecond.next fun _ _ =>
        (hcompare r1 (by simp)).next fun _ _ => (labels_branch .beq target).next fun _ _ =>
        labels_label skip
    · exact Labels.silent <| hfirst.next fun _ _ => (hcompare r0 (by simp)).next fun _ _ =>
        (labels_branch .bne target).next fun _ _ => hsecond.next fun _ _ =>
        (hcompare r1 (by simp)).next fun _ _ => labels_branch .bne target
  · exact Labels.silent (Q := fun _ => True) (lays_internal _)

theorem commits_decideOrder {signed less : Bool} : Commits c known (decideOrder signed less target) := by
  unfold decideOrder
  split
  · refine offers_newLabel.commit fun ok => commits_placing (Q := fun _ => True) ok ?_
    exact (labels_branch .bvc ok).next fun _ _ =>
      (labels_op (by rfl) (by rfl) (by trivial)).next fun _ _ =>
      (labels_label ok).behind fun _ _ => labels_branch _ target
  · exact Labels.silent (labels_branch _ target)

theorem offers_ordering {less : Bool} :
    Offers c known (ordering less lhs rhs type target) fun d => [labelsIn d.code] := by
  rw [ordering_eq]
  refine offers_candidate (Labels.commit (labels_bytes lhs type) fun lb hlb => ?_)
  refine Labels.commit (labels_operandBytes rhs type) fun rb hrb => ?_
  exact Labels.commit (labels_lays (lays_subtract hlb hrb)) fun _ _ => commits_decideOrder

theorem offers_positiveTest {positive : Bool} :
    Offers c known (positiveTest positive value type target) fun d => [labelsIn d.code] := by
  rw [positiveTest_eq]
  refine offers_candidate (Labels.commit (labels_bytes value type) fun bytes hbytes => ?_)
  split
  · rename_i top htop
    have hsited : Sited everywhere top := hbytes top (List.mem_of_getLast? htop)
    have hhalves : Labels c [] (orHalves bytes) fun _ => True := labels_lays (lays_orHalves hbytes)
    refine Labels.commit (labels_lays (lays_test hsited).plain) fun _ _ => ?_
    cases positive with
    | true =>
      refine offers_newLabel.commit fun skip => commits_placing (Q := fun _ => True) skip ?_
      exact (labels_branch .bmi skip).next fun _ _ => hhalves.next fun _ _ =>
        (labels_branch .bne target).next fun _ _ => labels_label skip
    | false =>
      refine offers_newLabel.commit fun skip => Labels.silent (Q := fun _ => True) ?_
      exact (labels_branch .bmi target).next fun _ _ => hhalves.next fun _ _ =>
        (labels_branch .beq target).next fun _ _ => labels_of_quiet (quiet_pure trivial)
  · exact Labels.silent (Q := fun _ => True) (lays_internal _)

/-- A single candidate. -/
theorem Offers.alone {m : Lower Draft} (h : Offers c known m fun d => [labelsIn d.code]) :
    Offers c known (do return [← m]) codes :=
  h.next fun _ => offers_pure fun _ hnames => Or.inr hnames

theorem offers_zeroCandidates {op : CompareOp} (htarget : IsTarget (silentRules c) target) :
    Offers c known (zeroCandidates op value type target) codes := by
  have hzero : ∀ isZero, Offers c known (zeroTest isZero value type target) codes := fun isZero =>
    offers_of_fit (silent_places c) (quiet_zeroTest htarget (reaches_everywhere value _))
  have hsign : ∀ negative, Offers c known (do return [← signTest negative value type target]) codes :=
    fun negative => offers_of_fit (silent_places c) <|
      (quiet_signTest htarget (reaches_everywhere value _)).next fun d hd => quiet_pure (fit_nil.cons hd)
  unfold zeroCandidates
  split
  · exact hzero _
  · cases op with
    | eq | ne => exact hzero _
    | lt | ge => exact hsign _
    | gt | le => exact offers_positiveTest.alone

theorem offers_plainCandidates {op : CompareOp} :
    Offers c known (plainCandidates op lhs rhs type target) codes := by
  have hequality : Offers c known (do
      let straight ← equality (op = .eq) lhs rhs type target
      if rhs.constant?.isNone then
        return [straight, ← equality (op = .eq) rhs lhs type target]
      else return [straight]) codes := by
    refine offers_equality.next fun d => ?_
    split
    · refine offers_equality.next fun d' => offers_pure fun names hnames => ?_
      rcases List.mem_cons.mp hnames with rfl | hmem
      · exact Or.inl (Or.inr (List.mem_singleton.mpr rfl))
      · exact Or.inr hmem
    · exact offers_pure fun names hnames => Or.inr hnames
  cases op with
  | eq | ne => exact hequality
  | lt | ge | gt | le => exact offers_ordering.alone

theorem offers_constantCandidates {op : CompareOp} {constant : Int64}
    (htarget : IsTarget (silentRules c) target) :
    Offers c known (constantCandidates op lhs constant type target) codes := by
  have hfit : ∀ {build : Lower Unit}, Labels c [] build (fun _ => True) →
      Offers c known (do return [← candidate build]) codes := fun h =>
    (offers_candidate h.silent).alone
  refine offers_after (quiet_checkConstant constant type) fun _ _ => ?_
  simp only
  split
  · exact hfit (labels_of_quiet (quiet_pure trivial))
  · split
    · exact hfit (labels_push (.jmp target))
    · split
      · exact offers_zeroCandidates htarget
      · have hrest : ∀ (known : List String → Prop) (listed : List Draft),
            (∀ names ∈ codes listed, known names) → Offers c known (do
              let shifted ← pure listed
              return shifted ++ (← plainCandidates op lhs (.constant constant) type target)) codes := by
          intro known listed hlisted
          refine offers_after (quiet_pure (Q := (· = listed)) rfl) fun shifted hshifted => ?_
          refine offers_plainCandidates.next fun ds => offers_pure fun names hnames => ?_
          rw [hshifted, codes, List.map_append, List.mem_append] at hnames
          exact hnames.imp (hlisted names) id
        split
        · exact offers_ordering.next fun d => hrest _ [d] fun names hnames => Or.inr hnames
        · exact offers_ordering.next fun d => hrest _ [d] fun names hnames => Or.inr hnames
        · exact hrest _ [] fun names hnames => (List.not_mem_nil hnames).elim

theorem offers_branchCandidates {op : CompareOp} (htarget : IsTarget (silentRules c) target) :
    Offers c known (branchCandidates op lhs rhs type target) codes := by
  unfold branchCandidates
  by_cases hconstant : lhs.constant?.isSome = true
  · simp only [if_pos hconstant]
    split
    · exact offers_constantCandidates htarget
    · exact offers_plainCandidates
  · simp only [if_neg hconstant]
    split
    · exact offers_constantCandidates htarget
    · exact offers_plainCandidates

theorem silent_target (id : LabelId) :
    IsTarget (silentRules c) (Naming.nodeLabel c.function.name id) :=
  ⟨trivial, by simp [silentRules, anyRules, reachRules, xAtExit, nodeLabel_ne_exitLabel]⟩

theorem commits_lowerBranch {node : Node} {op : CompareOp} {ifTrue ifFalse : LabelId}
    {next : Option Node} :
    Commits c known (lowerBranch node op lhs rhs type ifTrue ifFalse next) := by
  have hjump : ∀ id, Commits c known (jumpTo id next) := fun id =>
    Labels.silent (labels_of_forms (silent_places c) (forms_jumpTo (silent_target id) (x := false)
      fun h => by cases h))
  refine Labels.commit (labels_of_quiet (quiet_checkScalar type node)) fun _ _ => ?_
  split
  · refine Labels.commit (labels_of_quiet (quiet_checkConstant _ type)) fun _ _ => ?_
    refine Labels.commit (labels_of_quiet (quiet_checkConstant _ type)) fun _ _ => ?_
    split <;> exact hjump _
  · refine Labels.commit (labels_of_quiet quiet_read) fun c' hc' => ?_
    obtain rfl := hc'
    simp only
    split
    · exact (offers_branchCandidates (silent_target _)).cheapest
    · split
      · exact (offers_branchCandidates (silent_target _)).cheapest
      · refine (offers_branchCandidates (silent_target _)).commit fun ds => ?_
        refine commits_commitCheapest fun names hnames => Or.inr ?_
        obtain ⟨d', hd', rfl⟩ := List.mem_map.mp hnames
        obtain ⟨d, hd, rfl⟩ := List.mem_map.mp hd'
        have hsame : labelsIn (d.jmp (Naming.nodeLabel c'.function.name ifFalse)).code =
            labelsIn d.code := by
          show labelsIn (d.code ++ [_]) = _
          rw [labelsIn_append]
          exact List.append_nil _
        rw [hsame]
        exact List.mem_map_of_mem hd

end Branches

/-! ### Nodes -/

/-- The label of a label node. -/
def ownLabels (name : String) : Node → List String
  | .label id => [Naming.nodeLabel name id]
  | _ => []

theorem silent_fits {node : Node} (hnode : node ∈ c.function.body) (hown : PlacesOwn (silentRules c)
    c.function.name node) : FitsNode (silentRules c) c.bindings c.function c.binding node :=
  have h := fits_anyRules.node hnode
  { own := hown
    target := fun id _ => silent_target id
    exit := h.exit
    exitX := h.exitX
    reached := h.reached
    deep := h.deep
    x := h.x }

/-- A node that is no label places new labels only. -/
theorem commits_lowerNode {node : Node} {next : Option Node} (hnode : node ∈ c.function.body)
    (hbound : Bound c.convention c.bindings) (hlabel : ∀ id, node ≠ .label id) :
    Commits c (fun _ => False) (lowerNode node next) := by
  have hsilent : PlacesOwn (silentRules c) c.function.name node →
      Commits c (fun _ => False) (lowerNode node next) := fun hown =>
    Labels.silent (labels_of_forms (silent_places c) (forms_lowerNode hbound (silent_fits hnode hown)))
  cases node with
  | binary result op lhs rhs type => exact commits_lowerBinary
  | branch op lhs rhs type ifTrue ifFalse => exact commits_lowerBranch.then_pure
  | label id => exact absurd rfl (hlabel id)
  | _ => exact hsilent trivial

/-- A label node places its label. -/
theorem labels_lowerLabel (id : LabelId) (next : Option Node) :
    Labels c [Naming.nodeLabel c.function.name id] (lowerNode (.label id) next) fun _ => True := by
  refine (labels_of_quiet quiet_read).next fun c' hc' => ?_
  obtain rfl := hc'
  exact (labels_label _).behind fun _ _ => labels_of_quiet (quiet_pure trivial)

/-! ### Bodies -/

theorem innerLabel_injective {name : String} : Function.Injective (Naming.innerLabel name) :=
  fun _ _ h => Nat.repr_injective ((String.append_right_inj _).mp h)

/-- New labels after new labels. -/
theorem fresh_append {lo mid hi : ℕ} {front back : List String} (h : Fresh c lo mid front)
    (h' : Fresh c mid hi back) (hlo : lo ≤ mid) (hhi : mid ≤ hi) : Fresh c lo hi (front ++ back) where
  nodup := by
    refine h.nodup.append h'.nodup fun name hfront hback => ?_
    obtain ⟨n, -, hn, rfl⟩ := h.numbered name hfront
    obtain ⟨m, hm, -, heq⟩ := h'.numbered _ hback
    have := innerLabel_injective heq
    omega
  numbered name hname := by
    rcases List.mem_append.mp hname with hmem | hmem
    · obtain ⟨n, hle, hlt, heq⟩ := h.numbered name hmem
      exact ⟨n, hle, hlt.trans_le hhi, heq⟩
    · obtain ⟨n, hle, hlt, heq⟩ := h'.numbered name hmem
      exact ⟨n, hlo.trans hle, hlt, heq⟩

/-- Between two states the labels of nodes have been placed, and new ones. -/
structure Labelled (c : Context) (own : List String) (st st' : State) : Prop where
  tracks : TracksA st'.draft
  label : st.nextLabel ≤ st'.nextLabel
  placed : ∃ lines made, st'.draft.code = st.draft.code ++ lines ∧
    Fresh c st.nextLabel st'.nextLabel made ∧ (labelsIn lines).Perm (own ++ made)

theorem Labelled.trans {own own' : List String} {st st' st'' : State} (h : Labelled c own st st')
    (h' : Labelled c own' st' st'') : Labelled c (own ++ own') st st'' := by
  obtain ⟨lines, made, hcode, hmade, hperm⟩ := h.placed
  obtain ⟨lines', made', hcode', hmade', hperm'⟩ := h'.placed
  refine ⟨h'.tracks, h.label.trans h'.label, lines ++ lines', made ++ made', ?_,
    fresh_append hmade hmade' h.label h'.label, ?_⟩
  · rw [hcode', hcode, List.append_assoc]
  · rw [labelsIn_append]
    refine (hperm.append hperm').trans ?_
    rw [List.append_assoc, List.append_assoc]
    exact (List.perm_append_comm_assoc ..).append_left own

theorem labelled_node {node : Node} {next : Option Node} (hnode : node ∈ c.function.body)
    (hbound : Bound c.convention c.bindings) {st st' : State} {taken : Bool}
    (hok : lowerNode node next c st = .ok (taken, st')) (htracks : TracksA st.draft) :
    Labelled c (ownLabels c.function.name node) st st' ∧ TakesStore next taken := by
  obtain ⟨⟨es, hes, -⟩, htaken⟩ :=
    forms_lowerNode hbound (fits_anyRules.node hnode) st taken st' hok htracks
  refine ⟨⟨hes.tracks htracks, hes.label, ?_⟩, htaken⟩
  by_cases hlabel : ∃ id, node = .label id
  · obtain ⟨id, rfl⟩ := hlabel
    obtain ⟨⟨es', hes', hlabels⟩, -⟩ := labels_lowerLabel id next st taken st' hok htracks
    exact ⟨_, [], hes'.code, fresh_nil _ _, List.Perm.of_eq hlabels⟩
  · have hlabel' : ∀ id, node ≠ .label id := fun id heq => hlabel ⟨id, heq⟩
    obtain ⟨-, lines, hcode, hbad | hfresh⟩ :=
      commits_lowerNode hnode hbound hlabel' st taken st' hok htracks
    · exact hbad.elim
    · have hown : ownLabels c.function.name node = [] := by
        cases node with
        | label id => exact absurd rfl (hlabel' id)
        | _ => rfl
      exact ⟨lines, labelsIn lines, hcode, hfresh, by rw [hown, List.nil_append]⟩

/-- **The labels of a body** are those of its label nodes and new ones. -/
theorem labelled_body (hbound : Bound c.convention c.bindings) : ∀ (nodes : List Node) {st st' : State}
    {u : Unit}, (∀ node ∈ nodes, node ∈ c.function.body) → lowerBody nodes c st = .ok (u, st') →
    TracksA st.draft → Labelled c (nodes.flatMap (ownLabels c.function.name)) st st'
  | [], st, st', u, _, hok, htracks => by
    obtain ⟨-, rfl⟩ := pure_ok.mp hok
    exact ⟨htracks, le_rfl, [], [], (List.append_nil _).symm, fresh_nil _ _, .refl _⟩
  | [node], st, st', u, hnodes, hok, htracks => by
    obtain ⟨taken, st₁, hnode, hrest⟩ := bind_ok.mp hok
    obtain ⟨-, rfl⟩ := pure_ok.mp hrest
    rw [List.flatMap_singleton]
    exact (labelled_node (hnodes node (List.mem_singleton.mpr rfl)) hbound hnode htracks).1
  | node :: next :: rest, st, st', u, hnodes, hok, htracks => by
    unfold lowerBody at hok
    obtain ⟨taken, st₁, hnode, hrest⟩ := bind_ok.mp hok
    obtain ⟨hlabelled, htaken⟩ :=
      labelled_node (hnodes node (List.mem_cons_self ..)) hbound hnode htracks
    have hnext : ∀ n ∈ next :: rest, n ∈ c.function.body := fun n hn =>
      hnodes n (List.mem_cons_of_mem _ hn)
    rw [List.flatMap_cons]
    refine hlabelled.trans ?_
    split at hrest
    · -- The node that is left out is a store, which has no label.
      rename_i htrue
      obtain ⟨value, dest, type, hstore⟩ := htaken htrue
      obtain rfl := Option.some.inj hstore
      exact labelled_body hbound rest (fun n hn => hnext n (List.mem_cons_of_mem _ hn)) hrest
        hlabelled.tracks
    · exact labelled_body hbound (next :: rest) hnext hrest hlabelled.tracks

/-! ### Functions -/

/-- The new labels are numbered. -/
theorem exists_numbers {lo hi : ℕ} {names : List String} (h : Fresh c lo hi names) :
    ∃ numbers : List ℕ, numbers.Nodup ∧ names = numbers.map (Naming.innerLabel c.function.name) := by
  have hrange : names ∈ Set.range (List.map (Naming.innerLabel c.function.name)) := by
    rw [Set.range_list_map]
    intro name hname
    obtain ⟨n, -, -, rfl⟩ := h.numbered name hname
    exact ⟨n, rfl⟩
  obtain ⟨numbers, rfl⟩ := hrange
  exact ⟨numbers, h.nodup.of_map, rfl⟩

/-- **The labels of a function**: its exit, those of its label nodes, and those that were made. -/
theorem labels_of_selected {conv : Convention} {bindings : Std.TreeMap String Binding}
    {limits : Limits} {f : FunctionDef} {s : SelectedCode} {b : Binding}
    (h : selectFunction conv bindings limits f = .ok s) (hb : bindings[f.name]? = some b)
    (hbound : Bound conv bindings) : ∃ numbers : List ℕ, numbers.Nodup ∧
      (labelsIn s.code).Perm (Naming.exitLabel f.name :: (f.body.flatMap (ownLabels f.name) ++
        numbers.map (Naming.innerLabel f.name))) := by
  obtain ⟨temps, next, hidden, st₁, st₂, hincoming, hbody, -, -, hcode, -⟩ := selectFunction_ok h hb
  have htracks : TracksA (.create conv.zeroPage.pointerLo next) := fun o ho =>
    (List.not_mem_nil ho).elim
  obtain ⟨⟨es, hes, hsilent⟩, -⟩ := labels_lays (lays_copyIncoming everywhere) _ _ _ hincoming htracks
  obtain ⟨u, st₃, hlower, hexit⟩ := bind_ok.mp hbody
  have hlabelled := labelled_body hbound f.body (fun _ hn => hn) hlower (hes.tracks htracks)
  obtain ⟨lines, made, hlines, hmade, hperm⟩ := hlabelled.placed
  obtain ⟨numbers, hnumbers, rfl⟩ := exists_numbers hmade
  obtain ⟨⟨es', hes', hlabel⟩, -⟩ := labels_label _ _ _ _ hexit hlabelled.tracks
  refine ⟨numbers, hnumbers, ?_⟩
  have hall : labelsIn s.code = labelsIn lines ++ [Naming.exitLabel f.name] := by
    rw [hcode, hes'.code, hlines, hes.code, labelsIn_append, labelsIn_append, labelsIn_append]
    exact congrArg₂ (· ++ ·) (congrArg (· ++ labelsIn lines) hsilent) hlabel
  rw [hall]
  exact (hperm.append_right _).trans (List.perm_append_singleton _ _)

end Codegen6502.Proofs.Selecting.Labelling
