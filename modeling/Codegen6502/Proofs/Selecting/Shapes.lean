import Codegen6502.Proofs.Selecting.Growth

/-!
# Shapes of selected code

The code that the selector emits keeps to a few rules, which let an access to the frame be put in
the place of any of its plain lines.  `Walk` says so of a list of entries: it leads from one point
of the code to another, and at each point the number of bytes that have been pushed and whether X is
needed are known.

* A plain line that may become an access to the frame stands only where X is not needed
  (`Step.plain`), and no deeper in the stack than `deepest`.
* X is needed only from a line that sets it to the lines that use it, and at no label but those of
  `xAt`.
* Branches and jumps go to labels that are known, and nothing is pushed at them and at labels.

The rules about X are those of a strict set of rules only.
-/

namespace Codegen6502.Proofs.Selecting.Shapes

open Selection Places Growth

variable {α β : Type} {c : Context}

/-! ### Walks -/

/-- What is known at a point of the code. -/
structure Point where
  /-- The bytes pushed since the entry. -/
  depth : ℕ
  /-- Whether X is needed. -/
  x : Bool

/-- The point between two nodes. -/
def idle : Point := ⟨0, false⟩

structure Rules where
  /-- The frame bytes that may be named. -/
  reach : UInt8 → Prop
  /-- The labels of the function. -/
  names : String → Prop
  /-- The labels that may stand in the code. -/
  places : String → Prop
  /-- The depth at which an access may stand. -/
  deepest : ℕ
  /-- Whether the rules about X are kept. -/
  strict : Prop
  /-- Whether X is needed at a label. -/
  xAt : String → Bool
  /-- Whether a state may be captured to go on from. -/
  resumes : Prop

/-- A line that gives X a value. -/
def SetsX (line : Line) : Prop :=
  line = .bare .tax ∨ line = .bare .tsx ∨ ∃ i, line = .op .ldx (.immediate i)

/-- A line that needs X. -/
def UsesX (line : Line) : Prop :=
  line = .bare .txa ∨ line = .bare .inx ∨ ∃ cell, line = .op .stx (.zeroPage cell)

/-- The entries that may stand between two points. -/
inductive Step (r : Rules) (known : String → Prop) : Point → Point → Entry → Prop
  | plain {d : ℕ} {x : Bool} {opcode : Opcode} {operand : Operand} (hop : isPlain opcode = true)
      (hwithin : Within r.reach operand)
      (haccess : operand.isPreAllocation = true → isAccess opcode = true) (hdeep : d ≤ r.deepest)
      (hx : r.strict → operand.isPreAllocation = true → x = false) :
      Step r known ⟨d, x⟩ ⟨d, x⟩ (.op opcode operand, none)
  | push (n : ℕ) (x : Bool) : Step r known ⟨n, x⟩ ⟨n + 1, x⟩ (.bare .pha, none)
  | pull (n : ℕ) (x : Bool) : Step r known ⟨n + 1, x⟩ ⟨n, x⟩ (.bare .pla, none)
  | setX {line : Line} (d : ℕ) (x x' : Bool) (h : SetsX line) (hdeep : d ≤ r.deepest) :
      Step r known ⟨d, x⟩ ⟨d, x'⟩ (line, none)
  | useX {line : Line} (d : ℕ) (x x' : Bool) (h : UsesX line) (hx : r.strict → x = true) :
      Step r known ⟨d, x⟩ ⟨d, x'⟩ (line, none)
  | call {operand : Operand} {target : CallTarget} (d : ℕ) (x x' : Bool)
      (hoperand : operand.isPreAllocation = false)
      (hx : r.strict → (CallTarget.argumentRegs (some target)).x = true → x = true)
      (hresumes : target = .routine .setJmp → r.resumes) :
      Step r known ⟨d, x⟩ ⟨d, x'⟩ (.op .jsr operand, some target)
  | branch {opcode : Opcode} {target : String} (x : Bool)
      (hop : opcode.isBranch = true) (hknown : known target)
      (hx : r.strict → r.xAt target = true → x = true) :
      Step r known ⟨0, x⟩ ⟨0, x⟩ (.branch opcode target, none)
  | jump {target : String} (x x' : Bool) (hknown : known target)
      (hx : r.strict → r.xAt target = true → x = true) :
      Step r known ⟨0, x⟩ ⟨0, x'⟩ (.jmp target, none)
  | escape (x x' : Bool) (h : r.strict → ¬r.resumes) :
      Step r known ⟨0, x⟩ ⟨0, x'⟩ (.op .jmp (.symbol Naming.longJmp), none)
  | label {name : String} (x : Bool) (hplaces : r.places name)
      (hx : r.strict → x = true → r.xAt name = true) :
      Step r known ⟨0, x⟩ ⟨0, x⟩ (.label name, none)

/-- Entries from one point to another. -/
inductive Walk (r : Rules) (known : String → Prop) : Point → Point → List Entry → Prop
  | nil (p : Point) : Walk r known p p []
  | cons {p q q' : Point} {e : Entry} {es : List Entry} (step : Step r known p q e)
      (rest : Walk r known q q' es) : Walk r known p q' (e :: es)

section Walks

variable {r : Rules} {known known' : String → Prop} {p q q' : Point} {es es' : List Entry}

theorem Step.mono {e : Entry} (h : Step r known p q e) (hle : ∀ l, known l → known' l) :
    Step r known' p q e := by
  cases h with
  | plain hop hwithin haccess hdeep hx => exact .plain hop hwithin haccess hdeep hx
  | push n x => exact .push n x
  | pull n x => exact .pull n x
  | setX d x x' h hdeep => exact .setX d x x' h hdeep
  | useX d x x' h hx => exact .useX d x x' h hx
  | call d x x' hoperand hx hresumes => exact .call d x x' hoperand hx hresumes
  | branch x hop hknown hx => exact .branch x hop (hle _ hknown) hx
  | jump x x' hknown hx => exact .jump x x' (hle _ hknown) hx
  | escape x x' h => exact .escape x x' h
  | label x hplaces hx => exact .label x hplaces hx

namespace Walk

theorem mono (h : Walk r known p q es) (hle : ∀ l, known l → known' l) :
    Walk r known' p q es := by
  induction h with
  | nil p => exact .nil p
  | cons step _ ih => exact .cons (step.mono hle) ih

theorem append (h : Walk r known p q es) (h' : Walk r known q q' es') :
    Walk r known p q' (es ++ es') := by
  induction h with
  | nil p => exact h'
  | cons step _ ih => exact .cons step (ih h')

theorem single {e : Entry} (h : Step r known p q e) : Walk r known p q [e] := .cons h (.nil q)

/-- Plain lines may stand wherever X is not needed. -/
theorem ofPlain {d : ℕ} (hd : d ≤ r.deepest) (h : Each (Growth.Plain r.reach) es) :
    Walk r known ⟨d, false⟩ ⟨d, false⟩ es := by
  induction es with
  | nil => exact .nil _
  | cons e es ih =>
    obtain ⟨opcode, operand, rfl, hop, hwithin, haccess⟩ := h e (List.mem_cons_self ..)
    exact .cons (.plain hop hwithin haccess hd fun _ _ => rfl)
      (ih fun e' he' => h e' (List.mem_cons_of_mem _ he'))

end Walk

/-- A walk along which control goes to labels of the function, or to labels on the way. -/
def Shaped (r : Rules) (p q : Point) (es : List Entry) : Prop :=
  Walk r (fun l => r.names l ∨ .label l ∈ es.map Prod.fst) p q es

theorem Shaped.nil (p : Point) : Shaped r p p [] := Walk.nil p

theorem Shaped.append (h : Shaped r p q es) (h' : Shaped r q q' es') :
    Shaped r p q' (es ++ es') := by
  refine Walk.append (Walk.mono h fun l hl => hl.imp_right fun hmem => ?_)
    (Walk.mono h' fun l hl => hl.imp_right fun hmem => ?_)
  · rw [List.map_append]
    exact List.mem_append_left _ hmem
  · rw [List.map_append]
    exact List.mem_append_right _ hmem

theorem Walk.shaped (h : Walk r r.names p q es) : Shaped r p q es := h.mono fun _ => Or.inl

/-- A walk along which control may also go to one more label, which is on the way. -/
theorem Walk.closed {skip : String} (h : Walk r (fun l => r.names l ∨ l = skip) p q es)
    (hskip : .label skip ∈ es.map Prod.fst) : Shaped r p q es :=
  h.mono fun l hl => hl.imp_right fun heq => by rw [heq]; exact hskip

end Walks

/-! ### Lowerings -/

/-- Every success of a step appends nothing. -/
abbrev Quiet (c : Context) (m : Lower α) (Q : α → Prop) : Prop := Lowers Extends c (· = []) m Q

/-- Every success of a step appends entries from one point to another. -/
abbrev Walks (c : Context) (r : Rules) (known : String → Prop) (p q : Point) (m : Lower α)
    (Q : α → Prop) : Prop := Lowers Extends c (Walk r known p q) m Q

/-- Every success of a step appends entries from one point to another, along which control goes to
labels of the function or to labels on the way. -/
abbrev Forms (c : Context) (r : Rules) (p q : Point) (m : Lower α) (Q : α → Prop) : Prop :=
  Lowers Extends c (Shaped r p q) m Q

section Lines

variable {r : Rules} {known : String → Prop} {p q q' : Point} {m : Lower α} {f : α → Lower β}
  {P : List Entry → Prop} {Q : α → Prop} {Q' : β → Prop}

theorem Walks.next (h : Walks c r known p q m Q) (h' : ∀ a, Q a → Walks c r known q q' (f a) Q') :
    Walks c r known p q' (m >>= f) Q' := h.bind h' fun _ _ => Walk.append

theorem Forms.next (h : Forms c r p q m Q) (h' : ∀ a, Q a → Forms c r q q' (f a) Q') :
    Forms c r p q' (m >>= f) Q' := h.bind h' fun _ _ => Shaped.append

/-- What comes after a step that appends nothing. -/
theorem Quiet.next (h : Quiet c m Q) (h' : ∀ a, Q a → Lowers Extends c P (f a) Q') :
    Lowers Extends c P (m >>= f) Q' :=
  h.bind h' fun es es' hes hp => by rw [hes]; exact hp

theorem Walks.forms (h : Walks c r r.names p q m Q) : Forms c r p q m Q :=
  h.imp (fun _ => Walk.shaped) fun _ hq => hq

/-- A step that only looks. -/
theorem quiet_still (h : ∀ st a st', m c st = .ok (a, st') → st' = st ∧ Q a) : Quiet c m Q :=
  .still h rfl

/-- A step that may append only lines of no kind appends none. -/
theorem Lowers.quiet (h : Lays c (fun _ => False) m Q) : Quiet c m Q :=
  h.toExtends.imp (fun _ hes => List.eq_nil_iff_forall_not_mem.mpr fun e he => hes e he)
    fun _ hq => hq

theorem quiet_pure {a : α} (h : Q a) : Quiet c (pure a) Q := .pure h rfl

theorem quiet_read : Quiet c (read : Lower Context) (· = c) := .read rfl

theorem lift_ok {x : Compile α} {a : α} {st st' : State}
    (h : (liftM x : Lower α) c st = .ok (a, st')) : x = .ok a ∧ st' = st := by
  cases x with
  | error e => cases h
  | ok found =>
    cases h
    exact ⟨rfl, rfl⟩

/-- A computation that knows nothing of the code. -/
theorem quiet_lift (x : Compile α) : Quiet c (liftM x : Lower α) (x = .ok ·) :=
  quiet_still fun _ _ _ h => (lift_ok h).symm

theorem walks_plain {d : ℕ} (hd : d ≤ r.deepest) (h : Lays c (Growth.Plain r.reach) m Q) :
    Walks c r known ⟨d, false⟩ ⟨d, false⟩ m Q :=
  h.toExtends.imp (fun _ hes => .ofPlain hd hes) fun _ hq => hq

theorem walks_idle (h : Lays c (Growth.Plain r.reach) m Q) : Walks c r known idle idle m Q :=
  walks_plain (Nat.zero_le _) h

theorem forms_plain (h : Lays c (Growth.Plain r.reach) m Q) : Forms c r idle idle m Q :=
  (walks_idle h).forms

theorem walks_push {line : Line} (h : Step r known p q (line, none)) :
    Walks c r known p q (modifyDraft (·.push line)) fun _ => True := by
  intro st u st' hok htracks
  cases hok
  have hgrown := Grown.push st.draft line
  exact ⟨⟨_, ⟨hgrown.code, hgrown.calls, le_rfl, hgrown.tracks⟩, .single h⟩, trivial⟩

theorem walks_call {name : String} {target : CallTarget}
    (h : Step r known p q (.jsr name, some target)) :
    Walks c r known p q (call name target) fun _ => True := by
  intro st u st' hok htracks
  cases hok
  have hgrown := Grown.call st.draft name target
  exact ⟨⟨_, ⟨hgrown.code, hgrown.calls, le_rfl, hgrown.tracks⟩, .single h⟩, trivial⟩

theorem walks_callAddress {address : UInt16} {target : CallTarget}
    (h : Step r known p q (.op .jsr (.fixed address), some target)) :
    Walks c r known p q (modifyDraft (·.callAddress address target)) fun _ => True := by
  intro st u st' hok htracks
  cases hok
  have hgrown := Grown.callAddress st.draft address target
  exact ⟨⟨_, ⟨hgrown.code, hgrown.calls, le_rfl, hgrown.tracks⟩, .single h⟩, trivial⟩

/-- What else a draft notes is no code. -/
theorem quiet_uses (routine : Routine) : Quiet c (modifyDraft (·.uses routine)) fun _ => True := by
  intro st u st' hok htracks
  cases hok
  exact ⟨⟨[], ⟨by simp [Draft.uses], by simp [Draft.uses, callsFrom], le_rfl, fun h => h⟩, rfl⟩,
    trivial⟩

theorem newLabel_ok {name : String} {st st' : State} (h : newLabel c st = .ok (name, st')) :
    name = Naming.innerLabel c.function.name st.nextLabel ∧
      st' = { st with nextLabel := st.nextLabel + 1 } := by
  obtain ⟨st₁, st₂, hget, h1⟩ := bind_ok.mp h
  cases hget
  obtain ⟨u, st₃, hset, h2⟩ := bind_ok.mp h1
  cases hset
  obtain ⟨c', st₄, hread, h3⟩ := bind_ok.mp h2
  cases hread
  obtain ⟨rfl, rfl⟩ := pure_ok.mp h3
  exact ⟨rfl, rfl⟩

theorem quiet_newLabel : Quiet c newLabel
    fun name => ∃ n, name = Naming.innerLabel c.function.name n := by
  intro st name st' hok htracks
  obtain ⟨rfl, rfl⟩ := newLabel_ok hok
  exact ⟨⟨[], ⟨by simp, by simp [callsFrom], Nat.le_succ _, id⟩, rfl⟩, _, rfl⟩

/-! ### Candidates -/

/-- A draft that consists of entries with `P`. -/
def Holds (P : List Entry → Prop) (d : Draft) : Prop :=
  TracksA d ∧ ∃ es, d.code = es.map Prod.fst ∧ d.calls = callsFrom 0 es ∧ P es

/-- A candidate that goes on. -/
theorem Holds.grown {P P' P'' : List Entry → Prop} {d d' : Draft} {es : List Entry}
    (h : Holds P d) (hgrown : Grown d d' es) (hes : P' es)
    (hcat : ∀ es es', P es → P' es' → P'' (es ++ es')) : Holds P'' d' := by
  obtain ⟨htracks, front, hcode, hcalls, hp⟩ := h
  refine ⟨hgrown.tracks htracks, front ++ es, ?_, ?_, hcat front es hp hes⟩
  · rw [hgrown.code, hcode, List.map_append]
  · rw [hgrown.calls, hcalls, callsFrom_append, hcode, List.length_map, Nat.zero_add]

theorem Holds.push {d : Draft} (h : Holds (Shaped r p q) d) {line : Line}
    (hline : Step r r.names q q' (line, none)) : Holds (Shaped r p q') (d.push line) :=
  h.grown (.push d line) (Walk.single hline).shaped fun _ _ => Shaped.append

/-- A candidate that goes on by plain lines. -/
theorem Holds.plain {d d' : Draft} {n : ℕ} (h : Holds (Shaped r p ⟨n, false⟩) d)
    (hn : n ≤ r.deepest) (hgrown : GrownBy (Growth.Plain r.reach) d d') :
    Holds (Shaped r p ⟨n, false⟩) d' := by
  obtain ⟨es, hes, hplain⟩ := hgrown
  exact h.grown hes (Walk.ofPlain hn hplain).shaped fun _ _ => Shaped.append

/-- Building a candidate appends nothing. -/
theorem candidate_ok {build : Lower Unit} {d : Draft} {st st' : State}
    (h : candidate build c st = .ok (d, st')) :
    ∃ st₁, build c { st with draft := st.draft.fork } = .ok ((), st₁) ∧ d = st₁.draft ∧
      st' = { st₁ with draft := st.draft } := by
  obtain ⟨old, st₃, hget, h1⟩ := bind_ok.mp h
  cases hget
  obtain ⟨u₁, st₄, hset, h2⟩ := bind_ok.mp h1
  cases hset
  obtain ⟨u₂, st₅, hbuild, h3⟩ := bind_ok.mp h2
  obtain ⟨new, st₆, hget', h4⟩ := bind_ok.mp h3
  cases hget'
  obtain ⟨u₃, st₇, hset', h5⟩ := bind_ok.mp h4
  cases hset'
  cases h5
  exact ⟨st₅, hbuild, rfl, rfl⟩

/-- A draft that was grown from an empty one holds what it was grown by. -/
theorem holds_of_extends {st st' : State} {es : List Entry} (h : Extends st st' es)
    (htracks : TracksA st.draft) (hcode : st.draft.code = []) (hcalls : st.draft.calls = [])
    (hp : P es) : Holds P st'.draft := by
  refine ⟨h.tracks htracks, es, ?_, ?_, hp⟩
  · rw [h.code, hcode, List.nil_append]
  · rw [h.calls, hcalls, hcode, List.nil_append, List.length_nil]

theorem quiet_candidate {build : Lower Unit} (h : Lowers Extends c P build fun _ => True) :
    Quiet c (candidate build) (Holds P) := by
  intro st d st' hok htracks
  obtain ⟨st₁, hbuild, rfl, rfl⟩ := candidate_ok hok
  obtain ⟨⟨es, hes, hp⟩, -⟩ := h _ _ _ hbuild htracks
  exact ⟨⟨[], ⟨by simp, by simp [callsFrom], hes.label, id⟩, rfl⟩,
    holds_of_extends hes htracks rfl rfl hp⟩

theorem lowers_commit {d : Draft} (h : Holds P d) :
    Lowers Extends c P (commit d) fun _ => True := by
  intro st u st' hok htracks
  cases hok
  obtain ⟨htracks', es, hcode, hcalls, hp⟩ := h
  refine ⟨⟨es, ⟨?_, ?_, le_rfl, fun _ => htracks'⟩, hp⟩, trivial⟩
  · simp [Draft.commit, hcode]
  · simp only [Draft.commit, hcalls]
    exact congrArg _ (map_callsFrom st.draft.code.length es 0)

theorem lowers_commitOnly {build : Lower Unit} (h : Lowers Extends c P build fun _ => True) :
    Lowers Extends c P (commitOnly build) fun _ => True :=
  (quiet_candidate h).next fun _ hd => lowers_commit hd

theorem cheapest?_mem {cost : α → Cost} {as : List α} {a : α}
    (h : Cost.cheapest? cost as = some a) : a ∈ as := by
  have key : ∀ (bs : List α) (best : α),
      bs.foldl (fun best b => if (cost b).less (cost best) then b else best) best ∈ best :: bs := by
    intro bs
    induction bs with
    | nil => intro best; simp
    | cons b bs ih =>
      intro best
      rw [List.foldl_cons]
      have := ih (if (cost b).less (cost best) then b else best)
      split at this <;> simp only [List.mem_cons] at this ⊢ <;> grind
  cases as with
  | nil => cases h
  | cons first rest =>
    cases h
    exact key rest first

theorem commitCheapest_ok {candidates : List Draft} {st st' : State} {u : Unit}
    (h : commitCheapest candidates c st = .ok (u, st')) :
    ∃ d ∈ candidates, st' = { st with draft := st.draft.commit d } := by
  unfold commitCheapest at h
  cases hcheapest : Cost.cheapest? Draft.cost candidates with
  | none =>
    simp only [hcheapest] at h
    cases h
  | some d =>
    simp only [hcheapest] at h
    cases h
    exact ⟨d, cheapest?_mem hcheapest, rfl⟩

theorem lowers_commitCheapest {candidates : List Draft} (h : ∀ d ∈ candidates, Holds P d) :
    Lowers Extends c P (commitCheapest candidates) fun _ => True := by
  intro st u st' hok htracks
  obtain ⟨d, hd, rfl⟩ := commitCheapest_ok hok
  exact lowers_commit (c := c) (h d hd) st () _ rfl htracks

end Lines

/-! ### Labels inside the code of a node -/

/-- A label inside the code of a node, where X is not needed. -/
structure IsInner (r : Rules) (name : String) : Prop where
  free : r.xAt name = false
  placed : r.places name

/-- The labels inside the code of a node may stand there, and X is not needed at them. -/
def InnerFree (r : Rules) (c : Context) : Prop :=
  ∀ n, IsInner r (Naming.innerLabel c.function.name n)

/-- A walk along which control may also go to one more label, which is on the way. -/
def Skipping (r : Rules) (skip : String) (p q : Point) (es : List Entry) : Prop :=
  Walk r (fun l => r.names l ∨ l = skip) p q es ∧ .label skip ∈ es.map Prod.fst

section Labels

variable {r : Rules} {known : String → Prop} {skip : String} {p q q' : Point} {m : Lower α}
  {f : α → Lower β} {Q : α → Prop} {Q' : β → Prop}

/-- Code that goes to a new label, which it has at some point. -/
theorem Forms.skipping {f : String → Lower β} (hinner : InnerFree r c)
    (h : ∀ skip, IsInner r skip → Lowers Extends c (Skipping r skip p q) (f skip) Q') :
    Forms c r p q (newLabel >>= f) Q' := by
  refine quiet_newLabel.next fun skip hskip => ?_
  obtain ⟨n, rfl⟩ := hskip
  exact (h _ (hinner n)).imp (fun es hes => hes.1.closed hes.2) fun _ hq => hq

/-- Steps before one that has the label. -/
theorem Walks.before (h : Walks c r (fun l => r.names l ∨ l = skip) p q m Q)
    (h' : ∀ a, Q a → Lowers Extends c (Skipping r skip q q') (f a) Q') :
    Lowers Extends c (Skipping r skip p q') (m >>= f) Q' :=
  h.bind h' fun es es' hes hes' => ⟨hes.append hes'.1, by
    rw [List.map_append]
    exact List.mem_append_right _ hes'.2⟩

/-- Steps behind one that has the label. -/
theorem Walks.behind (h : Lowers Extends c (Skipping r skip p q) m Q)
    (h' : ∀ a, Q a → Walks c r (fun l => r.names l ∨ l = skip) q q' (f a) Q') :
    Lowers Extends c (Skipping r skip p q') (m >>= f) Q' :=
  h.bind h' fun es es' hes hes' => ⟨hes.1.append hes', by
    rw [List.map_append]
    exact List.mem_append_left _ hes.2⟩

theorem walks_op {opcode : Opcode} {operand : Operand} (hwithin : Within r.reach operand)
    (hop : isPlain opcode = true) (haccess : isAccess opcode = true) :
    Walks c r known idle idle (op opcode operand) fun _ => True :=
  walks_idle (lays_op hop hwithin haccess)

theorem lowers_label (h : IsInner r skip) :
    Lowers Extends c (Skipping r skip idle idle) (label skip) fun _ => True := by
  intro st u st' hok htracks
  cases hok
  have hgrown := Grown.push st.draft (.label skip)
  have hstep : Step r (fun l => r.names l ∨ l = skip) idle idle (.label skip, none) :=
    .label false h.placed fun _ hx => by cases hx
  exact ⟨⟨_, ⟨hgrown.code, hgrown.calls, le_rfl, hgrown.tracks⟩, .single hstep, by simp⟩, trivial⟩

theorem walks_branch {opcode : Opcode} {target : String} (hknown : known target)
    (hx : r.xAt target = false) (hop : opcode.isBranch = true) :
    Walks c r known idle idle (branch opcode target) fun _ => True :=
  walks_push (.branch false hop hknown fun _ h => by rw [hx] at h; cases h)

end Labels

end Codegen6502.Proofs.Selecting.Shapes
