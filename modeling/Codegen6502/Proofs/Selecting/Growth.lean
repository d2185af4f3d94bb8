import Codegen6502.Proofs.Selecting.Places

/-!
# What lowering appends

A step of a lowering appends lines to the code, some of them calls with a recorded target.  `Lowers`
says, for every success of a step, of what kind the appended lines are and of what kind its result
is; it is kept by sequencing.

The steps that move, compute and copy bytes append plain lines only (`Plain`): control passes
through them, they leave X and the stack alone, and they name frame bytes only where places of the
program do.  The lines that load and store are moves even (`Moving`), which leave the carry alone as
well.
-/

namespace Codegen6502.Proofs.Selecting.Growth

open Selection Places

variable {α β : Type} {c : Context}

/-! ### Entries -/

/-- A line together with what is recorded for it if it is a call. -/
abbrev Entry := Line × Option CallTarget

/-- The calls among entries, the first of which has the index `n`. -/
def callsFrom (n : ℕ) : List Entry → List (ℕ × CallTarget)
  | [] => []
  | (_, none) :: rest => callsFrom (n + 1) rest
  | (_, some target) :: rest => (n, target) :: callsFrom (n + 1) rest

theorem callsFrom_append (front back : List Entry) : ∀ n, callsFrom n (front ++ back) =
    callsFrom n front ++ callsFrom (n + front.length) back := by
  induction front with
  | nil => exact fun n => rfl
  | cons e rest ih =>
    intro n
    have hlength : n + 1 + rest.length = n + (rest.length + 1) := by omega
    obtain ⟨line, _ | target⟩ := e
    · simp only [List.cons_append, callsFrom, ih, List.length_cons, hlength]
    · simp only [List.cons_append, callsFrom, ih, List.length_cons, hlength]

theorem map_callsFrom (m : ℕ) (es : List Entry) : ∀ n,
    ((callsFrom n es).map fun (i, target) => (m + i, target)) = callsFrom (m + n) es := by
  induction es with
  | nil => exact fun n => rfl
  | cons e rest ih =>
    intro n
    obtain ⟨line, _ | target⟩ := e
    · exact ih (n + 1)
    · simp only [callsFrom, List.map_cons, ih]
      rfl

theorem callsFrom_none {es : List Entry} (h : ∀ e ∈ es, e.2 = none) : ∀ n, callsFrom n es = [] := by
  induction es with
  | nil => exact fun n => rfl
  | cons e rest ih =>
    intro n
    obtain ⟨line, target⟩ := e
    obtain rfl : target = none := h _ (List.mem_cons_self ..)
    exact ih (fun e he => h e (List.mem_cons_of_mem _ he)) (n + 1)

/-! ### Drafts that grow -/

/-- The operand that N and Z describe after a line. -/
def nzAfter (nz : Option Operand) (line : Line) : Option Operand :=
  (({ nz := nz } : Knowledge).after 0 line).nz

theorem nz_afterRegisters {known other : Knowledge} (h : known.nz = other.nz) (opcode : Opcode)
    (operand : Operand) :
    (known.afterRegisters opcode operand).nz = (other.afterRegisters opcode operand).nz := by
  unfold Knowledge.afterRegisters
  split <;> (try split) <;> simp [h]

/-- What N and Z describe does not depend on the rest of the knowledge. -/
theorem nz_after (known : Knowledge) (cell : UInt8) (line : Line) :
    (known.after cell line).nz = nzAfter known.nz line := by
  cases line with
  | label name => rfl
  | comment text => rfl
  | op opcode operand =>
    unfold nzAfter Knowledge.after
    simp only
    split
    · rfl
    · refine nz_afterRegisters ?_ _ _
      split <;> rfl

/-- Only constants and virtual registers are known to be in A. -/
def TracksA (d : Draft) : Prop := ∀ operand ∈ d.known.a, Knowledge.isTracked operand = true

theorem tracksA_push {d : Draft} (h : TracksA d) (line : Line) : TracksA (d.push line) := by
  intro held hheld
  cases line with
  | label name => exact (List.not_mem_nil hheld).elim
  | comment text => exact h held hheld
  | op opcode operand =>
    change held ∈ (d.known.after d.pointerCell (.op opcode operand)).a at hheld
    unfold Knowledge.after at hheld
    simp only at hheld
    split at hheld
    · exact (List.not_mem_nil hheld).elim
    -- A write to memory forgets some of what is held, and an instruction either keeps what is left,
    -- forgets it or adds a tracked operand.
    · have hkept : ∀ o ∈ (if (opcode.writesMemory && operand.isMemory) = true then
          d.known.afterWrite d.pointerCell operand else d.known).a,
            Knowledge.isTracked o = true := by
        split
        · exact fun o ho => h o (List.mem_filter.mp ho).1
        · exact h
      revert hheld
      unfold Knowledge.afterRegisters
      split <;> (try split) <;> (try split) <;> grind [Knowledge.isTracked]

/-- A draft with more entries. -/
structure Grown (d d' : Draft) (es : List Entry) : Prop where
  code : d'.code = d.code ++ es.map Prod.fst
  calls : d'.calls = d.calls ++ callsFrom d.code.length es
  nz : d'.known.nz = (es.map Prod.fst).foldl nzAfter d.known.nz
  tracks : TracksA d → TracksA d'

namespace Grown

variable {d d' d'' : Draft} {es es' : List Entry}

theorem refl (d : Draft) : Grown d d [] := ⟨by simp, by simp [callsFrom], rfl, id⟩

theorem trans (h : Grown d d' es) (h' : Grown d' d'' es') : Grown d d'' (es ++ es') where
  code := by rw [h'.code, h.code, List.map_append, List.append_assoc]
  calls := by
    rw [h'.calls, h.calls, callsFrom_append, h.code, List.length_append, List.length_map,
      List.append_assoc]
  nz := by rw [h'.nz, h.nz, List.map_append, List.foldl_append]
  tracks hd := h'.tracks (h.tracks hd)

theorem push (d : Draft) (line : Line) : Grown d (d.push line) [(line, none)] :=
  ⟨rfl, by simp [callsFrom, Draft.push], nz_after .., (tracksA_push · line)⟩

theorem op (d : Draft) (opcode : Opcode) (operand : Operand) :
    Grown d (d.op opcode operand) [(.op opcode operand, none)] := push ..

theorem call (d : Draft) (name : String) (target : CallTarget) :
    Grown d (d.call name target) [(.jsr name, some target)] :=
  ⟨rfl, rfl, nz_after .., fun hd => tracksA_push (d := { d with calls := _ }) hd _⟩

theorem callAddress (d : Draft) (address : UInt16) (target : CallTarget) :
    Grown d (d.callAddress address target) [(.op .jsr (.fixed address), some target)] :=
  ⟨rfl, rfl, nz_after .., fun hd => tracksA_push (d := { d with calls := _ }) hd _⟩

/-- What else a draft holds does not matter. -/
theorem congr (h : Grown d d' es) (hcode : d''.code = d'.code) (hcalls : d''.calls = d'.calls)
    (hnz : d''.known.nz = d'.known.nz) (ha : d''.known.a = d'.known.a) : Grown d d'' es :=
  ⟨hcode.trans h.code, hcalls.trans h.calls, hnz.trans h.nz, fun hd o ho =>
    h.tracks hd o (ha ▸ ho)⟩

/-- A candidate goes on from the code so far. -/
theorem commit (h : Grown d.fork d' es) : Grown d (d.commit d') es where
  code := by
    change d.code ++ d'.code = _
    rw [h.code]
    rfl
  calls := by
    change d.calls ++ d'.calls.map (fun (i, target) => (d.code.length + i, target)) = _
    rw [h.calls]
    exact congrArg (d.calls ++ ·) (map_callsFrom d.code.length es 0)
  nz := h.nz
  tracks hd := h.tracks hd

end Grown

/-! ### Kinds of lines -/

/-- The frame bytes of an operand are among those of the program, and it is not indexed by X. -/
def Within (reach : UInt8 → Prop) : Operand → Prop
  | .frame offset => reach offset
  | .absoluteX _ | .absoluteY _ | .indirect _ | .relative _ => False
  | _ => True

/-- The frame byte of a location is among those of the program. -/
def Sited (reach : UInt8 → Prop) : ByteLoc → Prop
  | .direct operand => Within reach operand
  | .indirect .. => True

theorem sited_vreg {reach : UInt8 → Prop} (v : VReg) : Sited reach (.vreg v) := trivial

/-- The instructions that bring bytes into A and out of it. -/
def isMove : Opcode → Bool
  | .lda | .sta | .ldy => true
  | _ => false

/-- The instructions that leave X, the stack and the flow of control alone. -/
def isPlain : Opcode → Bool
  | .adc | .sbc | .and | .ora | .eor | .cmp | .clc | .sec | .inc | .dec | .asl | .lsr | .rol | .ror
  | .tay | .tya => true
  | op => isMove op

/-- The instructions that read or write a byte of memory. -/
def isAccess (op : Opcode) : Bool := op.readsMemory || op.writesMemory

/-- An instruction of a kind that is no call.  Only accesses have operands to be placed. -/
def Kind (kind : Opcode → Bool) (reach : UInt8 → Prop) (e : Entry) : Prop :=
  ∃ opcode operand, e = (.op opcode operand, none) ∧ kind opcode = true ∧ Within reach operand ∧
    (operand.isPreAllocation = true → isAccess opcode = true)

abbrev Moving := Kind isMove
abbrev Plain := Kind isPlain

theorem isPlain_of_isMove {op : Opcode} (h : isMove op = true) : isPlain op = true := by
  cases op <;> first | rfl | cases h

theorem plain_of_moving {reach : UInt8 → Prop} {e : Entry} (h : Moving reach e) :
    Plain reach e := by
  obtain ⟨opcode, operand, rfl, hmove, hwithin⟩ := h
  exact ⟨opcode, operand, rfl, isPlain_of_isMove hmove, hwithin⟩

/-- Every entry is of a kind. -/
def Each (p : Entry → Prop) (es : List Entry) : Prop := ∀ e ∈ es, p e

theorem each_nil {p : Entry → Prop} : Each p [] := fun _ h => (List.not_mem_nil h).elim

theorem each_single {p : Entry → Prop} {e : Entry} (h : p e) : Each p [e] := fun _ he =>
  List.mem_singleton.mp he ▸ h

theorem Each.append {p : Entry → Prop} {es es' : List Entry} (h : Each p es) (h' : Each p es') :
    Each p (es ++ es') := fun e he => (List.mem_append.mp he).elim (h e) (h' e)

theorem Each.imp {p q : Entry → Prop} {es : List Entry} (h : Each p es) (hpq : ∀ e, p e → q e) :
    Each q es := fun e he => hpq e (h e he)

/-- The draft grows by entries of a kind. -/
def GrownBy (p : Entry → Prop) (d d' : Draft) : Prop := ∃ es, Grown d d' es ∧ Each p es

namespace GrownBy

variable {p q : Entry → Prop} {d d' d'' : Draft}

theorem refl (d : Draft) : GrownBy p d d := ⟨[], .refl d, each_nil⟩

theorem trans (h : GrownBy p d d') (h' : GrownBy p d' d'') : GrownBy p d d'' := by
  obtain ⟨es, hes, hp⟩ := h
  obtain ⟨es', hes', hp'⟩ := h'
  exact ⟨es ++ es', hes.trans hes', hp.append hp'⟩

theorem imp (h : GrownBy p d d') (hpq : ∀ e, p e → q e) : GrownBy q d d' := by
  obtain ⟨es, hes, hp⟩ := h
  exact ⟨es, hes, hp.imp hpq⟩

theorem op {kind : Opcode → Bool} {reach : UInt8 → Prop} (d : Draft) {opcode : Opcode}
    {operand : Operand} (hkind : kind opcode = true)
    (hwithin : Within reach operand) (haccess : isAccess opcode = true) :
    GrownBy (Kind kind reach) d (d.op opcode operand) :=
  ⟨_, .op d opcode operand, each_single ⟨_, _, rfl, hkind, hwithin, fun _ => haccess⟩⟩

theorem congr (h : GrownBy p d d') (hcode : d''.code = d'.code) (hcalls : d''.calls = d'.calls)
    (hnz : d''.known.nz = d'.known.nz) (ha : d''.known.a = d'.known.a) : GrownBy p d d'' := by
  obtain ⟨es, hes, hp⟩ := h
  exact ⟨es, hes.congr hcode hcalls hnz ha, hp⟩

end GrownBy

/-! ### Bytes -/

section Bytes

variable {reach : UInt8 → Prop} (d : Draft)

theorem grown_loadOperand {operand : Operand} (h : Within reach operand) :
    GrownBy (Moving reach) d (d.loadOperand operand) := by
  unfold Draft.loadOperand
  split
  · exact .refl d
  · exact .op d rfl h rfl

theorem grown_setPointer (pointer : PointerPair) :
    GrownBy (Moving reach) d (d.setPointer pointer) := by
  unfold Draft.setPointer
  split
  · exact .refl d
  · have hvirtual : ∀ v, Within reach (.virtual v) := fun _ => trivial
    have hlo : GrownBy (Moving reach) d
        ((d.loadOperand (.virtual pointer.1)).op .sta (.zeroPage d.pointerCell)) :=
      (grown_loadOperand d (hvirtual pointer.1)).trans (.op _ (by rfl) (by trivial) (by rfl))
    have hhi := hlo.trans (grown_loadOperand _ (hvirtual pointer.2))
    exact (hhi.trans (.op _ (by rfl) (by trivial) (by rfl))).congr rfl rfl rfl rfl

theorem grown_setY (byte : UInt8) : GrownBy (Moving reach) d (d.setY byte) := by
  unfold Draft.setY
  split
  · exact .refl d
  · exact .op d rfl trivial rfl

theorem grown_loadA {loc : ByteLoc} (h : Sited reach loc) :
    GrownBy (Moving reach) d (d.loadA loc) := by
  cases loc with
  | direct operand => exact grown_loadOperand d h
  | indirect pointer offset =>
    exact ((grown_setPointer d pointer).trans (grown_setY _ offset)).trans
      (.op _ (by rfl) (by trivial) (by rfl))

theorem grown_storeA {d d' : Draft} {loc : ByteLoc} (hloc : Sited reach loc)
    (h : d.storeA loc = .ok d') : GrownBy (Moving reach) d d' := by
  cases loc with
  | direct operand =>
    simp only [Draft.storeA] at h
    split at h
    · cases h
      exact .op d rfl hloc rfl
    · cases h
  | indirect pointer offset =>
    have hd' : ((Tracking.aim d pointer).setY offset).op .sta
        (.indirectY (Tracking.aim d pointer).pointerCell) = d' := Except.ok.inj h
    have haim : GrownBy (Moving reach) d (Tracking.aim d pointer) := by
      unfold Tracking.aim
      split
      · exact .refl d
      · have hnew : GrownBy (Moving reach) d d.newVReg.2 := (GrownBy.refl d).congr rfl rfl rfl rfl
        exact ((hnew.trans (.op _ (by rfl) (by trivial) (by rfl))).trans
          (grown_setPointer _ pointer)).trans (.op _ (by rfl) (by trivial) (by rfl))
    rw [← hd']
    exact (haim.trans (grown_setY _ offset)).trans (.op _ (by rfl) (by trivial) (by rfl))

theorem grown_compute {d d' : Draft} {opcode : Opcode} {loc : ByteLoc}
    (hop : isPlain opcode = true) (haccess : isAccess opcode = true) (hloc : Sited reach loc)
    (h : d.compute opcode loc = .ok d') : GrownBy (Plain reach) d d' := by
  cases loc with
  | direct operand =>
    cases h
    exact .op d hop hloc haccess
  | indirect pointer offset =>
    simp only [Draft.compute] at h
    split at h
    · cases h
      exact ((grown_setY d offset).imp fun _ => plain_of_moving).trans (.op _ hop trivial haccess)
    · cases h

theorem grown_test {loc : ByteLoc} (h : Sited reach loc) :
    GrownBy (Moving reach) d (d.test loc) := by
  cases loc with
  | direct operand =>
    unfold Draft.test
    simp only
    split
    · exact .refl d
    · exact .op d rfl h rfl
  | indirect pointer offset => exact grown_loadA d h

theorem grown_materialize {d d' : Draft} {loc loc' : ByteLoc} (hloc : Sited reach loc)
    (h : d.materialize loc = .ok (loc', d')) :
    GrownBy (Moving reach) d d' ∧ Sited reach loc' := by
  unfold Draft.materialize at h
  split at h
  · have hnew : GrownBy (Moving reach) d d.newVReg.2 := (GrownBy.refl d).congr rfl rfl rfl rfl
    simp only at h
    split at h
    · rename_i d₁ hstore
      cases h
      exact ⟨(hnew.trans (grown_loadA _ hloc)).trans (grown_storeA (sited_vreg _) hstore),
        trivial⟩
    · cases h
  · cases h
    exact ⟨.refl d, hloc⟩

end Bytes

/-! ### Lowerings -/

/-- The state after a step has more entries in its draft, and no label has been made. -/
structure Grows (st st' : State) (es : List Entry) : Prop where
  draft : Grown st.draft st'.draft es
  label : st'.nextLabel = st.nextLabel

/-- The state after a step has more entries in its draft. -/
structure Extends (st st' : State) (es : List Entry) : Prop where
  code : st'.draft.code = st.draft.code ++ es.map Prod.fst
  calls : st'.draft.calls = st.draft.calls ++ callsFrom st.draft.code.length es
  label : st.nextLabel ≤ st'.nextLabel
  tracks : TracksA st.draft → TracksA st'.draft

theorem Grows.toExtends {st st' : State} {es : List Entry} (h : Grows st st' es) :
    Extends st st' es := ⟨h.draft.code, h.draft.calls, h.label.ge, h.draft.tracks⟩

/-- A relation that steps one after the other keep. -/
class Chained (R : State → State → List Entry → Prop) : Prop where
  refl : ∀ st, R st st []
  trans : ∀ {st st' st'' es es'}, R st st' es → R st' st'' es' → R st st'' (es ++ es')
  tracks : ∀ {st st' es}, R st st' es → TracksA st.draft → TracksA st'.draft

instance : Chained Grows where
  refl _ := ⟨.refl _, rfl⟩
  trans h h' := ⟨h.draft.trans h'.draft, h'.label.trans h.label⟩
  tracks h := h.draft.tracks

instance : Chained Extends where
  refl _ := ⟨by simp, by simp [callsFrom], le_rfl, id⟩
  trans h h' := by
    refine ⟨?_, ?_, h.label.trans h'.label, fun hd => h'.tracks (h.tracks hd)⟩
    · rw [h'.code, h.code, List.map_append, List.append_assoc]
    · rw [h'.calls, h.calls, callsFrom_append, h.code, List.length_append, List.length_map,
        List.append_assoc]
  tracks h := h.tracks

/-- Every success of a step appends entries with `P` and gives a result with `Q`. -/
def Lowers (R : State → State → List Entry → Prop) (c : Context) (P : List Entry → Prop)
    (m : Lower α) (Q : α → Prop) : Prop :=
  ∀ st a st', m c st = .ok (a, st') → TracksA st.draft → (∃ es, R st st' es ∧ P es) ∧ Q a

namespace Lowers

variable {R : State → State → List Entry → Prop} {P S T : List Entry → Prop}
  {p : Entry → Prop} {m : Lower α} {f : α → Lower β} {Q : α → Prop} {Q' : β → Prop}

theorem imp {Q' : α → Prop} (h : Lowers R c P m Q) (hP : ∀ es, P es → S es)
    (hQ : ∀ a, Q a → Q' a) : Lowers R c S m Q' := by
  intro st a st' hok htracks
  obtain ⟨⟨es, hes, hp⟩, hq⟩ := h st a st' hok htracks
  exact ⟨⟨es, hes, hP es hp⟩, hQ a hq⟩

/-- A step that fails. -/
theorem fail (h : ∀ st, ∃ e, m c st = .error e) : Lowers R c P m Q := by
  intro st a st' hok htracks
  obtain ⟨e, he⟩ := h st
  rw [he] at hok
  cases hok

theorem toExtends (h : Lowers Grows c P m Q) : Lowers Extends c P m Q := by
  intro st a st' hok htracks
  obtain ⟨⟨es, hes, hp⟩, hq⟩ := h st a st' hok htracks
  exact ⟨⟨es, hes.toExtends, hp⟩, hq⟩

variable [Chained R]

/-- A step that only looks. -/
theorem still (h : ∀ st a st', m c st = .ok (a, st') → st' = st ∧ Q a) (hP : P []) :
    Lowers R c P m Q := by
  intro st a st' hok htracks
  obtain ⟨rfl, hq⟩ := h st a st' hok
  exact ⟨⟨[], Chained.refl _, hP⟩, hq⟩

theorem pure {a : α} (hQ : Q a) (hP : P []) : Lowers R c P (pure a) Q :=
  still (fun st b st' h => by obtain ⟨rfl, rfl⟩ := pure_ok.mp h; exact ⟨rfl, hQ⟩) hP

theorem read (hP : P []) : Lowers R c P (read : Lower Context) (· = c) :=
  still (fun st b st' h => by cases h; exact ⟨rfl, rfl⟩) hP

/-- **One step after the other.** -/
theorem bind (h : Lowers R c P m Q) (h' : ∀ a, Q a → Lowers R c S (f a) Q')
    (hcat : ∀ es es', P es → S es' → T (es ++ es')) : Lowers R c T (m >>= f) Q' := by
  intro st b st'' hok htracks
  obtain ⟨a, st', hm, hf⟩ := bind_ok.mp hok
  obtain ⟨⟨es, hes, hp⟩, hq⟩ := h st a st' hm htracks
  obtain ⟨⟨es', hes', hp'⟩, hq'⟩ := h' a hq st' b st'' hf (Chained.tracks hes htracks)
  exact ⟨⟨es ++ es', Chained.trans hes hes', hcat es es' hp hp'⟩, hq'⟩

/-- Lines of a kind after lines of that kind. -/
theorem next (h : Lowers R c (Each p) m Q) (h' : ∀ a, Q a → Lowers R c (Each p) (f a) Q') :
    Lowers R c (Each p) (m >>= f) Q' := h.bind h' fun _ _ => Each.append

theorem mapM {as : List α} {Q : β → Prop} (h : ∀ a ∈ as, Lowers R c (Each p) (f a) Q) :
    Lowers R c (Each p) (as.mapM f) fun bs => ∀ b ∈ bs, Q b := by
  induction as with
  | nil => exact pure (by simp) each_nil
  | cons a rest ih =>
    rw [List.mapM_cons]
    refine (h a (List.mem_cons_self ..)).next fun b hb => ?_
    refine (ih fun x hx => h x (List.mem_cons_of_mem _ hx)).next fun bs hbs => ?_
    exact pure (by simpa using ⟨hb, hbs⟩) each_nil

theorem times {step : Lower Unit} (n : ℕ) (h : Lowers R c (Each p) step fun _ => True) :
    Lowers R c (Each p) (times n step) fun _ => True := by
  induction n with
  | zero => exact pure trivial each_nil
  | succ n ih => exact h.next fun _ _ => ih

end Lowers

/-- Every success of a step appends entries of a kind. -/
abbrev Lays (c : Context) (p : Entry → Prop) (m : Lower α) (Q : α → Prop) : Prop :=
  Lowers Grows c (Each p) m Q

section Steps

variable {p : Entry → Prop} {reach : UInt8 → Prop}

theorem lays_invalid {P : List Entry → Prop} {Q : α → Prop} {R : State → State → List Entry → Prop}
    (problem : String) : Lowers R c P (invalid problem : Lower α) Q := .fail fun _ => ⟨_, rfl⟩

theorem lays_unsupported {P : List Entry → Prop} {Q : α → Prop}
    {R : State → State → List Entry → Prop} (node : Node) :
    Lowers R c P (unsupported node : Lower α) Q := .fail fun _ => ⟨_, rfl⟩

theorem lays_internal {P : List Entry → Prop} {Q : α → Prop} {R : State → State → List Entry → Prop}
    (problem : String) : Lowers R c P (internal problem : Lower α) Q := .fail fun _ => ⟨_, rfl⟩

theorem lays_modifyDraft {f : Draft → Draft} (h : ∀ d, GrownBy p d (f d)) :
    Lays c p (modifyDraft f) fun _ => True := by
  intro st a st' hok htracks
  cases hok
  obtain ⟨es, hes, hp⟩ := h st.draft
  exact ⟨⟨es, ⟨hes, rfl⟩, hp⟩, trivial⟩

theorem tryDraft_ok {f : Draft → Compile Draft} {st st' : State} {u : Unit}
    (h : tryDraft f c st = .ok (u, st')) : f st.draft = .ok st'.draft ∧
      st'.nextLabel = st.nextLabel := by
  obtain ⟨st₁, st₂, hget, hrest⟩ := bind_ok.mp h
  cases hget
  obtain ⟨d, st₃, hlift, hset⟩ := bind_ok.mp hrest
  cases hd : f st.draft with
  | error e =>
    simp only [hd] at hlift
    cases hlift
  | ok d' =>
    simp only [hd] at hlift
    cases hlift
    cases hset
    exact ⟨rfl, rfl⟩

theorem lays_tryDraft {f : Draft → Compile Draft} (h : ∀ d d', f d = .ok d' → GrownBy p d d') :
    Lays c p (tryDraft f) fun _ => True := by
  intro st a st' hok htracks
  obtain ⟨hf, hlabel⟩ := tryDraft_ok hok
  obtain ⟨es, hes, hp⟩ := h _ _ hf
  exact ⟨⟨es, ⟨hes, hlabel⟩, hp⟩, trivial⟩

theorem lays_op {kind : Opcode → Bool} {opcode : Opcode} {operand : Operand}
    (hkind : kind opcode = true) (hwithin : Within reach operand)
    (haccess : isAccess opcode = true) :
    Lays c (Kind kind reach) (op opcode operand) fun _ => True :=
  lays_modifyDraft fun d => .op d hkind hwithin haccess

theorem bare_eq (opcode : Opcode) :
    Line.bare opcode = .op opcode .implied ∨ Line.bare opcode = .op opcode .accumulator := by
  unfold Line.bare
  split
  · exact Or.inr rfl
  · exact Or.inr rfl
  · exact Or.inr rfl
  · exact Or.inr rfl
  · exact Or.inl rfl

theorem lays_bare {kind : Opcode → Bool} {opcode : Opcode} (hkind : kind opcode = true) :
    Lays c (Kind kind reach) (bare opcode) fun _ => True := by
  refine lays_modifyDraft fun d => ⟨_, .push d (.bare opcode), each_single ?_⟩
  rcases bare_eq opcode with h | h
  · exact ⟨opcode, .implied, by rw [h], hkind, trivial, fun hpre => by cases hpre⟩
  · exact ⟨opcode, .accumulator, by rw [h], hkind, trivial, fun hpre => by cases hpre⟩

theorem lays_newVReg : Lays c p newVReg fun _ => True := by
  intro st v st' hok htracks
  cases hok
  exact ⟨⟨[], ⟨(Grown.refl _).congr rfl rfl rfl rfl, rfl⟩, each_nil⟩, trivial⟩

theorem lays_newPair : Lays c p newPair fun _ => True :=
  lays_newVReg.next fun _ _ => lays_newVReg.next fun _ _ => .pure trivial each_nil

theorem lays_loadA {loc : ByteLoc} (h : Sited reach loc) :
    Lays c (Moving reach) (loadA loc) fun _ => True :=
  lays_modifyDraft fun d => grown_loadA d h

theorem lays_storeA {loc : ByteLoc} (h : Sited reach loc) :
    Lays c (Moving reach) (storeA loc) fun _ => True :=
  lays_tryDraft fun _ _ => grown_storeA h

theorem lays_compute {opcode : Opcode} {loc : ByteLoc} (hop : isPlain opcode = true)
    (h : Sited reach loc) (haccess : isAccess opcode = true) :
    Lays c (Plain reach) (compute opcode loc) fun _ => True :=
  lays_tryDraft fun _ _ => grown_compute hop haccess h

theorem lays_test {loc : ByteLoc} (h : Sited reach loc) :
    Lays c (Moving reach) (test loc) fun _ => True :=
  lays_modifyDraft fun d => grown_test d h

theorem materialize_ok {loc loc' : ByteLoc} {st st' : State}
    (h : materialize loc c st = .ok (loc', st')) :
    st.draft.materialize loc = .ok (loc', st'.draft) ∧ st'.nextLabel = st.nextLabel := by
  obtain ⟨st₁, st₂, hget, hrest⟩ := bind_ok.mp h
  cases hget
  obtain ⟨r, st₃, hlift, hset⟩ := bind_ok.mp hrest
  cases hd : st.draft.materialize loc with
  | error e =>
    simp only [hd] at hlift
    cases hlift
  | ok r' =>
    simp only [hd] at hlift
    cases hlift
    cases hset
    exact ⟨rfl, rfl⟩

theorem lays_materialize {loc : ByteLoc} (h : Sited reach loc) :
    Lays c (Moving reach) (materialize loc) (Sited reach) := by
  intro st loc' st' hok htracks
  obtain ⟨hd, hlabel⟩ := materialize_ok hok
  obtain ⟨⟨es, hes, hp⟩, hloc'⟩ := grown_materialize h hd
  exact ⟨⟨es, ⟨hes, hlabel⟩, hp⟩, hloc'⟩

theorem Lowers.plain {m : Lower α} {Q : α → Prop} (h : Lays c (Moving reach) m Q) :
    Lays c (Plain reach) m Q := h.imp (fun _ hes => hes.imp fun _ => plain_of_moving) fun _ hq => hq

/-! ### Values -/

theorem checkConstant_ok {value : Int64} {type : ValueType} {st st' : State} {u : Unit}
    (h : checkConstant value type c st = .ok (u, st')) :
    st' = st ∧ c.limits.fits value type.size.toNat type.isSigned = true := by
  obtain ⟨c', st₁, hread, h⟩ := bind_ok.mp h
  cases hread
  split at h
  · cases h
  · rename_i hfits
    cases h
    exact ⟨rfl, by simpa using hfits⟩

theorem destination_ok {x : Temp} {locs : List ByteLoc} {st st' : State}
    (h : destination x c st = .ok (locs, st')) :
    st' = st ∧ locs = (registersOf c x).map .vreg := by
  obtain ⟨info, st₁, hinfo, hpure⟩ := bind_ok.mp h
  obtain ⟨rfl, hget⟩ := tempInfo_ok hinfo
  obtain ⟨rfl, rfl⟩ := pure_ok.mp hpure
  exact ⟨rfl, by simp [registersOf, hget]⟩

theorem lays_destination (reach : UInt8 → Prop) (x : Temp) :
    Lays c p (destination x) fun locs => ∀ loc ∈ locs, Sited reach loc := by
  refine .still (fun st locs st' h => ?_) each_nil
  obtain ⟨rfl, rfl⟩ := destination_ok h
  refine ⟨rfl, fun loc hloc => ?_⟩
  obtain ⟨v, -, rfl⟩ := List.mem_map.mp hloc
  trivial

/-- The frame bytes that the first bytes from a place on stand for are among those of the
program. -/
def Reaches (reach : UInt8 → Prop) (place : Place) (size : ℕ) : Prop :=
  ∀ i < size, ∀ offset, place.displaced (UInt16.ofNat i) = .frameByte offset → reach offset

/-- The same of a value. -/
def ReachesValue (reach : UInt8 → Prop) (value : Value) (size : ℕ) : Prop :=
  ∀ place, value = .memory place → Reaches reach place size

theorem lays_placeLoc {place : Place}
    (h : ∀ offset, place = .frameByte offset → reach offset) :
    Lays c p (placeLoc place) (Sited reach) := by
  refine .still (fun st loc st' hok => ?_) each_nil
  cases place with
  | absolute address =>
    obtain ⟨rfl, rfl⟩ := pure_ok.mp hok
    exact ⟨rfl, by split <;> trivial⟩
  | global name offset =>
    obtain ⟨rfl, rfl⟩ := pure_ok.mp hok
    exact ⟨rfl, trivial⟩
  | frameByte offset =>
    obtain ⟨rfl, rfl⟩ := pure_ok.mp hok
    exact ⟨rfl, h offset rfl⟩
  | indirect base offset =>
    obtain ⟨pointer, st₁, hpointer, hrest⟩ := bind_ok.mp hok
    obtain ⟨rfl, -⟩ := pointerOf_ok hpointer
    obtain ⟨rfl, rfl⟩ := pure_ok.mp hrest
    exact ⟨rfl, trivial⟩
  | banked bank offset =>
    cases bank with
    | paged bank =>
      obtain ⟨rfl, rfl⟩ := pure_ok.mp hok
      exact ⟨rfl, trivial⟩
    | common => cases hok
  | iocb channel field =>
    obtain ⟨address, st₁, haddress, hrest⟩ := bind_ok.mp hok
    obtain ⟨rfl, rfl⟩ := pure_ok.mp hrest
    unfold iocbAddress at haddress
    cases hfield : field.address? channel with
    | none =>
      simp only [hfield] at haddress
      cases haddress
    | some found =>
      simp only [hfield] at haddress
      obtain ⟨-, rfl⟩ := pure_ok.mp haddress
      exact ⟨rfl, trivial⟩
  | returnSlot offset =>
    obtain ⟨pointer, st₁, hpointer, hrest⟩ := bind_ok.mp hok
    obtain ⟨rfl, -⟩ := resultPointer_ok hpointer
    obtain ⟨rfl, rfl⟩ := pure_ok.mp hrest
    exact ⟨rfl, trivial⟩

theorem lays_placeBytes {place : Place} {size : ℕ} (h : Reaches reach place size) :
    Lays c p (placeBytes place size) fun locs => ∀ loc ∈ locs, Sited reach loc :=
  .mapM fun i hi => lays_placeLoc (h i (List.mem_range.mp hi))

theorem lays_signByte {top : ByteLoc} (h : Sited reach top) :
    Lays c (Plain reach) (signByte top) (Sited reach) := by
  refine lays_newVReg.next fun v _ => (lays_loadA h).plain.next fun _ _ => ?_
  refine (lays_bare (by rfl)).next fun _ _ => ?_
  refine (lays_op (by rfl) (by trivial) (by rfl)).next fun _ _ => ?_
  refine (lays_op (by rfl) (by trivial) (by rfl)).next fun _ _ => ?_
  refine (lays_op (by rfl) (by trivial) (by rfl)).next fun _ _ => ?_
  exact (lays_storeA (sited_vreg v)).plain.next fun _ _ => .pure trivial each_nil

/-- **The bytes of a value** take plain lines. -/
theorem lays_valueBytes {value : Value} {type : ValueType}
    (h : ReachesValue reach value type.size.toNat) :
    Lays c (Plain reach) (valueBytes value type) fun locs => ∀ loc ∈ locs, Sited reach loc := by
  unfold valueBytes
  cases value with
  | constant value =>
    refine Lowers.next (Q := fun _ => True) (.still (fun st u st' hok => ?_) each_nil)
      fun _ _ => .pure ?_ each_nil
    · exact ⟨(checkConstant_ok hok).1, trivial⟩
    · intro loc hloc
      obtain ⟨i, -, rfl⟩ := List.mem_map.mp hloc
      trivial
  | temp x =>
    refine Lowers.next (Q := fun _ => True)
      (.still (fun st info st' hok => ⟨(tempInfo_ok hok).1, trivial⟩) each_nil) fun info _ => ?_
    have hbytes : ∀ loc ∈ (info.vregs.take type.size.toNat).map ByteLoc.vreg, Sited reach loc := by
      intro loc hloc
      obtain ⟨v, -, rfl⟩ := List.mem_map.mp hloc
      trivial
    have hall : ∀ (n : ℕ) (fill : ByteLoc), Sited reach fill →
        ∀ loc ∈ (info.vregs.take type.size.toNat).map ByteLoc.vreg ++ List.replicate n fill,
          Sited reach loc := by
      intro n fill hfill loc hloc
      rcases List.mem_append.mp hloc with hmem | hmem
      · exact hbytes loc hmem
      · exact (List.mem_replicate.mp hmem).2 ▸ hfill
    simp only
    split
    · split
      · split
        · exact (lays_signByte (sited_vreg _)).next fun fill hfill =>
            .pure (hall _ fill hfill) each_nil
        · exact Lowers.next (Q := fun _ => False) (lays_internal _) fun _ h => h.elim
      · exact Lowers.next (Q := Sited reach) (.pure trivial each_nil) fun fill hfill =>
          .pure (hall _ fill hfill) each_nil
    · exact .pure hbytes each_nil
  | memory place => exact lays_placeBytes (h place rfl)

theorem lays_operandBytes {value : Value} {type : ValueType}
    (h : ReachesValue reach value type.size.toNat) :
    Lays c (Plain reach) (operandBytes value type) fun locs => ∀ loc ∈ locs, Sited reach loc :=
  (lays_valueBytes h).next fun _ hlocs => .mapM fun loc hloc => (lays_materialize (hlocs loc hloc)).plain

theorem lays_copyBytes : ∀ (srcs dsts : List ByteLoc), (∀ loc ∈ srcs, Sited reach loc) →
    (∀ loc ∈ dsts, Sited reach loc) → Lays c (Moving reach) (copyBytes srcs dsts) fun _ => True
  | [], dsts, _, _ => by unfold copyBytes; exact .pure trivial each_nil
  | src :: srcs, [], _, _ => by unfold copyBytes; exact .pure trivial each_nil
  | src :: srcs, dst :: dsts, hsrcs, hdsts => by
    have hrest := lays_copyBytes srcs dsts (fun l hl => hsrcs l (List.mem_cons_of_mem _ hl))
      fun l hl => hdsts l (List.mem_cons_of_mem _ hl)
    unfold copyBytes
    split
    · exact (lays_loadA (hsrcs src (List.mem_cons_self ..))).next fun _ _ =>
        (lays_storeA (hdsts dst (List.mem_cons_self ..))).next fun _ _ => hrest
    · exact hrest

end Steps

end Codegen6502.Proofs.Selecting.Growth
