import Codegen6502.Proofs.Selecting.Shifting

/-!
# Lowering that succeeds

A step works if it succeeds in every state (`Works`), and it fails if it ends in one error in every
state (`Fails`); both are followed through sequences.

An operation or a comparison of a temporary with a constant of its type works: the bytes of both are
registers and constants, so that nothing is read through a pointer (`works_operation`,
`works_shift`, `works_branch`).  The exception is a comparison for which the code takes the
successor of the constant: the successor is held to the configured range like a constant of the
program (`fails_branch`).
-/

namespace Codegen6502.Proofs.Selecting.Success

open Selection Growth Shapes Nodes
open Processor.Chains Places Constants Branches Computing Operations Shifting

variable {α β : Type} {c : Context}

/-! ### Steps that work and steps that fail -/

/-- A step succeeds in every state, with a result of a kind. -/
def Works (c : Context) (m : Lower α) (Q : α → Prop) : Prop :=
  ∀ st, ∃ a st', m c st = .ok (a, st') ∧ Q a

/-- A step ends in an error in every state. -/
def Fails (c : Context) (m : Lower α) (e : CompileError) : Prop := ∀ st, m c st = .error e

namespace Works

variable {m : Lower α} {f : α → Lower β} {Q : α → Prop} {Q' : β → Prop}

theorem pure {a : α} (h : Q a) : Works c (pure a) Q := fun st => ⟨a, st, rfl, h⟩

theorem next (h : Works c m Q) (h' : ∀ a, Q a → Works c (f a) Q') : Works c (m >>= f) Q' := by
  intro st
  obtain ⟨a, st₁, ha, hQ⟩ := h st
  obtain ⟨b, st₂, hb, hQ'⟩ := h' a hQ st₁
  exact ⟨b, st₂, bind_ok.mpr ⟨a, st₁, ha, hb⟩, hQ'⟩

theorem imp {P : α → Prop} (h : Works c m P) (hPQ : ∀ a, P a → Q a) : Works c m Q := fun st =>
  let ⟨a, st', ha, hP⟩ := h st
  ⟨a, st', ha, hPQ a hP⟩

theorem mapM {f : α → Lower β} {as : List α} (h : ∀ a ∈ as, Works c (f a) Q') :
    Works c (as.mapM f) fun bs => bs.length = as.length ∧ ∀ b ∈ bs, Q' b := by
  induction as with
  | nil => exact .pure ⟨rfl, fun _ hb => (List.not_mem_nil hb).elim⟩
  | cons a rest ih =>
    rw [List.mapM_cons]
    refine (h a (List.mem_cons_self ..)).next fun b hb => ?_
    refine (ih fun a' ha' => h a' (List.mem_cons_of_mem _ ha')).next fun bs hbs => .pure ?_
    exact ⟨by simp [hbs.1], List.forall_mem_cons.mpr ⟨hb, hbs.2⟩⟩

theorem times {step : Lower Unit} (h : Works c step fun _ => True) : ∀ n : ℕ,
    Works c (times n step) fun _ => True
  | 0 => .pure trivial
  | n + 1 => h.next fun _ _ => times h n

theorem fails {e : CompileError} (h : Works c m Q) (h' : ∀ a, Q a → Fails c (f a) e) :
    Fails c (m >>= f) e := by
  intro st
  obtain ⟨a, st₁, ha, hQ⟩ := h st
  change (m c st >>= fun r => f r.1 c r.2) = .error e
  rw [ha]
  exact h' a hQ st₁

end Works

theorem Fails.next {m : Lower α} {e : CompileError} (h : Fails c m e) (f : α → Lower β) :
    Fails c (m >>= f) e := by
  intro st
  change (m c st >>= fun r => f r.1 c r.2) = .error e
  rw [h st]
  rfl

/-! ### Single steps -/

theorem works_read : Works c (read : Lower Context) (· = c) := fun st => ⟨c, st, rfl, rfl⟩

theorem works_modifyDraft (f : Draft → Draft) : Works c (modifyDraft f) fun _ => True :=
  fun _ => ⟨(), _, rfl, trivial⟩

theorem works_newLabel : Works c newLabel fun _ => True := fun _ => ⟨_, _, rfl, trivial⟩

theorem works_compute (opcode : Opcode) (operand : Operand) :
    Works c (compute opcode (.direct operand)) fun _ => True := fun _ => ⟨(), _, rfl, trivial⟩

theorem works_storeA (v : VReg) : Works c (storeA (.vreg v)) fun _ => True :=
  fun _ => ⟨(), _, rfl, trivial⟩

theorem works_candidate {build : Lower Unit} (h : Works c build fun _ => True) :
    Works c (candidate build) fun _ => True := fun st =>
  let ⟨_, st₁, hbuild, _⟩ := h { st with draft := st.draft.fork }
  ⟨st₁.draft, { st₁ with draft := st.draft }, by
    simp only [candidate, bind_ok]
    exact ⟨_, _, rfl, _, _, rfl, _, _, hbuild, _, _, rfl, _, _, rfl, rfl⟩, trivial⟩

theorem fails_candidate {build : Lower Unit} {e : CompileError} (h : Fails c build e) :
    Fails c (candidate build) e := by
  intro st
  change ((build c { st with draft := st.draft.fork }) >>= _) = Except.error e
  rw [h]
  rfl

theorem works_commitCheapest {ds : List Draft} (h : ds ≠ []) :
    Works c (commitCheapest ds) fun _ => True := by
  obtain ⟨d, rest, rfl⟩ := List.exists_cons_of_ne_nil h
  exact fun _ => ⟨(), _, rfl, trivial⟩

theorem works_checkScalar {type : ValueType} (h : type.isScalar = true) (node : Node) :
    Works c (checkScalar type node) fun _ => True := by
  unfold checkScalar
  rw [h]
  exact .pure trivial

/-- Whether a constant lies in the configured range of its type. -/
def InRange (c : Context) (value : Int64) (type : ValueType) : Prop :=
  c.limits.fits value type.size.toNat type.isSigned = true

instance (value : Int64) (type : ValueType) : Decidable (InRange c value type) := by
  unfold InRange; infer_instance

theorem works_checkConstant {value : Int64} {type : ValueType} (h : InRange c value type) :
    Works c (checkConstant value type) fun _ => True := by
  refine works_read.next ?_
  rintro _ rfl
  rw [InRange] at h
  rw [h]
  exact .pure trivial

/-- The error of a constant that is out of range. -/
def outOfRange (c : Context) (value : Int64) (type : ValueType) : CompileError :=
  .constantOutOfRange c.function.name value type.text

theorem fails_checkConstant {value : Int64} {type : ValueType} (h : ¬ InRange c value type) :
    Fails c (checkConstant value type) (outOfRange c value type) := by
  refine works_read.fails ?_
  rintro _ rfl
  rw [InRange, Bool.not_eq_true] at h
  rw [h]
  exact fun _ => rfl

/-! ### Values of which the bytes are at hand -/

/-- Locations that are operands, one for each byte. -/
def Direct (size : ℕ) (locs : List ByteLoc) : Prop :=
  locs.length = size ∧ ∀ loc ∈ locs, ∃ operand, loc = .direct operand

/-- The bytes of a value are operands. -/
def AtHand (c : Context) (value : Value) (type : ValueType) : Prop :=
  Works c (valueBytes value type) (Direct type.size.toNat)

/-- A temporary has as many registers as a type has bytes. -/
def Whole (c : Context) (x : Temp) (type : ValueType) : Prop :=
  ∃ info, c.temps[x]? = some info ∧ info.vregs.length = type.size.toNat

theorem direct_vregs (vs : List VReg) : Direct vs.length (vs.map .vreg) := by
  refine ⟨List.length_map .., fun loc hloc => ?_⟩
  obtain ⟨v, -, rfl⟩ := List.mem_map.mp hloc
  exact ⟨_, rfl⟩

section Values

variable {x : Temp} {type : ValueType} {value lhs rhs : Value}

theorem works_tempInfo {info : TempInfo} (h : c.temps[x]? = some info) :
    Works c (tempInfo x) (· = info) := by
  refine works_read.next ?_
  rintro _ rfl
  rw [h]
  exact .pure rfl

theorem works_destination (h : Whole c x type) : Works c (destination x) fun locs =>
    ∃ vs : List VReg, vs.length = type.size.toNat ∧ locs = vs.map .vreg := by
  obtain ⟨info, hinfo, hlength⟩ := h
  refine (works_tempInfo hinfo).next ?_
  rintro _ rfl
  exact .pure ⟨_, hlength, rfl⟩

theorem atHand_temp (h : Whole c x type) : AtHand c (.temp x) type := by
  obtain ⟨info, hinfo, hlength⟩ := h
  refine (works_tempInfo hinfo).next ?_
  rintro _ rfl
  simp only [← hlength, List.take_length, List.length_map, lt_irrefl, if_false]
  exact .pure (direct_vregs _)

theorem atHand_constant {v : Int64} (h : InRange c v type) : AtHand c (.constant v) type := by
  refine (works_checkConstant h).next fun _ _ => .pure ⟨by simp [constBytes], fun loc hloc => ?_⟩
  obtain ⟨i, -, rfl⟩ := List.mem_map.mp hloc
  exact ⟨_, rfl⟩

/-- An operand is not copied out. -/
theorem works_materialize (operand : Operand) :
    Works c (materialize (.direct operand)) fun loc => ∃ operand, loc = .direct operand :=
  fun _ => ⟨_, _, rfl, operand, rfl⟩

theorem works_operandBytes (h : AtHand c value type) :
    Works c (operandBytes value type) (Direct type.size.toNat) := by
  refine Works.next h fun locs hlocs => ?_
  refine (Works.mapM fun loc hloc => ?_).imp fun locs' hlocs' => ⟨hlocs'.1.trans hlocs.1, hlocs'.2⟩
  obtain ⟨operand, rfl⟩ := hlocs.2 loc hloc
  exact works_materialize operand

/-- The bytes of a scalar: one operand or two. -/
theorem Direct.cases {locs : List ByteLoc} (h : Direct type.size.toNat locs)
    (hscalar : type.isScalar = true) :
    (type.size.toNat = 1 ∧ ∃ o, locs = [.direct o]) ∨
      (type.size.toNat = 2 ∧ ∃ o o', locs = [.direct o, .direct o']) := by
  obtain ⟨hlength, hdirect⟩ := h
  rcases size_cases hscalar with hsize | hsize <;> rw [hsize] at hlength
  · obtain ⟨loc, rfl⟩ := List.length_eq_one_iff.mp hlength
    obtain ⟨o, rfl⟩ := hdirect loc (by simp)
    exact Or.inl ⟨hsize, o, rfl⟩
  · obtain ⟨lo, hi, rfl⟩ := List.length_eq_two.mp hlength
    obtain ⟨o, rfl⟩ := hdirect lo (by simp)
    obtain ⟨o', rfl⟩ := hdirect hi (by simp)
    exact Or.inr ⟨hsize, o, o', rfl⟩

/-- The bytes of two operands of one scalar type. -/
theorem Direct.pair {lb rb : List ByteLoc} (hl : Direct type.size.toNat lb)
    (hr : Direct type.size.toNat rb) (hscalar : type.isScalar = true) :
    (∃ l r, lb = [.direct l] ∧ rb = [.direct r]) ∨
      ∃ l l' r r', lb = [.direct l, .direct l'] ∧ rb = [.direct r, .direct r'] := by
  rcases hl.cases hscalar with ⟨hsize, l, rfl⟩ | ⟨hsize, l, l', rfl⟩ <;>
    rcases hr.cases hscalar with ⟨hsize', r, rfl⟩ | ⟨hsize', r, r', rfl⟩ <;>
    first
      | exact Or.inl ⟨_, _, rfl, rfl⟩
      | exact Or.inr ⟨_, _, _, _, rfl, rfl⟩
      | omega

end Values

/-! ### Byte-wise operations -/

section Operations

variable {op : BinaryOp} {result x : Temp} {type : ValueType} {lhs rhs : Value}

theorem works_startChain (hop : isByteWise op = true) : Works c (startChain op) fun _ => True := by
  cases op with
  | add | sub => exact (works_modifyDraft _).next fun _ _ => .pure trivial
  | and | or | xor => exact .pure trivial
  | _ => cases hop

theorem works_computeBytes (opcode : Opcode) : ∀ (vs : List VReg) {m n : ℕ} (ls rs : List ByteLoc),
    Direct m ls → Direct n rs → Works c (computeBytes opcode (vs.map .vreg) ls rs) fun _ => True
  | [], _, _, _, _, _, _ => .pure trivial
  | _ :: _, _, _, [], _, _, _ => .pure trivial
  | _ :: _, _, _, _ :: _, [], _, _ => .pure trivial
  | v :: vs, _, _, l :: ls, r :: rs, hl, hr => by
    obtain ⟨operand, rfl⟩ := hr.2 r (List.mem_cons_self ..)
    refine (works_modifyDraft _).next fun _ _ => (works_compute opcode operand).next fun _ _ => ?_
    refine (works_storeA v).next fun _ _ => works_computeBytes opcode vs ls rs ⟨rfl, ?_⟩ ⟨rfl, ?_⟩
    · exact fun loc hloc => hl.2 loc (List.mem_cons_of_mem _ hloc)
    · exact fun loc hloc => hr.2 loc (List.mem_cons_of_mem _ hloc)

theorem works_setApart {dst locs : List ByteLoc} {n : ℕ} (h : Direct n locs) :
    Works c (setApart dst locs) (Direct n) := by
  have hany : locs.any (readsThrough dst) = false := by
    rw [List.any_eq_false]
    intro loc hloc
    obtain ⟨operand, rfl⟩ := h.2 loc hloc
    simp [readsThrough]
  unfold setApart
  rw [hany]
  exact .pure h

theorem works_byteWise (hop : isByteWise op = true) (hl : AtHand c lhs type) (hr : AtHand c rhs type)
    (hresult : Whole c result type) : Works c (byteWise op lhs rhs type result) fun _ => True := by
  rw [byteWise_eq]
  refine (works_destination hresult).next ?_
  rintro _ ⟨vs, -, rfl⟩
  refine Works.next hl fun lb hlb => (works_operandBytes hr).next fun rb hrb => ?_
  refine (works_setApart hlb).next fun lb hlb => (works_startChain hop).next fun opcode _ => ?_
  exact works_computeBytes opcode vs lb rb hlb hrb

theorem works_stepBytes {up : Bool} {locs : List ByteLoc} (hscalar : type.isScalar = true)
    (h : Direct type.size.toNat locs) : Works c (stepBytes up locs) fun _ => True := by
  have hoperands : ∀ loc ∈ locs, Works c (directOperand loc) fun _ => True := fun loc hloc => by
    obtain ⟨operand, rfl⟩ := h.2 loc hloc
    exact .pure trivial
  refine (Works.mapM hoperands).next fun operands hlength => ?_
  rcases size_cases hscalar with hsize | hsize <;> rw [h.1, hsize] at hlength
  · obtain ⟨operand, rfl⟩ := List.length_eq_one_iff.mp hlength.1
    exact works_modifyDraft _
  · obtain ⟨lo, hi, rfl⟩ := List.length_eq_two.mp hlength.1
    refine works_newLabel.next fun skip _ => ?_
    split
    · exact (works_modifyDraft _).next fun _ _ => (works_modifyDraft _).next fun _ _ =>
        (works_modifyDraft _).next fun _ _ => works_modifyDraft _
    · exact (works_modifyDraft _).next fun _ _ => (works_modifyDraft _).next fun _ _ =>
        (works_modifyDraft _).next fun _ _ => (works_modifyDraft _).next fun _ _ => works_modifyDraft _

theorem works_stepInPlace (hscalar : type.isScalar = true) (hresult : Whole c result type) :
    Works c (stepInPlace result op lhs rhs type) fun _ => True := by
  unfold stepInPlace
  split
  · exact .pure trivial
  · have hinfo := hresult
    obtain ⟨info, hinfo, -⟩ := hinfo
    refine (works_tempInfo hinfo).next ?_
    rintro _ rfl
    split
    · exact .pure trivial
    · refine (works_candidate ((works_destination hresult).next ?_)).next fun _ _ => .pure trivial
      rintro _ ⟨vs, hlength, rfl⟩
      exact works_stepBytes hscalar (hlength ▸ direct_vregs vs)

/-- A byte-wise operation on operands at hand offers a sequence. -/
theorem works_byteWiseCandidates {generic : Draft} (hop : isByteWise op = true)
    (hscalar : type.isScalar = true) (hl : AtHand c lhs type) (hr : AtHand c rhs type)
    (hresult : Whole c result type) :
    Works c (byteWiseCandidates generic result op lhs rhs type) fun ds => ds ≠ [] := by
  have hrest : ∀ swapped, Works c (do
      let stepped ← stepInPlace result op lhs rhs type
      return generic :: (swapped ++ stepped)) fun ds => ds ≠ [] := fun swapped =>
    (works_stepInPlace hscalar hresult).next fun stepped _ => .pure (List.cons_ne_nil _ _)
  unfold byteWiseCandidates
  split
  · exact (works_candidate (works_byteWise hop hr hl hresult)).next fun d _ =>
      Works.next (.pure trivial) fun swapped (_ : True) => hrest swapped
  · exact Works.next (.pure trivial) fun swapped (_ : True) => hrest swapped

/-- An operation that is not a step of memory is not fused with a store. -/
theorem works_fusedStep {stored : Temp} {dest : Place} {storeType : ValueType}
    (h : isUnitStep op lhs rhs (.memory dest) = false) :
    Works c (fusedStep result op lhs rhs type stored dest storeType) (· = none) := by
  unfold fusedStep
  refine works_read.next ?_
  rintro _ rfl
  split
  · exact .pure rfl
  · rw [h]
    exact .pure rfl

/-- **A byte-wise operation on operands at hand works**, and takes no store along. -/
theorem works_byteWiseChoices (hop : isByteWise op = true) (hscalar : type.isScalar = true)
    (hl : AtHand c lhs type) (hr : AtHand c rhs type) (hresult : Whole c result type)
    (hunit : ∀ dest, isUnitStep op lhs rhs (.memory dest) = false) (next : Option Node) :
    Works c (byteWiseChoices op result lhs rhs type next) fun choice =>
      choice.1 ≠ [] ∧ choice.2 = false := by
  refine (works_candidate (works_byteWise hop hl hr hresult)).next fun generic _ => ?_
  have halone : Works c (do
      return (← byteWiseCandidates generic result op lhs rhs type, false)) fun choice =>
        choice.1 ≠ [] ∧ choice.2 = false :=
    (works_byteWiseCandidates hop hscalar hl hr hresult).next fun ds hds => .pure ⟨hds, rfl⟩
  split
  · refine (works_fusedStep (hunit _)).next ?_
    rintro _ rfl
    exact halone
  · exact halone

end Operations

/-! ### Shifts -/

section Shifts

variable {op : BinaryOp} {result : Temp} {lhs : Value} {type : ValueType} {left arithmetic : Bool}

theorem works_copyBytes : ∀ (srcs : List ByteLoc) (vs : List VReg),
    Works c (copyBytes srcs (vs.map .vreg)) fun _ => True
  | [], _ => .pure trivial
  | _ :: _, [] => .pure trivial
  | src :: srcs, v :: vs => by
    have hrest := works_copyBytes srcs vs
    change Works c (do
      if src ≠ .vreg v then
        loadA src
        storeA (.vreg v)
      copyBytes srcs (vs.map .vreg)) _
    simp only
    split
    · exact (works_modifyDraft _).next fun _ _ => (works_storeA v).next fun _ _ => hrest
    · exact hrest

theorem works_shiftA : Works c (shiftA left arithmetic) fun _ => True := by
  unfold shiftA
  split
  · exact (works_modifyDraft _).next fun _ _ => works_modifyDraft _
  · exact works_modifyDraft _

theorem works_shiftPair (lo hi : Operand) :
    Works c (shiftPair left arithmetic lo hi) fun _ => True := by
  unfold shiftPair
  split
  · exact (works_modifyDraft _).next fun _ _ => works_modifyDraft _
  · split
    · exact (works_modifyDraft _).next fun _ _ => (works_modifyDraft _).next fun _ _ =>
        (works_modifyDraft _).next fun _ _ => (works_modifyDraft _).next fun _ _ => works_modifyDraft _
    · exact (works_modifyDraft _).next fun _ _ => works_modifyDraft _

theorem works_shiftByte (hscalar : type.isScalar = true) (hl : AtHand c lhs type) (k : ℕ) (v : VReg) :
    Works c (shiftByte result lhs type left arithmetic k (.vreg v)) fun ds => ds ≠ [] := by
  refine (works_candidate (Works.next hl fun bytes hbytes => ?_)).next fun inA _ => ?_
  · rcases hbytes.cases hscalar with ⟨-, o, rfl⟩ | ⟨-, o, o', rfl⟩ <;>
    exact (works_modifyDraft _).next fun _ _ => (Works.times works_shiftA k).next fun _ _ =>
      works_storeA v
  · split
    · exact (works_candidate (Works.times (works_modifyDraft _) k)).next fun _ _ =>
        .pure (List.cons_ne_nil _ _)
    · exact .pure (List.cons_ne_nil _ _)

theorem works_shiftWord (hsize : type.size.toNat = 2) (hl : AtHand c lhs type) (k : ℕ) (v v' : VReg) :
    Works c (shiftWord lhs type left arithmetic k (.vreg v) (.vreg v')) fun _ => True := by
  refine works_candidate (Works.next hl fun bytes hbytes => ?_)
  obtain ⟨lo, hi, rfl⟩ := List.length_eq_two.mp (hbytes.1.trans hsize)
  simp only
  split
  · have hto : ∀ b : Bool, Works c (storeA (if b = true then .vreg v else .vreg v')) fun _ => True :=
      fun b => by cases b <;> exact works_storeA _
    refine (works_modifyDraft _).next fun _ _ => (Works.times works_shiftA _).next fun _ _ => ?_
    cases left with
    | true | false =>
      exact (works_storeA _).next fun _ _ => (works_modifyDraft _).next fun _ _ => works_storeA _
  · exact (works_copyBytes [lo, hi] [v, v']).next fun _ _ => Works.times (works_shiftPair _ _) k

/-- **A shift of an operand at hand works**, if the count is not negative. -/
theorem works_shiftChoices {node : Node} {count : Int64} (hscalar : type.isScalar = true)
    (hl : AtHand c lhs type) (hresult : Whole c result type) (hcount : 0 ≤ count) :
    Works c (shiftChoices node result op lhs (.constant count) type) fun ds => ds ≠ [] := by
  unfold shiftChoices
  dsimp only [Value.constant?]
  rw [if_neg (Int64.not_lt.mpr hcount)]
  refine (works_destination hresult).next ?_
  rintro _ ⟨vs, hlength, rfl⟩
  by_cases hlong : capped (op = .shr && type.isSigned) type count ≥ Int64.ofNat (bitsOf type)
  · simp only [if_pos hlong]
    exact (works_candidate (works_copyBytes _ vs)).next fun _ _ => .pure (List.cons_ne_nil _ _)
  · simp only [if_neg hlong]
    rcases size_cases hscalar with hsize | hsize <;> rw [hsize] at hlength
    · obtain ⟨v, rfl⟩ := List.length_eq_one_iff.mp hlength
      exact works_shiftByte hscalar hl _ v
    · obtain ⟨v, v', rfl⟩ := List.length_eq_two.mp hlength
      exact (works_shiftWord hsize hl _ v v').next fun _ _ => .pure (List.cons_ne_nil _ _)

end Shifts

/-! ### Comparisons -/

section Comparisons

variable {op : CompareOp} {x : Temp} {type : ValueType} {lhs rhs value : Value} {target : String}

theorem works_equality {equal : Bool} (hscalar : type.isScalar = true) (hl : AtHand c lhs type)
    (hr : AtHand c rhs type) : Works c (equality equal lhs rhs type target) fun _ => True := by
  refine works_candidate (Works.next hl fun lb hlb => (works_operandBytes hr).next fun rb hrb => ?_)
  have hcompare : ∀ {l : ByteLoc} {r : Operand} {m : Lower Unit}, Works c m (fun _ => True) →
      Works c (do loadA l; compute .cmp (.direct r); m) fun _ => True := fun hm =>
    (works_modifyDraft _).next fun _ _ => (works_compute _ _).next fun _ _ => hm
  rcases hlb.pair hrb hscalar with ⟨l, r, rfl, rfl⟩ | ⟨l, l', r, r', rfl, rfl⟩
  · exact hcompare (works_modifyDraft _)
  · simp only
    split
    · refine works_newLabel.next fun skip _ => hcompare ((works_modifyDraft _).next fun _ _ => ?_)
      exact hcompare ((works_modifyDraft _).next fun _ _ => works_modifyDraft _)
    · exact hcompare ((works_modifyDraft _).next fun _ _ => hcompare (works_modifyDraft _))

theorem works_decideOrder {signed less : Bool} :
    Works c (decideOrder signed less target) fun _ => True := by
  unfold decideOrder
  split
  · exact works_newLabel.next fun _ _ => (works_modifyDraft _).next fun _ _ =>
      (works_modifyDraft _).next fun _ _ => (works_modifyDraft _).next fun _ _ => works_modifyDraft _
  · exact works_modifyDraft _

theorem works_ordering {less : Bool} (hscalar : type.isScalar = true) (hl : AtHand c lhs type)
    (hr : AtHand c rhs type) : Works c (ordering less lhs rhs type target) fun _ => True := by
  rw [ordering_eq]
  refine works_candidate (Works.next hl fun lb hlb => (works_operandBytes hr).next fun rb hrb => ?_)
  have hsubtract : Works c (subtract type.isSigned lb rb) fun _ => True := by
    rcases hlb.pair hrb hscalar with ⟨l, r, rfl, rfl⟩ | ⟨l, l', r, r', rfl, rfl⟩ <;> unfold subtract
    · refine (works_modifyDraft _).next fun _ _ => ?_
      split
      · exact (works_modifyDraft _).next fun _ _ => works_compute _ _
      · exact works_compute _ _
    · exact (works_modifyDraft _).next fun _ _ => (works_compute _ _).next fun _ _ =>
        (works_modifyDraft _).next fun _ _ => works_compute _ _
  exact hsubtract.next fun _ _ => works_decideOrder

/-- An ordering against a constant out of range ends in the error of the constant. -/
theorem fails_ordering {less : Bool} {v : Int64} (hl : AtHand c lhs type) (h : ¬ InRange c v type) :
    Fails c (ordering less lhs (.constant v) type target) (outOfRange c v type) := by
  rw [ordering_eq]
  refine fails_candidate (Works.fails hl fun lb _ => ?_)
  exact (((fails_checkConstant h).next _).next _).next _

theorem works_zeroTest {isZero : Bool} (hscalar : type.isScalar = true) (h : AtHand c value type) :
    Works c (zeroTest isZero value type target) fun ds => ds ≠ [] := by
  have hbuild : ∀ base opcode {bytes}, Direct type.size.toNat bytes →
      Works c (zeroTest.build target base opcode bytes) fun ds => ds ≠ [] := by
    intro base opcode bytes hbytes
    rcases hbytes.cases hscalar with ⟨-, o, rfl⟩ | ⟨-, o, o', rfl⟩
    · exact .pure (List.cons_ne_nil _ _)
    · have hcombine : ∀ first second,
          Works c (zeroTest.combine target base opcode (.direct first) (.direct second)) fun _ => True :=
        fun _ _ _ => ⟨_, _, rfl, trivial⟩
      exact (hcombine o o').next fun _ _ => (hcombine o' o).next fun _ _ => .pure (List.cons_ne_nil _ _)
  intro st
  obtain ⟨bytes, st₁, hbytes, hdirect⟩ := h { st with draft := st.draft.fork }
  obtain ⟨ds, st₂, hds, hne⟩ := hbuild st₁.draft (if isZero then .beq else .bne) hdirect st₁
  refine ⟨ds, { st₂ with draft := st.draft }, ?_, hne⟩
  simp only [zeroTest, bind_ok]
  exact ⟨_, _, rfl, _, _, rfl, _, _, hbytes, _, _, rfl, _, _, hds, _, _, rfl, _, _, rfl, rfl⟩

theorem getLast_of_direct {bytes : List ByteLoc} (hscalar : type.isScalar = true)
    (h : Direct type.size.toNat bytes) : ∃ o, bytes.getLast? = some (.direct o) := by
  rcases h.cases hscalar with ⟨-, o, rfl⟩ | ⟨-, -, o, rfl⟩ <;> exact ⟨o, rfl⟩

theorem works_signTest {negative : Bool} (hscalar : type.isScalar = true) (h : AtHand c value type) :
    Works c (signTest negative value type target) fun _ => True := by
  refine works_candidate (Works.next h fun bytes hbytes => ?_)
  obtain ⟨o, ho⟩ := getLast_of_direct hscalar hbytes
  rw [ho]
  exact (works_modifyDraft _).next fun _ _ => works_modifyDraft _

theorem works_orHalves {n : ℕ} {bytes : List ByteLoc} (h : Direct n bytes) :
    Works c (orHalves bytes) fun _ => True := by
  unfold orHalves
  split
  · rename_i lo hi
    obtain ⟨o, rfl⟩ := h.2 hi (by simp)
    exact (works_modifyDraft _).next fun _ _ => works_compute _ o
  · exact .pure trivial

theorem works_positiveTest {positive : Bool} (hscalar : type.isScalar = true)
    (h : AtHand c value type) : Works c (positiveTest positive value type target) fun _ => True := by
  rw [positiveTest_eq]
  refine works_candidate (Works.next h fun bytes hbytes => ?_)
  obtain ⟨o, ho⟩ := getLast_of_direct hscalar hbytes
  rw [ho]
  refine (works_modifyDraft _).next fun _ _ => works_newLabel.next fun skip _ => ?_
  refine (works_modifyDraft _).next fun _ _ => (works_orHalves hbytes).next fun _ _ => ?_
  refine (works_modifyDraft _).next fun _ _ => ?_
  split
  · exact works_modifyDraft _
  · exact .pure trivial

/-- A single sequence. -/
theorem works_single {m : Lower Draft} (h : Works c m fun _ => True) :
    Works c (do return [← m]) fun ds => ds ≠ [] :=
  h.next fun _ _ => .pure (List.cons_ne_nil _ _)

theorem works_zeroCandidates (hscalar : type.isScalar = true) (h : AtHand c value type) :
    Works c (zeroCandidates op value type target) fun ds => ds ≠ [] := by
  unfold zeroCandidates
  split
  · exact works_zeroTest hscalar h
  · cases op with
    | eq | ne => exact works_zeroTest hscalar h
    | lt | ge => exact works_single (works_signTest hscalar h)
    | gt | le => exact works_single (works_positiveTest hscalar h)

theorem works_plainCandidates (hscalar : type.isScalar = true) (hl : AtHand c lhs type)
    (hr : AtHand c rhs type) : Works c (plainCandidates op lhs rhs type target) fun ds => ds ≠ [] := by
  have hequality : Works c (do
      let straight ← equality (op = .eq) lhs rhs type target
      if rhs.constant?.isNone then
        return [straight, ← equality (op = .eq) rhs lhs type target]
      else return [straight]) fun ds => ds ≠ [] := by
    refine (works_equality hscalar hl hr).next fun d _ => ?_
    split
    · exact (works_equality hscalar hr hl).next fun _ _ => .pure (List.cons_ne_nil _ _)
    · exact .pure (List.cons_ne_nil _ _)
  cases op with
  | eq | ne => exact hequality
  | lt | ge => exact works_single (works_ordering hscalar hl hr)
  | gt | le => exact works_single (works_ordering hscalar hr hl)

/-- The constant of a comparison has a successor that the code takes, and the successor is out of
the configured range. -/
def Oversteps (c : Context) (op : CompareOp) (r : Int64) (type : ValueType) : Prop :=
  (op = .gt ∨ op = .le) ∧ wrap r type ≠ (typeBounds type).2 ∧ wrap r type ≠ 0 ∧
    ¬ InRange c (wrap r type + 1) type

instance (op : CompareOp) (r : Int64) (type : ValueType) : Decidable (Oversteps c op r type) := by
  unfold Oversteps; infer_instance

/-- **A comparison with a constant offers a sequence**, unless the code takes the successor of the
constant and this is out of range. -/
theorem works_constantCandidates {r : Int64} (hscalar : type.isScalar = true) (hl : AtHand c lhs type)
    (hr : InRange c r type) (h : ¬ Oversteps c op r type) :
    Works c (constantCandidates op lhs r type target) fun ds => ds ≠ [] := by
  refine (works_checkConstant hr).next fun _ _ => ?_
  simp only
  split
  · exact works_single (works_candidate (.pure trivial))
  · rename_i hnever
    split
    · exact works_single (works_candidate (works_modifyDraft _))
    · rename_i halways
      split
      · exact works_zeroCandidates hscalar hl
      · rename_i hzero
        have hrest : ∀ shifted, Works c (do
            return shifted ++ (← plainCandidates op lhs (.constant r) type target))
            fun ds => ds ≠ [] := fun shifted =>
          (works_plainCandidates hscalar hl (atHand_constant hr)).next fun ds hds =>
            .pure fun hnil => hds (List.append_eq_nil_iff.mp hnil).2
        -- The successor is taken for these two only.
        have hsuccessor : op = .gt ∨ op = .le → AtHand c (.constant (wrap r type + 1)) type := by
          intro hop
          refine atHand_constant (by_contra fun hout => h ⟨hop, fun hlast => ?_, hzero, hout⟩)
          rcases hop with rfl | rfl <;> simp [hlast] at hnever halways
        split
        · exact (works_ordering hscalar hl (hsuccessor (.inl rfl))).next fun _ _ =>
            Works.next (.pure trivial) fun shifted (_ : True) => hrest shifted
        · exact (works_ordering hscalar hl (hsuccessor (.inr rfl))).next fun _ _ =>
            Works.next (.pure trivial) fun shifted (_ : True) => hrest shifted
        · exact Works.next (.pure trivial) fun shifted (_ : True) => hrest shifted

/-- **The successor of a constant is held to the configured range**, though the program does not
have it. -/
theorem fails_constantCandidates {r : Int64} (hl : AtHand c lhs type) (hr : InRange c r type)
    (h : Oversteps c op r type) :
    Fails c (constantCandidates op lhs r type target) (outOfRange c (wrap r type + 1) type) := by
  obtain ⟨hop, hlast, hzero, hout⟩ := h
  refine (works_checkConstant hr).fails fun _ _ => ?_
  simp only
  rcases hop with rfl | rfl <;>
  · rw [if_neg (by simp [hlast]), if_neg (by simp [hlast]), if_neg hzero]
    exact (fails_ordering hl hout).next _

/-- The comparison that the code makes: the opposite one if the label for its success comes next. -/
def asked (op : CompareOp) (ifTrue ifFalse : LabelId) (next : Option Node) : CompareOp :=
  if next = some (.label ifFalse) then op else if next = some (.label ifTrue) then op.negated else op

variable {ifTrue ifFalse : LabelId} {next : Option Node} {r : Int64}

/-- The sequences of a branch are those of the comparison that the code makes, each perhaps with a
jump behind it. -/
theorem branchChoices_temp : ∃ (label : Context → String) (finish : Context → Draft → Draft),
    branchChoices op (.temp x) (.constant r) type ifTrue ifFalse next = (do
      let c ← read
      let ds ← constantCandidates (asked op ifTrue ifFalse next) (.temp x) r type (label c)
      return ds.map (finish c)) := by
  have hopen : branchChoices op (.temp x) (.constant r) type ifTrue ifFalse next = (do
      let c ← read
      let name := Naming.nodeLabel c.function.name
      if next = some (.label ifFalse) then constantCandidates op (.temp x) r type (name ifTrue)
      else if next = some (.label ifTrue) then
        constantCandidates op.negated (.temp x) r type (name ifFalse)
      else return (← constantCandidates op (.temp x) r type (name ifTrue)).map (·.jmp (name ifFalse))) :=
    rfl
  rw [hopen]
  unfold asked
  by_cases hfalse : next = some (.label ifFalse)
  · refine ⟨fun c => Naming.nodeLabel c.function.name ifTrue, fun _ => id, ?_⟩
    simp only [if_pos hfalse, List.map_id, bind_pure]
  · by_cases htrue : next = some (.label ifTrue)
    · refine ⟨fun c => Naming.nodeLabel c.function.name ifFalse, fun _ => id, ?_⟩
      simp only [if_neg hfalse, if_pos htrue, List.map_id, bind_pure]
    · refine ⟨fun c => Naming.nodeLabel c.function.name ifTrue,
        fun c d => d.jmp (Naming.nodeLabel c.function.name ifFalse), ?_⟩
      simp only [if_neg hfalse, if_neg htrue]

theorem works_branchChoices (hscalar : type.isScalar = true) (hx : Whole c x type)
    (hr : InRange c r type) (h : ¬ Oversteps c (asked op ifTrue ifFalse next) r type) :
    Works c (branchChoices op (.temp x) (.constant r) type ifTrue ifFalse next) fun ds => ds ≠ [] := by
  obtain ⟨label, finish, heq⟩ := branchChoices_temp
  rw [heq]
  refine works_read.next ?_
  rintro _ rfl
  refine (works_constantCandidates hscalar (atHand_temp hx) hr h).next fun ds hds => .pure ?_
  exact fun hnil => hds (List.map_eq_nil_iff.mp hnil)

theorem fails_branchChoices (hx : Whole c x type) (hr : InRange c r type)
    (h : Oversteps c (asked op ifTrue ifFalse next) r type) :
    Fails c (branchChoices op (.temp x) (.constant r) type ifTrue ifFalse next)
      (outOfRange c (wrap r type + 1) type) := by
  obtain ⟨label, finish, heq⟩ := branchChoices_temp
  rw [heq]
  refine works_read.fails ?_
  rintro _ rfl
  exact (fails_constantCandidates (atHand_temp hx) hr h).next _

end Comparisons

/-! ### Nodes -/

section Nodes

variable {x result : Temp} {type : ValueType} {r : Int64} {next : Option Node}

/-- **A byte-wise operation on a temporary and a constant works.** -/
theorem works_operation {op : BinaryOp} (hop : isByteWise op = true) (hscalar : type.isScalar = true)
    (hx : Whole c x type) (hresult : Whole c result type) (hr : InRange c r type) :
    Works c (lowerNode (.binary result op (.temp x) (.constant r) type) next) (· = false) := by
  have hunit : ∀ dest, isUnitStep op (.temp x) (.constant r) (.memory dest) = false := fun dest => by
    cases op <;> simp [isUnitStep]
  change Works c (lowerBinary (.binary result op (.temp x) (.constant r) type) result op (.temp x)
    (.constant r) type next) _
  rw [lowerBinary_eq _ hop]
  refine (works_checkScalar hscalar _).next fun _ _ => ?_
  refine (works_byteWiseChoices hop hscalar (atHand_temp hx) (atHand_constant hr) hresult hunit next).next
    fun choice hchoice => ?_
  exact (works_commitCheapest hchoice.1).next fun _ _ => .pure hchoice.2

/-- **A shift of a temporary by a constant works**, if the count is not negative. -/
theorem works_shift {op : BinaryOp} (hop : op = .shl ∨ op = .shr) (hscalar : type.isScalar = true)
    (hx : Whole c x type) (hresult : Whole c result type) (hr : 0 ≤ r) :
    Works c (lowerNode (.binary result op (.temp x) (.constant r) type) next) (· = false) := by
  have hlower : Works c (do
      lowerShift (.binary result op (.temp x) (.constant r) type) result op (.temp x) (.constant r) type
      return false) (· = false) := by
    rw [lowerShift_eq]
    refine Works.next (Q := fun _ => True) ?_ fun _ _ => .pure rfl
    exact (works_shiftChoices hscalar (atHand_temp hx) hresult hr).next fun ds hds =>
      works_commitCheapest hds
  refine (works_checkScalar hscalar _).next fun _ _ => ?_
  obtain rfl | rfl := hop <;> exact hlower

/-- **A branch on a temporary and a constant works**, unless the code takes the successor of the
constant and this is out of range. -/
theorem works_branch {op : CompareOp} {ifTrue ifFalse : LabelId} (hscalar : type.isScalar = true)
    (hx : Whole c x type) (hr : InRange c r type)
    (h : ¬ Oversteps c (asked op ifTrue ifFalse next) r type) :
    Works c (lowerNode (.branch op (.temp x) (.constant r) type ifTrue ifFalse) next) (· = false) := by
  refine Works.next (Q := fun _ => True) ?_ fun _ _ => .pure rfl
  rw [lowerBranch_eq]
  refine (works_checkScalar hscalar _).next fun _ _ => ?_
  exact (works_branchChoices hscalar hx hr h).next fun ds hds => works_commitCheapest hds

/-- **If it is out of range, its error is that of the branch.** -/
theorem fails_branch {op : CompareOp} {ifTrue ifFalse : LabelId} (hscalar : type.isScalar = true)
    (hx : Whole c x type) (hr : InRange c r type)
    (h : Oversteps c (asked op ifTrue ifFalse next) r type) :
    Fails c (lowerNode (.branch op (.temp x) (.constant r) type ifTrue ifFalse) next)
      (outOfRange c (wrap r type + 1) type) := by
  refine Fails.next ?_ _
  rw [lowerBranch_eq]
  exact (works_checkScalar hscalar _).fails fun _ _ => (fails_branchChoices hx hr h).next _

end Nodes

end Codegen6502.Proofs.Selecting.Success
