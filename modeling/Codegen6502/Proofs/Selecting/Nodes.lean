import Codegen6502.Proofs.Selecting.Moves
import Codegen6502.Proofs.Selecting.Shapes

/-!
# The shape of each node

What lowering a node appends is a walk between two points at which nothing has been pushed.  One
lemma for each form of code; `Bodies.forms_lowerNode` puts them together.
-/

namespace Codegen6502.Proofs.Selecting.Nodes

open Selection Places Growth Shapes
open Moves (checkScalar_ok)

variable {c : Context} {r : Rules}

/-- All bytes of a list are among those of the program. -/
def SitedAll (reach : UInt8 → Prop) (locs : List ByteLoc) : Prop := ∀ loc ∈ locs, Sited reach loc

theorem SitedAll.head {reach : UInt8 → Prop} {loc : ByteLoc} {locs : List ByteLoc}
    (h : SitedAll reach (loc :: locs)) : Sited reach loc := h loc (List.mem_cons_self ..)

theorem SitedAll.tail {reach : UInt8 → Prop} {loc : ByteLoc} {locs : List ByteLoc}
    (h : SitedAll reach (loc :: locs)) : SitedAll reach locs := fun l hl =>
  h l (List.mem_cons_of_mem _ hl)

/-! ### Byte-wise operations -/

section ByteWise

variable {reach : UInt8 → Prop}

theorem lays_computeBytes {opcode : Opcode} (hop : isPlain opcode = true)
    (haccess : isAccess opcode = true) :
    ∀ dsts ls rs : List ByteLoc, SitedAll reach dsts → SitedAll reach ls → SitedAll reach rs →
      Lays c (Growth.Plain reach) (computeBytes opcode dsts ls rs) fun _ => True
  | dst :: dsts, l :: ls, r :: rs, hdsts, hls, hrs => by
    unfold computeBytes
    refine (lays_loadA hls.head).plain.next fun _ _ => ?_
    refine (lays_compute hop hrs.head haccess).next fun _ _ => ?_
    refine (lays_storeA hdsts.head).plain.next fun _ _ => ?_
    exact lays_computeBytes hop haccess dsts ls rs hdsts.tail hls.tail hrs.tail
  | [], _, _, _, _, _ => by unfold computeBytes; exact .pure trivial each_nil
  | _ :: _, [], _, _, _, _ => by unfold computeBytes; exact .pure trivial each_nil
  | _ :: _, _ :: _, [], _, _, _ => by unfold computeBytes; exact .pure trivial each_nil

/-- The left bytes, copied out if one is read through a pointer that is overwritten. -/
def setApart (dst bytes : List ByteLoc) : Lower (List ByteLoc) :=
  if bytes.any (readsThrough dst) then bytes.mapM materialize else pure bytes

/-- The instruction of a byte-wise operation, after the carry has been set for it. -/
def startChain (op : BinaryOp) : Lower Opcode :=
  match op with
  | .add => do
    bare .clc
    pure .adc
  | .sub => do
    bare .sec
    pure .sbc
  | .and => pure .and
  | .or => pure .ora
  | .xor => pure .eor
  | _ => invalid (op.text ++ " is not a byte-wise operation")

theorem byteWise_eq (op : BinaryOp) (lhs rhs : Value) (type : ValueType) (result : Temp) :
    byteWise op lhs rhs type result = (do
      let dst ← destination result
      let lb ← valueBytes lhs type
      let rb ← operandBytes rhs type
      let lb ← setApart dst lb
      let opcode ← startChain op
      computeBytes opcode dst lb rb) := by
  unfold byteWise
  refine congrArg _ (funext fun dst => congrArg _ (funext fun lb => congrArg _ (funext fun rb => ?_)))
  unfold setApart
  cases op <;> simp only <;> split <;> rfl

theorem lays_byteWise {op : BinaryOp} {lhs rhs : Value} {type : ValueType} {result : Temp}
    (hl : ReachesValue reach lhs type.size.toNat) (hr : ReachesValue reach rhs type.size.toNat) :
    Lays c (Growth.Plain reach) (byteWise op lhs rhs type result) fun _ => True := by
  rw [byteWise_eq]
  refine (lays_destination reach result).next fun dst hdst => ?_
  refine (lays_valueBytes hl).next fun lb hlb => (lays_operandBytes hr).next fun rb hrb => ?_
  have hapart : Lays c (Growth.Plain reach) (setApart dst lb) (SitedAll reach) := by
    unfold setApart
    split
    · exact .mapM fun loc hloc => (lays_materialize (hlb loc hloc)).plain
    · exact .pure hlb each_nil
  have hstart : Lays c (Growth.Plain reach) (startChain op) fun opcode =>
      isPlain opcode = true ∧ isAccess opcode = true := by
    cases op with
    | add | sub => exact (lays_bare (by rfl)).next fun _ _ => .pure ⟨rfl, rfl⟩ each_nil
    | and | or | xor => exact .pure ⟨rfl, rfl⟩ each_nil
    | _ => exact lays_invalid _
  exact hapart.next fun lb hlb => hstart.next fun opcode hop =>
    lays_computeBytes hop.1 hop.2 dst lb rb hdst hlb hrb

theorem lays_storeInto {node : Node} {value : Value} {dest : Place} {type : ValueType}
    (hvalue : type.isScalar = true → ReachesValue reach value type.size.toNat)
    (hdest : type.isScalar = true → Reaches reach dest type.size.toNat) :
    Lays c (Growth.Plain reach) (storeInto node value dest type) fun _ => True := by
  refine Lowers.next (Q := fun _ => type.isScalar = true)
    (.still (fun st u st' hok => (checkScalar_ok hok).symm) each_nil) fun _ htype => ?_
  exact (lays_valueBytes (hvalue htype)).next fun src hsrc =>
    (lays_placeBytes (hdest htype)).next fun dst hdst => (lays_copyBytes src dst hsrc hdst).plain

end ByteWise

/-! ### Steps by one -/

theorem quiet_tempInfo (x : Temp) : Quiet c (tempInfo x) fun _ => True :=
  quiet_still fun _ _ _ hok => ⟨(tempInfo_ok hok).1, trivial⟩

theorem quiet_destination (reach : UInt8 → Prop) (x : Temp) :
    Quiet c (destination x) (SitedAll reach) := Lowers.quiet (lays_destination reach x)

theorem quiet_checkScalar (type : ValueType) (node : Node) :
    Quiet c (checkScalar type node) fun _ => type.isScalar = true :=
  quiet_still fun _ _ _ hok => ⟨(checkScalar_ok hok).2, (checkScalar_ok hok).1⟩

theorem quiet_checkConstant (value : Int64) (type : ValueType) :
    Quiet c (checkConstant value type) fun _ => True :=
  quiet_still fun _ _ _ hok => ⟨(checkConstant_ok hok).1, trivial⟩

/-- The operand of a byte that is not behind a pointer. -/
theorem lays_directOperand {p : Entry → Prop} {reach : UInt8 → Prop} {loc : ByteLoc}
    (h : Sited reach loc) : Lays c p (directOperand loc) (Within reach) := by
  cases loc with
  | direct operand => exact .pure h each_nil
  | indirect pointer offset => exact lays_internal _

/-- **A step by one in place.** -/
theorem forms_stepBytes {up : Bool} {bytes : List ByteLoc} (hinner : InnerFree r c)
    (h : SitedAll r.reach bytes) : Forms c r idle idle (stepBytes up bytes) fun _ => True := by
  have hoperands : Quiet c (bytes.mapM directOperand) fun os => ∀ o ∈ os, Within r.reach o :=
    Lowers.quiet (.mapM fun loc hloc => lays_directOperand (h loc hloc))
  refine hoperands.next fun operands hwithin => ?_
  split
  · refine forms_plain (lays_op ?_ (hwithin _ (by simp)) ?_) <;> split <;> rfl
  · rename_i lo hi
    have hlo : Within r.reach lo := hwithin _ (by simp)
    have hhi : Within r.reach hi := hwithin _ (by simp)
    refine Forms.skipping hinner fun skip hskip => ?_
    split
    · refine (walks_op hlo (by rfl) (by rfl)).before fun _ _ => ?_
      refine (walks_branch (Or.inr rfl) hskip.free (by rfl)).before fun _ _ => ?_
      exact (walks_op hhi (by rfl) (by rfl)).before fun _ _ => lowers_label hskip
    · refine (walks_op hlo (by rfl) (by rfl)).before fun _ _ => ?_
      refine (walks_branch (Or.inr rfl) hskip.free (by rfl)).before fun _ _ => ?_
      refine (walks_op hhi (by rfl) (by rfl)).before fun _ _ => ?_
      exact Walks.behind (lowers_label hskip) fun _ _ => walks_op hlo (by rfl) (by rfl)
  · exact lays_internal _

/-- Candidates that start and end between nodes. -/
def Fit (r : Rules) (p q : Point) (ds : List Draft) : Prop := ∀ d ∈ ds, Holds (Shaped r p q) d

theorem fit_nil {p q : Point} : Fit r p q [] := fun _ h => (List.not_mem_nil h).elim

theorem Fit.cons {p q : Point} {d : Draft} {ds : List Draft} (h : Holds (Shaped r p q) d)
    (h' : Fit r p q ds) : Fit r p q (d :: ds) := fun d' hd' =>
  (List.mem_cons.mp hd').elim (fun heq => heq ▸ h) (h' d')

theorem Fit.append {p q : Point} {ds ds' : List Draft} (h : Fit r p q ds) (h' : Fit r p q ds') :
    Fit r p q (ds ++ ds') := fun d hd => (List.mem_append.mp hd).elim (h d) (h' d)

section Candidates

variable {result : Temp} {op : BinaryOp} {lhs rhs : Value} {type : ValueType}

theorem quiet_byteWise (hl : ReachesValue r.reach lhs type.size.toNat)
    (hr : ReachesValue r.reach rhs type.size.toNat) :
    Quiet c (candidate (byteWise op lhs rhs type result)) (Holds (Shaped r idle idle)) :=
  quiet_candidate (forms_plain (lays_byteWise hl hr))

theorem quiet_stepInPlace (hinner : InnerFree r c) :
    Quiet c (stepInPlace result op lhs rhs type) (Fit r idle idle) := by
  unfold stepInPlace
  split
  · exact quiet_pure fit_nil
  · refine (quiet_tempInfo result).next fun info _ => ?_
    split
    · exact quiet_pure fit_nil
    · refine (quiet_candidate ((quiet_destination r.reach result).next fun dst hdst =>
        forms_stepBytes hinner hdst)).next fun d hd => quiet_pure (fit_nil.cons hd)

/-- What is stepped in place is an operand. -/
theorem isUnitStep_cases {target : Value} (h : isUnitStep op lhs rhs target = true) :
    lhs = target ∨ rhs = target := by
  unfold isUnitStep at h
  split at h <;> grind

theorem quiet_fusedStep {stored : Temp} {dest : Place} {storeType : ValueType}
    (hinner : InnerFree r c) (hl : ReachesValue r.reach lhs type.size.toNat)
    (hr : ReachesValue r.reach rhs type.size.toNat) :
    Quiet c (fusedStep result op lhs rhs type stored dest storeType) fun d? =>
      ∀ d, d? = some d → Holds (Shaped r idle idle) d ∧ Reaches r.reach dest type.size.toNat := by
  unfold fusedStep
  refine quiet_read.next fun _ _ => ?_
  split
  · exact quiet_pure fun d hd => by cases hd
  · split
    · exact quiet_pure fun d hd => by cases hd
    · rename_i hunit
      have hdest : Reaches r.reach dest type.size.toNat := by
        rcases isUnitStep_cases (by simpa using hunit) with h | h
        · exact hl dest h
        · exact hr dest h
      refine (Lowers.quiet (lays_placeBytes hdest)).next fun bytes hbytes => ?_
      split
      · exact quiet_pure fun d hd => by cases hd
      · refine (quiet_candidate (forms_stepBytes hinner hbytes)).next fun d hd => quiet_pure ?_
        rintro d' hd'
        obtain rfl := Option.some.inj hd'
        exact ⟨hd, hdest⟩

theorem quiet_byteWiseCandidates {generic : Draft} (hinner : InnerFree r c)
    (hgeneric : Holds (Shaped r idle idle) generic)
    (hl : ReachesValue r.reach lhs type.size.toNat)
    (hr : ReachesValue r.reach rhs type.size.toNat) :
    Quiet c (byteWiseCandidates generic result op lhs rhs type) (Fit r idle idle) := by
  unfold byteWiseCandidates
  have hrest : ∀ swapped, Fit r idle idle swapped → Quiet c (do
      let stepped ← stepInPlace result op lhs rhs type
      return generic :: (swapped ++ stepped)) (Fit r idle idle) := fun swapped hswapped =>
    (quiet_stepInPlace hinner).next fun stepped hstepped =>
      quiet_pure ((hswapped.append hstepped).cons hgeneric)
  split
  · exact (quiet_byteWise hr hl).next fun d hd => (quiet_pure (fit_nil.cons hd)).next hrest
  · exact (quiet_pure fit_nil).next hrest

/-- Going on with a candidate. -/
theorem quiet_continueCandidate {d : Draft} {build : Lower Unit}
    (hd : Holds (Shaped r idle idle) d) (h : Lays c (Growth.Plain r.reach) build fun _ => True) :
    Quiet c (lowerByteWise.continueCandidate d build) (Holds (Shaped r idle idle)) := by
  intro st d' st' hok htracks
  obtain ⟨old, st₁, hget, h1⟩ := bind_ok.mp hok
  cases hget
  obtain ⟨u₁, st₂, hset, h2⟩ := bind_ok.mp h1
  cases hset
  obtain ⟨u₂, st₃, hbuild, h3⟩ := bind_ok.mp h2
  obtain ⟨new, st₄, hget', h4⟩ := bind_ok.mp h3
  cases hget'
  obtain ⟨u₃, st₅, hset', h5⟩ := bind_ok.mp h4
  cases hset'
  obtain ⟨rfl, rfl⟩ := pure_ok.mp h5
  obtain ⟨⟨es, hes, hplain⟩, -⟩ := h _ _ _ hbuild hd.1
  exact ⟨⟨[], ⟨by simp, by simp [callsFrom], hes.label.ge, id⟩, rfl⟩,
    hd.plain (Nat.zero_le _) ⟨es, hes.draft, hplain⟩⟩

/-- Only a store is taken along. -/
def TakesStore (next : Option Node) (taken : Bool) : Prop :=
  taken = true → ∃ value dest type, next = some (.store value dest type)

theorem forms_lowerByteWise {next : Option Node} (hinner : InnerFree r c)
    (hl : ReachesValue r.reach lhs type.size.toNat)
    (hr : ReachesValue r.reach rhs type.size.toNat) :
    Forms c r idle idle (lowerByteWise result op lhs rhs type next) (TakesStore next) := by
  refine (quiet_byteWise hl hr).next fun generic hgeneric => ?_
  have halone : Forms c r idle idle (do
      commitCheapest (← byteWiseCandidates generic result op lhs rhs type)
      return false) (TakesStore next) := by
    refine (quiet_byteWiseCandidates hinner hgeneric hl hr).next fun ds hds => ?_
    exact Forms.next (lowers_commitCheapest hds) fun _ _ => .pure (fun h => by cases h) (.nil _)
  split
  · rename_i stored dest storeType
    refine (quiet_fusedStep hinner hl hr).next fun d? hd? => ?_
    split
    · rename_i step
      obtain ⟨hstep, hdest⟩ := hd? step rfl
      have hstore : Lays c (Growth.Plain r.reach)
          (storeInto (.store (.temp stored) dest storeType) (.temp result) dest type)
          fun _ => True := lays_storeInto (fun _ place hplace => by cases hplace) fun _ => hdest
      refine (quiet_continueCandidate hgeneric hstore).next fun d hd => ?_
      refine Forms.next (lowers_commitCheapest ((fit_nil.cons hstep).cons hd)) fun _ _ => ?_
      exact .pure (fun _ => ⟨_, _, _, rfl⟩) (.nil _)
    · exact halone
  · exact halone

end Candidates

/-! ### Moves, shifts and folded operations -/

section Shifts

variable {reach : UInt8 → Prop} {left arithmetic : Bool} {type : ValueType} {lhs rhs : Value}
  {result : Temp}

theorem forms_lowerCopy {node : Node} {value : Value}
    (h : type.isScalar = true → ReachesValue r.reach value type.size.toNat) :
    Forms c r idle idle (lowerCopy node result value type) fun _ => True := by
  refine (quiet_checkScalar type node).next fun _ htype => ?_
  split
  · refine lowers_commitOnly (forms_plain ?_)
    exact (lays_valueBytes (h htype)).next fun src hsrc => (lays_destination r.reach result).next
      fun dst hdst => (lays_copyBytes src dst hsrc hdst).plain
  · exact .pure trivial (.nil _)

theorem forms_lowerStore {node : Node} {value : Value} {dest : Place}
    (hvalue : type.isScalar = true → ReachesValue r.reach value type.size.toNat)
    (hdest : type.isScalar = true → Reaches r.reach dest type.size.toNat) :
    Forms c r idle idle (lowerStore node value dest type) fun _ => True :=
  lowers_commitOnly (forms_plain (lays_storeInto hvalue hdest))

theorem lays_shiftA : Lays c (Growth.Plain reach) (shiftA left arithmetic) fun _ => True := by
  unfold shiftA
  split
  · exact (lays_op (by rfl) (by trivial) (by rfl)).next fun _ _ => lays_bare (by rfl)
  · exact lays_bare (by split <;> rfl)

theorem lays_shiftPair {lo hi : Operand} (hlo : Within reach lo) (hhi : Within reach hi) :
    Lays c (Growth.Plain reach) (shiftPair left arithmetic lo hi) fun _ => True := by
  unfold shiftPair
  split
  · exact (lays_op rfl hlo rfl).next fun _ _ => lays_op rfl hhi rfl
  · split
    · refine (lays_op rfl hhi rfl).next fun _ _ => ?_
      refine (lays_op (by rfl) (by trivial) (by rfl)).next fun _ _ => ?_
      refine (lays_bare (by rfl)).next fun _ _ => ?_
      exact (lays_op rfl hhi rfl).next fun _ _ => lays_op rfl hlo rfl
    · exact (lays_op rfl hhi rfl).next fun _ _ => lays_op rfl hlo rfl

theorem quiet_shiftInA {k : ℕ} {dst : ByteLoc}
    (hl : ReachesValue r.reach lhs type.size.toNat) (hdst : Sited r.reach dst) :
    Quiet c (candidate do
      match ← valueBytes lhs type with
      | src :: _ =>
        loadA src
        times k (shiftA left arithmetic)
        storeA dst
      | [] => internal "value without bytes") (Holds (Shaped r idle idle)) := by
  refine quiet_candidate (forms_plain ((lays_valueBytes hl).next fun bytes hbytes => ?_))
  split
  · exact (lays_loadA (hbytes _ (List.mem_cons_self ..))).plain.next fun _ _ =>
      (Lowers.times k lays_shiftA).next fun _ _ => (lays_storeA hdst).plain
  · exact lays_internal _

theorem quiet_shiftInPlace {k : ℕ} {dst : ByteLoc} (hdst : Sited r.reach dst) :
    Quiet c (candidate do
      match dst with
      | .direct byte => times k (op (if left then .asl else .lsr) byte)
      | .indirect .. => pure ()) (Holds (Shaped r idle idle)) := by
  refine quiet_candidate (forms_plain ?_)
  split
  · exact Lowers.times k (lays_op (by split <;> rfl) hdst (by split <;> rfl))
  · exact .pure trivial each_nil

theorem quiet_shiftByte {k : ℕ} {dst : ByteLoc}
    (hl : ReachesValue r.reach lhs type.size.toNat) (hdst : Sited r.reach dst) :
    Quiet c (shiftByte result lhs type left arithmetic k dst) (Fit r idle idle) := by
  refine (quiet_shiftInA hl hdst).next fun d hd => ?_
  split
  · exact (quiet_shiftInPlace hdst).next fun d' hd' => quiet_pure ((fit_nil.cons hd').cons hd)
  · exact quiet_pure (fit_nil.cons hd)

theorem quiet_shiftWord {k : ℕ} {dstLo dstHi : ByteLoc}
    (hl : ReachesValue r.reach lhs type.size.toNat) (hlo : Sited r.reach dstLo)
    (hhi : Sited r.reach dstHi) :
    Quiet c (shiftWord lhs type left arithmetic k dstLo dstHi) (Holds (Shaped r idle idle)) := by
  refine quiet_candidate (forms_plain ((lays_valueBytes hl).next fun bytes hbytes => ?_))
  split
  · rename_i lo hi
    have hsrc : SitedAll r.reach [lo, hi] := hbytes
    split
    · refine (lays_loadA (?_ : Sited _ (if left then lo else hi))).plain.next fun _ _ => ?_
      · split
        · exact hsrc.head
        · exact hsrc.tail.head
      refine (Lowers.times (k - 8) lays_shiftA).next fun _ _ => ?_
      refine (lays_storeA (?_ : Sited _ (if left then dstHi else dstLo))).plain.next fun _ _ => ?_
      · split <;> assumption
      refine (lays_loadA (show Sited r.reach (.byte 0) from trivial)).plain.next fun _ _ => ?_
      refine (lays_storeA (?_ : Sited _ (if left then dstLo else dstHi))).plain
      split <;> assumption
    · have hdst : SitedAll r.reach [dstLo, dstHi] := by
        intro loc hloc
        rcases List.mem_pair.mp hloc with rfl | rfl <;> assumption
      refine (lays_copyBytes _ _ hsrc hdst).plain.next fun _ _ => ?_
      split
      · exact Lowers.times k (lays_shiftPair hlo hhi)
      · exact lays_internal _
  · exact lays_internal _

theorem forms_shiftBy {op : BinaryOp} (hl : ReachesValue r.reach lhs type.size.toNat)
    (count : Int64) :
    Forms c r idle idle (do
      let dst ← destination result
      if count ≥ Int64.ofNat (bitsOf type) then
        commitOnly (copyBytes (dst.map fun _ => .byte 0) dst)
      else
        let k := count.toInt.toNat
        let left := op = .shl
        match dst with
        | [byte] =>
          commitCheapest (← shiftByte result lhs type left (op = .shr && type.isSigned) k byte)
        | [lo, hi] =>
          commitCheapest [← shiftWord lhs type left (op = .shr && type.isSigned) k lo hi]
        | _ => internal "shift of unexpected width") fun _ => True := by
  refine (quiet_destination r.reach result).next fun dst hdst => ?_
  split
  · refine lowers_commitOnly (forms_plain (lays_copyBytes _ _ (fun loc hloc => ?_) hdst).plain)
    obtain ⟨v, -, rfl⟩ := List.mem_map.mp hloc
    trivial
  · simp only
    split
    · exact (quiet_shiftByte hl hdst.head).next fun ds hds => lowers_commitCheapest hds
    · exact (quiet_shiftWord hl hdst.head hdst.tail.head).next fun d hd =>
        lowers_commitCheapest (fit_nil.cons hd)
    · exact lays_internal _

theorem forms_lowerShift {node : Node} {op : BinaryOp}
    (hl : ReachesValue r.reach lhs type.size.toNat) :
    Forms c r idle idle (lowerShift node result op lhs rhs type) fun _ => True := by
  unfold lowerShift
  split
  · simp only
    split
    · exact Forms.next (q := idle) (Q := fun _ => False) (lays_invalid _) fun _ h => h.elim
    · exact forms_shiftBy hl _
  · exact lays_unsupported node

theorem forms_lowerBinary {node : Node} {op : BinaryOp} {next : Option Node}
    (hinner : InnerFree r c)
    (hl : type.isScalar = true → ReachesValue r.reach lhs type.size.toNat)
    (hr : type.isScalar = true → ReachesValue r.reach rhs type.size.toNat) :
    Forms c r idle idle (lowerBinary node result op lhs rhs type next) (TakesStore next) := by
  have hfalse : TakesStore next false := fun h => by cases h
  refine (quiet_checkScalar type node).next fun _ htype => ?_
  replace hl := hl htype
  replace hr := hr htype
  split
  · refine (quiet_checkConstant _ type).next fun _ _ => (quiet_checkConstant _ type).next fun _ _ => ?_
    split
    · refine (quiet_destination r.reach result).next fun dst hdst => ?_
      refine Forms.next (lowers_commitOnly (forms_plain (lays_copyBytes _ _ (fun loc hloc => ?_)
        hdst).plain)) fun _ _ => .pure hfalse (.nil _)
      obtain ⟨i, -, rfl⟩ := List.mem_map.mp hloc
      trivial
    · exact lays_invalid _
  · split
    · exact lays_unsupported node
    · exact lays_unsupported node
    · exact lays_unsupported node
    · exact Forms.next (forms_lowerShift hl) fun _ _ => .pure hfalse (.nil _)
    · exact Forms.next (forms_lowerShift hl) fun _ _ => .pure hfalse (.nil _)
    all_goals exact forms_lowerByteWise hinner hl hr

end Shifts

/-! ### Bit-fields -/

section Fields

variable {field : BitField} {node : Node}

theorem quiet_checkField : Quiet c (checkField node field) fun _ => True := by
  unfold checkField
  split
  · exact lays_invalid _
  · exact quiet_pure trivial

/-- The byte of a bit-field. -/
def ReachesField (reach : UInt8 → Prop) (place : Place) (field : BitField) : Prop :=
  ∀ offset, place.displaced field.byteOffset = .frameByte offset → reach offset

theorem forms_lowerLoadField {result : Temp} {src : Place} (h : ReachesField r.reach src field) :
    Forms c r idle idle (lowerLoadField node result src field) fun _ => True := by
  refine quiet_checkField.next fun _ _ => lowers_commitOnly (forms_plain ?_)
  refine (lays_placeLoc h).next fun byte hbyte => ?_
  refine (lays_destination r.reach result).next fun dst hdst => ?_
  split
  · rename_i first rest
    have hstore : Lays c (Growth.Plain r.reach) (storeA first) fun _ => True :=
      (lays_storeA (hdst _ (List.mem_cons_self ..))).plain
    refine (lays_loadA hbyte).plain.next fun _ _ => ?_
    refine (Lowers.times _ (lays_bare (by rfl))).next fun _ _ => ?_
    simp only
    split
    · exact (lays_op (by rfl) (by trivial) (by rfl)).next fun _ _ => hstore
    · exact hstore
  · exact lays_internal _

theorem forms_lowerStoreField {value : Value} {dest : Place}
    (hvalue : ReachesValue r.reach value 1) (hdest : ReachesField r.reach dest field) :
    Forms c r idle idle (lowerStoreField node value dest field) fun _ => True := by
  refine quiet_checkField.next fun _ _ => lowers_commitOnly (forms_plain ?_)
  refine (lays_placeLoc hdest).next fun byte hbyte => ?_
  have hstore : Lays c (Growth.Plain r.reach) (storeA byte) fun _ => True := (lays_storeA hbyte).plain
  simp only
  split
  · refine Lowers.next (Q := fun _ => True) (.still (fun st u st' hok => ?_) each_nil) fun _ _ => ?_
    · exact ⟨(checkConstant_ok hok).1, trivial⟩
    refine (lays_loadA hbyte).plain.next fun _ _ => ?_
    refine (lays_op (by rfl) (by trivial) (by rfl)).next fun _ _ => ?_
    split
    · exact (lays_op (by rfl) (by trivial) (by rfl)).next fun _ _ => hstore
    · exact hstore
  · have hreaches : ReachesValue _ _ ValueType.u8.size.toNat := hvalue
    refine (lays_operandBytes hreaches).next fun bytes hbytes => ?_
    split
    · refine lays_newVReg.next fun shifted _ => ?_
      refine (lays_loadA (hbytes _ (List.mem_cons_self ..))).plain.next fun _ _ => ?_
      refine (Lowers.times _ (lays_bare (by rfl))).next fun _ _ => ?_
      refine (lays_op (by rfl) (by trivial) (by rfl)).next fun _ _ => ?_
      refine (lays_storeA (sited_vreg shifted)).plain.next fun _ _ => ?_
      refine (lays_loadA hbyte).plain.next fun _ _ => ?_
      refine (lays_op (by rfl) (by trivial) (by rfl)).next fun _ _ => ?_
      exact (lays_op (by rfl) (by trivial) (by rfl)).next fun _ _ => hstore
    · exact lays_internal _

end Fields

/-! ### Branches -/

/-- A label that control may go to from between nodes. -/
structure IsTarget (r : Rules) (target : String) : Prop where
  known : r.names target
  free : r.xAt target = false

section Branches

variable {lhs rhs value : Value} {type : ValueType} {target : String} {known : String → Prop}

/-- Code that goes to a target. -/
theorem IsTarget.walks (h : IsTarget r target) {opcode : Opcode}
    (hknown : ∀ l, r.names l → known l) (hop : opcode.isBranch = true) :
    Walks c r known idle idle (branch opcode target) fun _ => True :=
  walks_branch (hknown _ h.known) h.free hop

theorem IsTarget.forms (h : IsTarget r target) {opcode : Opcode} (hop : opcode.isBranch = true) :
    Forms c r idle idle (branch opcode target) fun _ => True :=
  (h.walks (fun _ => id) hop).forms

theorem quiet_equality {equal : Bool} (hinner : InnerFree r c) (htarget : IsTarget r target)
    (hl : ReachesValue r.reach lhs type.size.toNat)
    (hr : ReachesValue r.reach rhs type.size.toNat) :
    Quiet c (equality equal lhs rhs type target) (Holds (Shaped r idle idle)) := by
  refine quiet_candidate (Forms.next (forms_plain (lays_valueBytes hl)) fun lb hlb => ?_)
  refine Forms.next (forms_plain (lays_operandBytes hr)) fun rb hrb => ?_
  split
  · refine Forms.next (forms_plain (lays_loadA (hlb _ (by simp))).plain) fun _ _ => ?_
    refine Forms.next (forms_plain (lays_compute rfl (hrb _ (by simp)) (by rfl))) fun _ _ => ?_
    exact htarget.forms (by split <;> rfl)
  · rename_i l0 l1 r0 r1
    have hl0 : Sited r.reach l0 := hlb _ (by simp)
    have hl1 : Sited r.reach l1 := hlb _ (by simp)
    have hr0 : Sited r.reach r0 := hrb _ (by simp)
    have hr1 : Sited r.reach r1 := hrb _ (by simp)
    split
    · refine Forms.skipping hinner fun skip hskip => ?_
      refine (walks_idle (lays_loadA hl0).plain).before fun _ _ => ?_
      refine (walks_idle (lays_compute rfl hr0 (by rfl))).before fun _ _ => ?_
      refine (walks_branch (Or.inr rfl) hskip.free (by rfl)).before fun _ _ => ?_
      refine (walks_idle (lays_loadA hl1).plain).before fun _ _ => ?_
      refine (walks_idle (lays_compute rfl hr1 (by rfl))).before fun _ _ => ?_
      exact (htarget.walks (fun _ => Or.inl) rfl).before fun _ _ => lowers_label hskip
    · refine Forms.next (forms_plain (lays_loadA hl0).plain) fun _ _ => ?_
      refine Forms.next (forms_plain (lays_compute rfl hr0 (by rfl))) fun _ _ => ?_
      refine Forms.next (htarget.forms rfl) fun _ _ => ?_
      refine Forms.next (forms_plain (lays_loadA hl1).plain) fun _ _ => ?_
      exact Forms.next (forms_plain (lays_compute rfl hr1 (by rfl))) fun _ _ => htarget.forms rfl
  · exact lays_internal _

/-- The subtraction of an ordering: the difference itself for signed types, its borrow for the
others. -/
def subtract (signed : Bool) : List ByteLoc → List ByteLoc → Lower Unit
  | [l], [r] => do
    loadA l
    if signed then do
      bare .sec
      compute .sbc r
    else compute .cmp r
  | [l0, l1], [r0, r1] => do
    loadA l0
    compute .cmp r0
    loadA l1
    compute .sbc r1
  | _, _ => internal "comparison of unexpected width"

/-- The branch of an ordering. -/
def decideOrder (signed less : Bool) (target : String) : Lower Unit :=
  if signed then do
    let ok ← newLabel
    branch .bvc ok
    op .eor (.byte 0x80)
    label ok
    branch (if less then .bmi else .bpl) target
  else branch (if less then .bcc else .bcs) target

theorem ordering_eq (less : Bool) (lhs rhs : Value) (type : ValueType) (target : String) :
    ordering less lhs rhs type target = candidate (do
      let lb ← valueBytes lhs type
      let rb ← operandBytes rhs type
      subtract type.isSigned lb rb
      decideOrder type.isSigned less target) := by
  unfold ordering
  refine congrArg _ (congrArg _ (funext fun lb => congrArg _ (funext fun rb => ?_)))
  cases type.isSigned <;> rcases lb with _ | ⟨l0, _ | ⟨l1, _ | ⟨l2, ls⟩⟩⟩ <;>
    rcases rb with _ | ⟨r0, _ | ⟨r1, _ | ⟨r2, rs⟩⟩⟩ <;> simp [subtract, decideOrder]

theorem lays_subtract {reach : UInt8 → Prop} {signed : Bool} {lb rb : List ByteLoc}
    (hl : SitedAll reach lb) (hr : SitedAll reach rb) :
    Lays c (Growth.Plain reach) (subtract signed lb rb) fun _ => True := by
  unfold subtract
  split
  · refine (lays_loadA hl.head).plain.next fun _ _ => ?_
    split
    · exact (lays_bare (by rfl)).next fun _ _ => lays_compute rfl hr.head (by rfl)
    · exact lays_compute rfl hr.head (by rfl)
  · exact (lays_loadA hl.head).plain.next fun _ _ => (lays_compute rfl hr.head (by rfl)).next fun _ _ =>
      (lays_loadA hl.tail.head).plain.next fun _ _ => lays_compute rfl hr.tail.head (by rfl)
  · exact lays_internal _

theorem forms_decideOrder {signed less : Bool} (hinner : InnerFree r c)
    (htarget : IsTarget r target) :
    Forms c r idle idle (decideOrder signed less target) fun _ => True := by
  unfold decideOrder
  split
  · refine Forms.skipping hinner fun ok hok => ?_
    refine (walks_branch (Or.inr rfl) hok.free (by rfl)).before fun _ _ => ?_
    have hbyte : Within r.reach (.byte 0x80) := trivial
    refine (walks_op hbyte (by rfl) (by rfl)).before fun _ _ => ?_
    exact Walks.behind (lowers_label hok) fun _ _ => htarget.walks (fun _ => Or.inl) (by split <;> rfl)
  · exact htarget.forms (by split <;> rfl)

theorem quiet_ordering {less : Bool} (hinner : InnerFree r c) (htarget : IsTarget r target)
    (hl : ReachesValue r.reach lhs type.size.toNat)
    (hr : ReachesValue r.reach rhs type.size.toNat) :
    Quiet c (ordering less lhs rhs type target) (Holds (Shaped r idle idle)) := by
  rw [ordering_eq]
  refine quiet_candidate (Forms.next (forms_plain (lays_valueBytes hl)) fun lb hlb => ?_)
  refine Forms.next (forms_plain (lays_operandBytes hr)) fun rb hrb => ?_
  exact Forms.next (forms_plain (lays_subtract hlb hrb)) fun _ _ =>
    forms_decideOrder hinner htarget

/-- A state set aside while something is built on a fork of its code. -/
theorem fork_ok {α β : Type} {m : Lower α} {f : α → Draft → Lower β} {b : β} {st st' : State}
    (h : (do
      let s ← get
      set { s with draft := s.draft.fork }
      let a ← m
      let b ← f a (← get).draft
      set { (← get) with draft := s.draft }
      return b : Lower β) c st = .ok (b, st')) :
    ∃ a st₁ st₂, m c { st with draft := st.draft.fork } = .ok (a, st₁) ∧
      f a st₁.draft c st₁ = .ok (b, st₂) ∧ st' = { st₂ with draft := st.draft } := by
  obtain ⟨old, st₃, hget, h1⟩ := bind_ok.mp h
  cases hget
  obtain ⟨u₁, st₄, hset, h2⟩ := bind_ok.mp h1
  cases hset
  obtain ⟨a, st₅, hm, h3⟩ := bind_ok.mp h2
  obtain ⟨new, st₆, hget', h4⟩ := bind_ok.mp h3
  cases hget'
  obtain ⟨b', st₇, hf, h5⟩ := bind_ok.mp h4
  obtain ⟨new', st₈, hget'', h6⟩ := bind_ok.mp h5
  cases hget''
  obtain ⟨u₂, st₉, hset', h7⟩ := bind_ok.mp h6
  cases hset'
  obtain ⟨rfl, rfl⟩ := pure_ok.mp h7
  exact ⟨a, st₅, st₇, hm, hf, rfl⟩

/-- The draft of a candidate that ends with a branch. -/
theorem Holds.branch {d d' : Draft} {opcode : Opcode} (h : Holds (Shaped r idle idle) d)
    (hgrown : GrownBy (Growth.Plain r.reach) d d') (htarget : IsTarget r target)
    (hop : opcode.isBranch = true) : Holds (Shaped r idle idle) (d'.branch opcode target) :=
  (h.plain (Nat.zero_le _) hgrown).push
    (.branch false hop htarget.known fun _ hx => by rw [htarget.free] at hx; cases hx)

theorem holds_combine {base d : Draft} {opcode : Opcode} {first second : ByteLoc}
    (hbase : Holds (Shaped r idle idle) base) (hfirst : Sited r.reach first)
    (hsecond : Sited r.reach second) (h : (base.fork.loadA first).compute .ora second = .ok d)
    (htarget : IsTarget r target) (hop : opcode.isBranch = true) :
    Holds (Shaped r idle idle) (base.commit (d.branch opcode target)) := by
  have hload : GrownBy (Growth.Plain r.reach) base.fork (base.fork.loadA first) :=
    (grown_loadA base.fork hfirst).imp fun _ => plain_of_moving
  obtain ⟨es, hes, hplain⟩ := hload.trans (grown_compute rfl rfl hsecond h)
  have hgrown := (hes.trans (.push d (.branch opcode target))).commit
  refine hbase.grown hgrown (Shaped.append (Walk.ofPlain (Nat.zero_le _) hplain).shaped
    (Walk.single (.branch false hop htarget.known fun _ hx => ?_)).shaped) fun _ _ => Shaped.append
  rw [htarget.free] at hx
  cases hx

theorem quiet_zeroTest {isZero : Bool} (htarget : IsTarget r target)
    (h : ReachesValue r.reach value type.size.toNat) :
    Quiet c (zeroTest isZero value type target) (Fit r idle idle) := by
  intro st ds st' hok htracks
  obtain ⟨bytes, st₁, st₂, hbytes, hbuild, rfl⟩ := fork_ok
    (f := fun bytes base => zeroTest.build target base (if isZero then .beq else .bne) bytes) hok
  obtain ⟨⟨es, hes, hplain⟩, hsited⟩ := lays_valueBytes (c := c) h _ _ _ hbytes htracks
  have hbase : Holds (Shaped r idle idle) st₁.draft :=
    holds_of_extends hes.toExtends htracks rfl rfl (Walk.ofPlain (Nat.zero_le _) hplain).shaped
  have hop : (if isZero = true then Opcode.beq else .bne).isBranch = true := by split <;> rfl
  suffices hdone : st₂ = st₁ ∧ Fit r idle idle ds by
    obtain ⟨rfl, hfit⟩ := hdone
    exact ⟨⟨[], ⟨by simp, by simp [callsFrom], hes.toExtends.label, id⟩, rfl⟩, hfit⟩
  unfold zeroTest.build at hbuild
  split at hbuild
  · rename_i byte
    obtain ⟨rfl, rfl⟩ := pure_ok.mp hbuild
    refine ⟨rfl, fit_nil.cons (Holds.branch hbase ?_ htarget hop)⟩
    exact (grown_test _ (hsited byte (by simp))).imp fun _ => plain_of_moving
  · rename_i lo hi
    have hcombine : ∀ first second d st st', Sited r.reach first → Sited r.reach second →
        zeroTest.combine target st₁.draft (if isZero then .beq else .bne) first second c st =
          .ok (d, st') → st' = st ∧ Holds (Shaped r idle idle) d := by
      intro first second d st st' hfirst hsecond hd
      obtain ⟨d₁, st₃, hlift, hpure⟩ := bind_ok.mp hd
      obtain ⟨hd₁, rfl⟩ := lift_ok hlift
      obtain ⟨rfl, rfl⟩ := pure_ok.mp hpure
      exact ⟨rfl, holds_combine hbase hfirst hsecond hd₁ htarget hop⟩
    have hlo : Sited r.reach lo := hsited lo (by simp)
    have hhi : Sited r.reach hi := hsited hi (by simp)
    obtain ⟨first, st₃, hfirst, hrest⟩ := bind_ok.mp hbuild
    obtain ⟨second, st₄, hsecond, hpure⟩ := bind_ok.mp hrest
    obtain ⟨rfl, rfl⟩ := pure_ok.mp hpure
    obtain ⟨rfl, hd⟩ := hcombine _ _ _ _ _ hlo hhi hfirst
    obtain ⟨rfl, hd'⟩ := hcombine _ _ _ _ _ hhi hlo hsecond
    exact ⟨rfl, (fit_nil.cons hd').cons hd⟩
  · cases hbuild

theorem quiet_signTest {negative : Bool} (htarget : IsTarget r target)
    (h : ReachesValue r.reach value type.size.toNat) :
    Quiet c (signTest negative value type target) (Holds (Shaped r idle idle)) := by
  refine quiet_candidate (Forms.next (forms_plain (lays_valueBytes h)) fun bytes hbytes => ?_)
  split
  · rename_i top htop
    have hsited : Sited r.reach top := hbytes top (List.mem_of_getLast? htop)
    exact Forms.next (forms_plain (lays_test hsited).plain) fun _ _ =>
      htarget.forms (by split <;> rfl)
  · exact lays_internal _

/-- Makes Z tell whether a word is zero; for a byte it does already. -/
def orHalves : List ByteLoc → Lower Unit
  | [lo, hi] => do
    loadA lo
    compute .ora hi
  | _ => pure ()

theorem positiveTest_eq (positive : Bool) (value : Value) (type : ValueType) (target : String) :
    positiveTest positive value type target = candidate (do
      let bytes ← valueBytes value type
      match bytes.getLast? with
      | some top =>
        test top
        let skip ← newLabel
        branch .bmi (if positive then skip else target)
        orHalves bytes
        branch (if positive then .bne else .beq) target
        if positive then label skip
      | none => internal "value without bytes") := by
  unfold positiveTest
  refine congrArg _ (congrArg _ (funext fun bytes => ?_))
  rcases bytes with _ | ⟨l0, _ | ⟨l1, _ | ⟨l2, ls⟩⟩⟩
  · rfl
  · simp [orHalves]
  · simp [orHalves]
  · rw [List.getLast?_cons_cons, List.getLast?_cons_cons]
    rcases (l2 :: ls).getLast? with _ | top
    · rfl
    · simp [orHalves]

theorem lays_orHalves {reach : UInt8 → Prop} {bytes : List ByteLoc} (h : SitedAll reach bytes) :
    Lays c (Growth.Plain reach) (orHalves bytes) fun _ => True := by
  unfold orHalves
  split
  · exact (lays_loadA h.head).plain.next fun _ _ => lays_compute rfl h.tail.head (by rfl)
  · exact .pure trivial each_nil

theorem quiet_positiveTest {positive : Bool} (hinner : InnerFree r c) (htarget : IsTarget r target)
    (h : ReachesValue r.reach value type.size.toNat) :
    Quiet c (positiveTest positive value type target) (Holds (Shaped r idle idle)) := by
  rw [positiveTest_eq]
  refine quiet_candidate (Forms.next (forms_plain (lays_valueBytes h)) fun bytes hbytes => ?_)
  split
  · rename_i top htop
    have hsited : Sited r.reach top := hbytes top (List.mem_of_getLast? htop)
    refine Forms.next (forms_plain (lays_test hsited).plain) fun _ _ => ?_
    cases positive with
    | true =>
      refine Forms.skipping hinner fun skip hskip => ?_
      refine (walks_branch (Or.inr rfl) hskip.free (by rfl)).before fun _ _ => ?_
      refine (walks_idle (lays_orHalves hbytes)).before fun _ _ => ?_
      exact (htarget.walks (fun _ => Or.inl) rfl).before fun _ _ => lowers_label hskip
    | false =>
      refine quiet_newLabel.next fun skip _ => Forms.next (htarget.forms rfl) fun _ _ => ?_
      refine Forms.next (forms_plain (lays_orHalves hbytes)) fun _ _ => ?_
      exact Forms.next (htarget.forms rfl) fun _ _ => .pure trivial (.nil _)
  · exact lays_internal _

theorem quiet_zeroCandidates {op : CompareOp} (hinner : InnerFree r c) (htarget : IsTarget r target)
    (h : ReachesValue r.reach value type.size.toNat) :
    Quiet c (zeroCandidates op value type target) (Fit r idle idle) := by
  have hsign : ∀ negative, Quiet c (do return [← signTest negative value type target])
      (Fit r idle idle) := fun negative =>
    (quiet_signTest htarget h).next fun d hd => quiet_pure (fit_nil.cons hd)
  have hpositive : ∀ positive, Quiet c (do return [← positiveTest positive value type target])
      (Fit r idle idle) := fun positive =>
    (quiet_positiveTest hinner htarget h).next fun d hd => quiet_pure (fit_nil.cons hd)
  unfold zeroCandidates
  split
  · exact quiet_zeroTest htarget h
  · cases op with
    | eq | ne => exact quiet_zeroTest htarget h
    | lt | ge => exact hsign _
    | gt | le => exact hpositive _

theorem quiet_plainCandidates {op : CompareOp} (hinner : InnerFree r c)
    (htarget : IsTarget r target) (hl : ReachesValue r.reach lhs type.size.toNat)
    (hr : ReachesValue r.reach rhs type.size.toNat) :
    Quiet c (plainCandidates op lhs rhs type target) (Fit r idle idle) := by
  have hequality : Quiet c (do
      let straight ← equality (op = .eq) lhs rhs type target
      if rhs.constant?.isNone then
        return [straight, ← equality (op = .eq) rhs lhs type target]
      else return [straight]) (Fit r idle idle) := by
    refine (quiet_equality hinner htarget hl hr).next fun d hd => ?_
    split
    · exact (quiet_equality hinner htarget hr hl).next fun d' hd' =>
        quiet_pure ((fit_nil.cons hd').cons hd)
    · exact quiet_pure (fit_nil.cons hd)
  have hordering : ∀ less lhs rhs, ReachesValue r.reach lhs type.size.toNat →
      ReachesValue r.reach rhs type.size.toNat →
      Quiet c (do return [← ordering less lhs rhs type target]) (Fit r idle idle) :=
    fun less lhs rhs hl hr =>
      (quiet_ordering hinner htarget hl hr).next fun d hd => quiet_pure (fit_nil.cons hd)
  cases op with
  | eq | ne => exact hequality
  | lt | ge => exact hordering _ _ _ hl hr
  | gt | le => exact hordering _ _ _ hr hl

theorem quiet_constantCandidates {op : CompareOp} {constant : Int64} (hinner : InnerFree r c)
    (htarget : IsTarget r target) (hl : ReachesValue r.reach lhs type.size.toNat) :
    Quiet c (constantCandidates op lhs constant type target) (Fit r idle idle) := by
  have hconstant : ∀ value, ReachesValue r.reach (.constant value) type.size.toNat :=
    fun value place hplace => by cases hplace
  refine (quiet_checkConstant constant type).next fun _ _ => ?_
  simp only
  split
  · exact (quiet_candidate (P := Shaped r idle idle) (.pure trivial (.nil _))).next fun d hd =>
      quiet_pure (fit_nil.cons hd)
  · split
    · refine (quiet_candidate (P := Shaped r idle idle) ?_).next fun d hd =>
        quiet_pure (fit_nil.cons hd)
      exact (walks_push (.jump false false htarget.known fun _ hx => by
        rw [htarget.free] at hx; cases hx)).forms
    · split
      · exact quiet_zeroCandidates hinner htarget hl
      · have hrest : ∀ shifted, Fit r idle idle shifted → Quiet c (do
            return shifted ++ (← plainCandidates op lhs (.constant constant) type target))
            (Fit r idle idle) := fun shifted hshifted =>
          (quiet_plainCandidates hinner htarget hl (hconstant _)).next fun ds hds =>
            quiet_pure (hshifted.append hds)
        split
        · exact (quiet_ordering hinner htarget hl (hconstant _)).next fun d hd =>
            (quiet_pure (fit_nil.cons hd)).next hrest
        · exact (quiet_ordering hinner htarget hl (hconstant _)).next fun d hd =>
            (quiet_pure (fit_nil.cons hd)).next hrest
        · exact (quiet_pure fit_nil).next hrest

theorem quiet_sideCandidates {op : CompareOp} (hinner : InnerFree r c) (htarget : IsTarget r target)
    (hl : ReachesValue r.reach lhs type.size.toNat)
    (hr : ReachesValue r.reach rhs type.size.toNat) :
    Quiet c (match rhs.constant? with
      | some constant => constantCandidates op lhs constant type target
      | none => plainCandidates op lhs rhs type target) (Fit r idle idle) := by
  split
  · exact quiet_constantCandidates hinner htarget hl
  · exact quiet_plainCandidates hinner htarget hl hr

theorem quiet_branchCandidates {op : CompareOp} (hinner : InnerFree r c)
    (htarget : IsTarget r target) (hl : ReachesValue r.reach lhs type.size.toNat)
    (hr : ReachesValue r.reach rhs type.size.toNat) :
    Quiet c (branchCandidates op lhs rhs type target) (Fit r idle idle) := by
  unfold branchCandidates
  by_cases hconstant : lhs.constant?.isSome = true
  · simp only [if_pos hconstant]
    exact quiet_sideCandidates hinner htarget hr hl
  · simp only [if_neg hconstant]
    exact quiet_sideCandidates hinner htarget hl hr

/-- A jump to the target of a node.  At the end of the body it is emitted, and X may be taken to be
needed behind it. -/
theorem forms_jumpTo {id : LabelId} {next : Option Node} {x : Bool}
    (htarget : IsTarget r (Naming.nodeLabel c.function.name id)) (hx : x = true → next = none) :
    Forms c r idle ⟨0, x⟩ (jumpTo id next) fun _ => True := by
  unfold jumpTo
  split
  · refine quiet_read.next fun c' hc' => ?_
    obtain rfl := hc'
    exact (walks_push (.jump false x htarget.known fun _ h => by
      rw [htarget.free] at h; cases h)).forms
  · rename_i hnext
    have hx' : x = false := by
      cases x with
      | false => rfl
      | true => rw [hx rfl] at hnext; exact absurd (by simp) hnext
    rw [hx']
    exact .pure trivial (.nil _)

theorem forms_lowerBranch {node : Node} {op : CompareOp} {ifTrue ifFalse : LabelId}
    {next : Option Node} {x : Bool} (hinner : InnerFree r c)
    (htrue : IsTarget r (Naming.nodeLabel c.function.name ifTrue))
    (hfalse : IsTarget r (Naming.nodeLabel c.function.name ifFalse))
    (hl : type.isScalar = true → ReachesValue r.reach lhs type.size.toNat)
    (hr : type.isScalar = true → ReachesValue r.reach rhs type.size.toNat)
    (hx : x = true → next = none) :
    Forms c r idle ⟨0, x⟩ (lowerBranch node op lhs rhs type ifTrue ifFalse next)
      fun _ => True := by
  refine (quiet_checkScalar type node).next fun _ htype => ?_
  replace hl := hl htype
  replace hr := hr htype
  split
  · refine (quiet_checkConstant _ type).next fun _ _ => (quiet_checkConstant _ type).next fun _ _ => ?_
    split
    · exact forms_jumpTo htrue hx
    · exact forms_jumpTo hfalse hx
  · refine quiet_read.next fun c' hc' => ?_
    obtain rfl := hc'
    -- Where one of the labels follows, this is not the last node.
    have hnone : ∀ id, next = some (.label id) → x = false := by
      intro id hid
      cases x with
      | false => rfl
      | true => rw [hx rfl] at hid; cases hid
    simp only
    split
    · rename_i hnext
      rw [hnone _ hnext]
      exact (quiet_branchCandidates hinner htrue hl hr).next fun ds hds => lowers_commitCheapest hds
    · split
      · rename_i hnext
        rw [hnone _ hnext]
        exact (quiet_branchCandidates hinner hfalse hl hr).next fun ds hds =>
          lowers_commitCheapest hds
      · refine (quiet_branchCandidates hinner htrue hl hr).next fun ds hds => ?_
        refine lowers_commitCheapest fun d hd => ?_
        obtain ⟨d', hd', rfl⟩ := List.mem_map.mp hd
        exact (hds d' hd').push (.jump false x hfalse.known fun _ h => by
          rw [hfalse.free] at h; cases h)

end Branches

end Codegen6502.Proofs.Selecting.Nodes
