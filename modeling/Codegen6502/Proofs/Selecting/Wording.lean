import Codegen6502.Proofs.Selecting.Vocabulary

/-!
# The lines of nodes

Copies, operations, bit-fields and branches keep to the forms of lines if the zero-page cells of the
places that they store to may be named (`Granted`).
-/

namespace Codegen6502.Proofs.Selecting.Wording

open Selection Places Growth Nodes Bodies Shapes Vocabulary

variable {c : Context} {may : UInt8 → Prop} {type : ValueType} {lhs rhs value : Value}
  {result : Temp}

/-! ### Moves and byte-wise operations -/

theorem speaks_lowerCopy {node : Node} :
    Speaks may c (lowerCopy node result value type) fun _ => True := by
  refine (speaks_checkScalar type node).next fun _ _ => ?_
  split
  · refine speaks_commitOnly ((speaks_valueBytes _ _).next fun src hsrc => ?_)
    exact (speaks_destination result).next fun dst hdst => speaks_copyBytes src dst hsrc hdst
  · exact .pure trivial

/-- The zero-page cells among the first bytes from a place on may be written. -/
def Granted (may : UInt8 → Prop) (place : Place) (size : ℕ) : Prop :=
  ∀ cell, Covers place size cell → may cell

theorem speaks_granted {place : Place} {size : ℕ} (h : Granted may place size) :
    Speaks may c (placeBytes place size) (CitedAll (Cell may)) :=
  (speaks_placeBytes place size).imp fun _ hlocs => hlocs.mono fun _ hcell => hcell.mono h

theorem speaks_storeInto {node : Node} {dest : Place} (hdest : Granted may dest type.size.toNat) :
    Speaks may c (storeInto node value dest type) fun _ => True :=
  (speaks_checkScalar type node).next fun _ _ => (speaks_valueBytes _ _).next fun src hsrc =>
    (speaks_granted hdest).next fun dst hdst => speaks_copyBytes src dst hsrc hdst

theorem speaks_computeBytes {opcode : Opcode} (hop : isReading opcode = true) :
    ∀ dsts ls rs : List ByteLoc, CitedAll (Cell may) dsts → CitedAll Byte ls → CitedAll Byte rs →
      Speaks may c (computeBytes opcode dsts ls rs) fun _ => True
  | dst :: dsts, l :: ls, r :: rs, hdsts, hls, hrs => by
    obtain ⟨hdst, hdsts⟩ := List.forall_mem_cons.mp hdsts
    obtain ⟨hl, hls⟩ := List.forall_mem_cons.mp hls
    obtain ⟨hr, hrs⟩ := List.forall_mem_cons.mp hrs
    unfold computeBytes
    refine (speaks_loadA hl).next fun _ _ => (speaks_compute hop hr).next fun _ _ => ?_
    exact (speaks_storeA hdst).next fun _ _ => speaks_computeBytes hop dsts ls rs hdsts hls hrs
  | [], _, _, _, _, _ => by unfold computeBytes; exact .pure trivial
  | _ :: _, [], _, _, _, _ => by unfold computeBytes; exact .pure trivial
  | _ :: _, _ :: _, [], _, _, _ => by unfold computeBytes; exact .pure trivial

theorem speaks_byteWise {op : BinaryOp} :
    Speaks may c (byteWise op lhs rhs type result) fun _ => True := by
  rw [byteWise_eq]
  refine (speaks_destination result).next fun dst hdst => ?_
  refine (speaks_valueBytes _ _).next fun lb hlb => (speaks_operandBytes _ _).next fun rb hrb => ?_
  have hapart : Speaks may c (setApart dst lb) (CitedAll Byte) := by
    unfold setApart
    split
    · exact .mapM fun loc hloc => speaks_materialize (hlb loc hloc)
    · exact .pure hlb
  have hstart : Speaks may c (startChain op) fun opcode => isReading opcode = true := by
    cases op with
    | add | sub => exact (speaks_bare rfl).next fun _ _ => .pure rfl
    | and | or | xor => exact .pure rfl
    | _ => exact speaks_invalid _
  exact hapart.next fun lb hlb => hstart.next fun opcode hop =>
    speaks_computeBytes hop dst lb rb hdst hlb hrb

/-! ### Steps by one -/

theorem speaks_directOperand {loc : ByteLoc} (h : Cited (Cell may) loc) :
    Speaks may c (directOperand loc) (Cell may) := by
  cases loc with
  | direct operand => exact .pure h
  | indirect pointer offset => exact speaks_internal _

theorem speaks_stepBytes {up : Bool} {bytes : List ByteLoc} (h : CitedAll (Cell may) bytes) :
    Speaks may c (stepBytes up bytes) fun _ => True := by
  have hoperands : Speaks may c (bytes.mapM directOperand) fun os => ∀ o ∈ os, Cell may o :=
    .mapM fun loc hloc => speaks_directOperand (h loc hloc)
  refine hoperands.next fun operands hcells => ?_
  split
  · exact speaks_change (by split <;> rfl) (hcells _ (by simp))
  · rename_i lo hi
    have hlo : Cell may lo := hcells _ (by simp)
    have hhi : Cell may hi := hcells _ (by simp)
    refine speaks_newLabel.next fun skip _ => ?_
    split
    · exact (speaks_change rfl hlo).next fun _ _ => (speaks_branch rfl).next fun _ _ =>
        (speaks_change rfl hhi).next fun _ _ => speaks_label
    · exact (speaks_read rfl hlo.byte).next fun _ _ => (speaks_branch rfl).next fun _ _ =>
        (speaks_change rfl hhi).next fun _ _ => speaks_label.next fun _ _ => speaks_change rfl hlo
  · exact speaks_internal _

theorem speaks_stepInPlace {op : BinaryOp} :
    Speaks may c (stepInPlace result op lhs rhs type) (AllSpoken may) := by
  unfold stepInPlace
  split
  · exact .pure allSpoken_nil
  · refine (speaks_tempInfo result).next fun info _ => ?_
    split
    · exact .pure allSpoken_nil
    · exact speaks_single (speaks_candidate ((speaks_destination result).next fun dst hdst =>
        speaks_stepBytes hdst))

/-- A step of memory in place goes to where the store that it takes along goes to. -/
theorem speaks_fusedStep {op : BinaryOp} {stored : Temp} {dest : Place} {storeType : ValueType}
    (hdest : Granted may dest storeType.size.toNat) :
    Speaks may c (fusedStep result op lhs rhs type stored dest storeType) fun d? =>
      ∀ d, d? = some d → Spoken may d ∧ storeType = type := by
  have hnone : ∀ d, (none : Option Draft) = some d → Spoken may d ∧ storeType = type :=
    fun d hd => by cases hd
  unfold fusedStep
  refine Speaks.read.next fun _ _ => ?_
  split
  · exact .pure hnone
  · rename_i hcond
    have htype : storeType = type := by
      simp only [Bool.or_eq_true, decide_eq_true_eq, not_or, not_not] at hcond
      exact hcond.1.2
    split
    · exact .pure hnone
    · refine (speaks_granted (htype ▸ hdest)).next fun bytes hbytes => ?_
      split
      · exact .pure hnone
      · refine (speaks_candidate (speaks_stepBytes hbytes)).next fun d hd => .pure fun d' hd' => ?_
        obtain rfl := Option.some.inj hd'
        exact ⟨hd, htype⟩

theorem speaks_byteWiseCandidates {op : BinaryOp} {generic : Draft} (hgeneric : Spoken may generic) :
    Speaks may c (byteWiseCandidates generic result op lhs rhs type) (AllSpoken may) := by
  have hrest : ∀ swapped, AllSpoken may swapped → Speaks may c (do
      let stepped ← stepInPlace result op lhs rhs type
      return generic :: (swapped ++ stepped)) (AllSpoken may) := fun swapped hswapped =>
    speaks_stepInPlace.next fun stepped hstepped => .pure <| List.forall_mem_cons.mpr
      ⟨hgeneric, List.forall_mem_append.mpr ⟨hswapped, hstepped⟩⟩
  unfold byteWiseCandidates
  split
  · refine (speaks_candidate (speaks_byteWise)).next fun d hd => ?_
    exact (Speaks.pure (allSpoken_single hd)).next hrest
  · exact (Speaks.pure allSpoken_nil).next hrest

/-- Going on with a candidate. -/
theorem speaks_continueCandidate {d : Draft} {build : Lower Unit} (hd : Spoken may d)
    (h : Speaks may c build fun _ => True) :
    Speaks may c (lowerByteWise.continueCandidate d build) (Spoken may) := by
  intro st d' st' hok hst
  obtain ⟨old, st₁, hget, h1⟩ := bind_ok.mp hok
  cases hget
  obtain ⟨u₁, st₂, hset, h2⟩ := bind_ok.mp h1
  cases hset
  obtain ⟨u₂, st₃, hbuild, h3⟩ := bind_ok.mp h2
  obtain ⟨new, st₄, hget', h4⟩ := bind_ok.mp h3
  cases hget'
  obtain ⟨u₃, st₅, hset', h5⟩ := bind_ok.mp h4
  cases hset'
  obtain ⟨rfl, rfl⟩ := pure_ok.mp h5
  exact ⟨hst, (h _ _ _ hbuild hd).1⟩

/-- The store that follows a node goes to cells that may be written. -/
def GrantedNext (may : UInt8 → Prop) (next : Option Node) : Prop :=
  ∀ value dest type, next = some (.store value dest type) → Granted may dest type.size.toNat

theorem speaks_lowerByteWise {op : BinaryOp} {next : Option Node} (hnext : GrantedNext may next) :
    Speaks may c (lowerByteWise result op lhs rhs type next) fun _ => True := by
  refine (speaks_candidate (speaks_byteWise)).next fun generic hgeneric => ?_
  have halone : Speaks may c (do
      commitCheapest (← byteWiseCandidates generic result op lhs rhs type)
      return false) fun _ => True :=
    (speaks_byteWiseCandidates hgeneric).next fun ds hds =>
      (speaks_commitCheapest hds).next fun _ _ => .pure trivial
  split
  · rename_i stored dest storeType
    have hdest : Granted may dest storeType.size.toNat := hnext _ _ _ rfl
    refine (speaks_fusedStep hdest).next fun d? hd? => ?_
    split
    · rename_i step
      obtain ⟨hstep, rfl⟩ := hd? step rfl
      refine (speaks_continueCandidate hgeneric (speaks_storeInto hdest)).next fun d hd => ?_
      refine (speaks_commitCheapest ?_).next fun _ _ => .pure trivial
      exact List.forall_mem_cons.mpr ⟨hd, allSpoken_single hstep⟩
    · exact halone
  · exact halone

/-! ### Shifts -/

section Shifts

variable {left arithmetic : Bool}

theorem speaks_shiftA : Speaks may c (shiftA left arithmetic) fun _ => True := by
  unfold shiftA
  split
  · exact (speaks_constant rfl).next fun _ _ => speaks_bare rfl
  · exact speaks_bare (by split <;> rfl)

theorem speaks_shiftPair {lo hi : Operand} (hlo : Cell may lo) (hhi : Cell may hi) :
    Speaks may c (shiftPair left arithmetic lo hi) fun _ => True := by
  unfold shiftPair
  split
  · exact (speaks_change rfl hlo).next fun _ _ => speaks_change rfl hhi
  · split
    · refine (speaks_read rfl hhi.byte).next fun _ _ => (speaks_constant rfl).next fun _ _ => ?_
      refine (speaks_bare rfl).next fun _ _ => (speaks_push (.store hhi)).next fun _ _ => ?_
      exact speaks_change rfl hlo
    · exact (speaks_change rfl hhi).next fun _ _ => speaks_change rfl hlo

theorem speaks_shiftByte {k : ℕ} {dst : ByteLoc}
    (hdst : Cited (Cell may) dst) :
    Speaks may c (shiftByte result lhs type left arithmetic k dst) (AllSpoken may) := by
  refine Speaks.next (Q := Spoken may) (speaks_candidate ?_) fun inA hinA => ?_
  · refine (speaks_valueBytes _ _).next fun bytes hbytes => ?_
    split
    · exact (speaks_loadA (hbytes _ (List.mem_cons_self ..))).next fun _ _ =>
        (Speaks.times k speaks_shiftA).next fun _ _ => speaks_storeA hdst
    · exact speaks_internal _
  · split
    · refine Speaks.next (Q := Spoken may) (speaks_candidate ?_) fun inPlace hinPlace => ?_
      · split
        · exact Speaks.times k (speaks_change (by split <;> rfl) hdst)
        · exact .pure trivial
      · exact .pure (List.forall_mem_cons.mpr ⟨hinA, allSpoken_single hinPlace⟩)
    · exact .pure (allSpoken_single hinA)

theorem speaks_shiftWord {k : ℕ} {dstLo dstHi : ByteLoc}
    (hlo : Cited (Cell may) dstLo) (hhi : Cited (Cell may) dstHi) :
    Speaks may c (shiftWord lhs type left arithmetic k dstLo dstHi) (Spoken may) := by
  refine speaks_candidate ((speaks_valueBytes _ _).next fun bytes hbytes => ?_)
  split
  · rename_i lo hi
    have hsrcLo : Cited Byte lo := hbytes _ (by simp)
    have hsrcHi : Cited Byte hi := hbytes _ (by simp)
    split
    · refine (speaks_loadA (by split <;> assumption)).next fun _ _ => ?_
      refine (Speaks.times (k - 8) speaks_shiftA).next fun _ _ => ?_
      refine (speaks_storeA (?_ : Cited _ (if left then dstHi else dstLo))).next fun _ _ => ?_
      · split
        · exact hhi
        · exact hlo
      refine (speaks_loadA (byte_constant 0)).next fun _ _ => speaks_storeA ?_
      split
      · exact hlo
      · exact hhi
    · refine (speaks_copyBytes _ _ hbytes (citedAll_pair hlo hhi)).next fun _ _ => ?_
      split
      · exact Speaks.times k (speaks_shiftPair hlo hhi)
      · exact speaks_internal _
  · exact speaks_internal _

theorem speaks_lowerShift {node : Node} {op : BinaryOp} :
    Speaks may c (lowerShift node result op lhs rhs type) fun _ => True := by
  unfold lowerShift
  split
  · simp only
    split
    · exact Speaks.next (Q := fun _ => False) (speaks_invalid _) fun _ h => h.elim
    · refine (speaks_destination result).next fun dst hdst => ?_
      -- The count may be the largest one that makes a difference.
      split
      all_goals
        split
        · exact speaks_commitOnly (speaks_copyBytes _ _ (citedAll_constants dst fun _ => 0) hdst)
        · split
          · exact (speaks_shiftByte (hdst _ (by simp))).next fun ds hds => speaks_commitCheapest hds
          · exact (speaks_shiftWord (hdst _ (by simp)) (hdst _ (by simp))).next fun d hd =>
              speaks_commitCheapest (allSpoken_single hd)
          · exact speaks_internal _
  · exact speaks_unsupported node

end Shifts

theorem speaks_lowerBinary {node : Node} {op : BinaryOp} {next : Option Node}
    (hnext : GrantedNext may next) :
    Speaks may c (lowerBinary node result op lhs rhs type next) fun _ => True := by
  refine (speaks_checkScalar type node).next fun _ _ => ?_
  split
  · refine (speaks_checkConstant _ type).next fun _ _ => ?_
    refine (speaks_checkConstant _ type).next fun _ _ => ?_
    split
    · refine (speaks_destination result).next fun dst hdst => ?_
      refine (speaks_commitOnly (speaks_copyBytes _ _ ?_ hdst)).next fun _ _ => .pure trivial
      exact citedAll_constants _ _
    · exact speaks_invalid _
  · split
    · exact speaks_unsupported node
    · exact speaks_unsupported node
    · exact speaks_unsupported node
    · exact speaks_lowerShift.next fun _ _ => .pure trivial
    · exact speaks_lowerShift.next fun _ _ => .pure trivial
    all_goals exact speaks_lowerByteWise hnext

/-! ### Bit-fields -/

section Fields

variable {node : Node} {field : BitField}

theorem speaks_checkField : Speaks may c (checkField node field) fun _ => True := by
  unfold checkField
  split
  · exact speaks_invalid _
  · exact .pure trivial

theorem speaks_lowerLoadField {src : Place} :
    Speaks may c (lowerLoadField node result src field) fun _ => True := by
  refine speaks_checkField.next fun _ _ => speaks_commitOnly ?_
  refine (speaks_placeLoc _).next fun byte hbyte => (speaks_destination result).next fun dst hdst => ?_
  split
  · rename_i first rest
    have hstore : Speaks may c (storeA first) fun _ => True :=
      speaks_storeA (hdst _ (List.mem_cons_self ..))
    refine (speaks_loadA hbyte.toByte).next fun _ _ => ?_
    refine (Speaks.times _ (speaks_bare rfl)).next fun _ _ => ?_
    simp only
    split
    · exact (speaks_constant rfl).next fun _ _ => hstore
    · exact hstore
  · exact speaks_internal _

theorem speaks_lowerStoreField {dest : Place}
    (hdest : ∀ cell : UInt8, dest.displaced field.byteOffset = .absolute cell.toUInt16 → may cell) :
    Speaks may c (lowerStoreField node value dest field) fun _ => True := by
  refine speaks_checkField.next fun _ _ => speaks_commitOnly ?_
  refine (speaks_placeLoc _).next fun byte hbyte => ?_
  have hstore : Speaks may c (storeA byte) fun _ => True :=
    speaks_storeA (hbyte.mono fun _ hcell => hcell.mono hdest)
  simp only
  split
  · refine (speaks_checkConstant _ _).next fun _ _ => (speaks_loadA hbyte.toByte).next fun _ _ => ?_
    refine (speaks_constant rfl).next fun _ _ => ?_
    split
    · exact (speaks_constant rfl).next fun _ _ => hstore
    · exact hstore
  · refine (speaks_operandBytes _ _).next fun bytes hbytes => ?_
    split
    · refine speaks_newVReg.next fun shifted _ => ?_
      refine (speaks_loadA (hbytes _ (List.mem_cons_self ..))).next fun _ _ => ?_
      refine (Speaks.times _ (speaks_bare rfl)).next fun _ _ => (speaks_constant rfl).next fun _ _ => ?_
      refine (speaks_storeA (cited_vreg shifted)).next fun _ _ => ?_
      refine (speaks_loadA hbyte.toByte).next fun _ _ => (speaks_constant rfl).next fun _ _ => ?_
      exact (speaks_read rfl (byte_virtual shifted)).next fun _ _ => hstore
    · exact speaks_internal _

end Fields

/-! ### Branches -/

section Branches

variable {target : String}

theorem speaks_equality {equal : Bool} :
    Speaks may c (equality equal lhs rhs type target) (Spoken may) := by
  refine speaks_candidate ((speaks_valueBytes _ _).next fun lb hlb => ?_)
  refine (speaks_operandBytes _ _).next fun rb hrb => ?_
  have hcompare : ∀ {l r : ByteLoc} {m : Lower Unit}, Cited Byte l → Cited Byte r →
      Speaks may c m (fun _ => True) → Speaks may c (do loadA l; compute .cmp r; m) fun _ => True :=
    fun hl hr hm => (speaks_loadA hl).next fun _ _ => (speaks_compute rfl hr).next fun _ _ => hm
  split
  · exact hcompare (hlb _ (by simp)) (hrb _ (by simp)) (speaks_branch (by split <;> rfl))
  · rename_i l0 l1 r0 r1
    have hhigh : ∀ {m : Lower Unit}, Speaks may c m (fun _ => True) →
        Speaks may c (do loadA l1; compute .cmp r1; m) fun _ => True := fun hm =>
      hcompare (hlb _ (by simp)) (hrb _ (by simp)) hm
    split
    · refine speaks_newLabel.next fun skip _ => hcompare (hlb _ (by simp)) (hrb _ (by simp)) ?_
      refine (speaks_branch rfl).next fun _ _ => hhigh ?_
      exact (speaks_branch rfl).next fun _ _ => speaks_label
    · refine hcompare (hlb _ (by simp)) (hrb _ (by simp)) ?_
      exact (speaks_branch rfl).next fun _ _ => hhigh (speaks_branch rfl)
  · exact speaks_internal _

theorem speaks_subtract {signed : Bool} {lb rb : List ByteLoc} (hl : CitedAll Byte lb)
    (hr : CitedAll Byte rb) : Speaks may c (subtract signed lb rb) fun _ => True := by
  unfold subtract
  split
  · refine (speaks_loadA (hl _ (by simp))).next fun _ _ => ?_
    split
    · exact (speaks_bare rfl).next fun _ _ => speaks_compute rfl (hr _ (by simp))
    · exact speaks_compute rfl (hr _ (by simp))
  · refine (speaks_loadA (hl _ (by simp))).next fun _ _ => ?_
    refine (speaks_compute rfl (hr _ (by simp))).next fun _ _ => ?_
    exact (speaks_loadA (hl _ (by simp))).next fun _ _ => speaks_compute rfl (hr _ (by simp))
  · exact speaks_internal _

theorem speaks_decideOrder {signed less : Bool} :
    Speaks may c (decideOrder signed less target) fun _ => True := by
  unfold decideOrder
  split
  · refine speaks_newLabel.next fun ok _ => (speaks_branch rfl).next fun _ _ => ?_
    refine (speaks_constant rfl).next fun _ _ => speaks_label.next fun _ _ => ?_
    exact speaks_branch (by split <;> rfl)
  · exact speaks_branch (by split <;> rfl)

theorem speaks_ordering {less : Bool} :
    Speaks may c (ordering less lhs rhs type target) (Spoken may) := by
  rw [ordering_eq]
  exact speaks_candidate ((speaks_valueBytes _ _).next fun lb hlb =>
    (speaks_operandBytes _ _).next fun rb hrb => (speaks_subtract hlb hrb).next fun _ _ =>
      speaks_decideOrder)

/-- A candidate that goes on from a fork in which the two bytes have been made. -/
theorem spoken_combine {base d : Draft} {opcode : Opcode} {first second : ByteLoc}
    (hbase : Spoken may base) (hfirst : Cited Byte first) (hsecond : Cited Byte second)
    (h : (base.fork.loadA first).compute .ora second = .ok d) (hop : opcode.isBranch = true) :
    Spoken may (base.commit (d.branch opcode target)) :=
  hbase.commit ((spoken_compute (spoken_loadA hbase.fork hfirst) hsecond rfl h).push
    (.branch target hop))

theorem speaks_zeroTest {isZero : Bool} :
    Speaks may c (zeroTest isZero value type target) (AllSpoken may) := by
  intro st ds st' hok hst
  obtain ⟨bytes, st₁, st₂, hbytes, hbuild, rfl⟩ := fork_ok
    (f := fun bytes base => zeroTest.build target base (if isZero then .beq else .bne) bytes) hok
  obtain ⟨hbase, hcited⟩ := speaks_valueBytes (c := c) _ _ _ _ _ hbytes hst.fork
  have hop : (if isZero = true then Opcode.beq else .bne).isBranch = true := by split <;> rfl
  refine ⟨hst, ?_⟩
  unfold zeroTest.build at hbuild
  split at hbuild
  · rename_i byte
    obtain ⟨rfl, rfl⟩ := pure_ok.mp hbuild
    exact allSpoken_single ((spoken_test hbase (hcited byte (by simp))).push (.branch target hop))
  · rename_i lo hi
    have hcombine : ∀ {first second d st st'}, Cited Byte first → Cited Byte second →
        zeroTest.combine target st₁.draft (if isZero then .beq else .bne) first second c st =
          .ok (d, st') → Spoken may d := by
      intro first second d st st' hfirst hsecond hd
      obtain ⟨d₁, st₃, hlift, hpure⟩ := bind_ok.mp hd
      obtain ⟨hd₁, rfl⟩ := lift_ok hlift
      obtain ⟨rfl, rfl⟩ := pure_ok.mp hpure
      exact spoken_combine hbase hfirst hsecond hd₁ hop
    have hlo : Cited Byte lo := hcited lo (by simp)
    have hhi : Cited Byte hi := hcited hi (by simp)
    obtain ⟨first, st₃, hfirst, hrest⟩ := bind_ok.mp hbuild
    obtain ⟨second, st₄, hsecond, hpure⟩ := bind_ok.mp hrest
    obtain ⟨rfl, -⟩ := pure_ok.mp hpure
    exact List.forall_mem_cons.mpr
      ⟨hcombine hlo hhi hfirst, allSpoken_single (hcombine hhi hlo hsecond)⟩
  · cases hbuild

theorem speaks_signTest {negative : Bool} :
    Speaks may c (signTest negative value type target) (Spoken may) := by
  refine speaks_candidate ((speaks_valueBytes _ _).next fun bytes hbytes => ?_)
  split
  · rename_i top htop
    exact (speaks_test (hbytes top (List.mem_of_getLast? htop))).next fun _ _ =>
      speaks_branch (by split <;> rfl)
  · exact speaks_internal _

theorem speaks_positiveTest {positive : Bool} :
    Speaks may c (positiveTest positive value type target) (Spoken may) := by
  rw [positiveTest_eq]
  refine speaks_candidate ((speaks_valueBytes _ _).next fun bytes hbytes => ?_)
  split
  · rename_i top htop
    refine (speaks_test (hbytes top (List.mem_of_getLast? htop))).next fun _ _ => ?_
    refine speaks_newLabel.next fun skip _ => (speaks_branch rfl).next fun _ _ => ?_
    have hor : Speaks may c (orHalves bytes) fun _ => True := by
      unfold orHalves
      split
      · exact (speaks_loadA (hbytes _ (by simp))).next fun _ _ =>
          speaks_compute rfl (hbytes _ (by simp))
      · exact .pure trivial
    refine hor.next fun _ _ => (speaks_branch (by split <;> rfl)).next fun _ _ => ?_
    split
    · exact speaks_label
    · exact .pure trivial
  · exact speaks_internal _

theorem speaks_zeroCandidates {op : CompareOp} :
    Speaks may c (zeroCandidates op value type target) (AllSpoken may) := by
  unfold zeroCandidates
  split
  · exact speaks_zeroTest
  · cases op with
    | eq | ne => exact speaks_zeroTest
    | lt | ge => exact speaks_single speaks_signTest
    | gt | le => exact speaks_single speaks_positiveTest

theorem speaks_plainCandidates {op : CompareOp} :
    Speaks may c (plainCandidates op lhs rhs type target) (AllSpoken may) := by
  have hequality : Speaks may c (do
      let straight ← equality (op = .eq) lhs rhs type target
      if rhs.constant?.isNone then
        return [straight, ← equality (op = .eq) rhs lhs type target]
      else return [straight]) (AllSpoken may) := by
    refine speaks_equality.next fun d hd => ?_
    split
    · exact speaks_equality.next fun d' hd' =>
        .pure (List.forall_mem_cons.mpr ⟨hd, allSpoken_single hd'⟩)
    · exact .pure (allSpoken_single hd)
  cases op with
  | eq | ne => exact hequality
  | lt | ge => exact speaks_single speaks_ordering
  | gt | le => exact speaks_single speaks_ordering

theorem speaks_constantCandidates {op : CompareOp} {constant : Int64} :
    Speaks may c (constantCandidates op lhs constant type target) (AllSpoken may) := by
  refine (speaks_checkConstant constant type).next fun _ _ => ?_
  simp only
  split
  · exact speaks_single (speaks_candidate (.pure trivial))
  · split
    · exact speaks_single (speaks_candidate speaks_jmp)
    · split
      · exact speaks_zeroCandidates
      · have hrest : ∀ shifted, AllSpoken may shifted → Speaks may c (do
            return shifted ++ (← plainCandidates op lhs (.constant constant) type target))
            (AllSpoken may) := fun shifted hshifted =>
          speaks_plainCandidates.next fun ds hds =>
            .pure (List.forall_mem_append.mpr ⟨hshifted, hds⟩)
        split
        · exact speaks_ordering.next fun d hd =>
            (Speaks.pure (allSpoken_single hd)).next hrest
        · exact speaks_ordering.next fun d hd =>
            (Speaks.pure (allSpoken_single hd)).next hrest
        · exact (Speaks.pure allSpoken_nil).next hrest

theorem speaks_branchCandidates {op : CompareOp} :
    Speaks may c (branchCandidates op lhs rhs type target) (AllSpoken may) := by
  unfold branchCandidates
  simp only
  split
  · exact speaks_constantCandidates
  · exact speaks_plainCandidates

theorem speaks_jumpTo {id : LabelId} {next : Option Node} :
    Speaks may c (jumpTo id next) fun _ => True := by
  unfold jumpTo
  split
  · exact Speaks.read.next fun _ _ => speaks_jmp
  · exact .pure trivial

theorem speaks_lowerBranch {node : Node} {op : CompareOp} {ifTrue ifFalse : LabelId}
    {next : Option Node} :
    Speaks may c (lowerBranch node op lhs rhs type ifTrue ifFalse next) fun _ => True := by
  refine (speaks_checkScalar type node).next fun _ _ => ?_
  split
  · refine (speaks_checkConstant _ type).next fun _ _ => ?_
    exact (speaks_checkConstant _ type).next fun _ _ => speaks_jumpTo
  · refine Speaks.read.next fun _ _ => ?_
    simp only
    split
    · exact speaks_branchCandidates.next fun ds hds => speaks_commitCheapest hds
    · split
      · exact speaks_branchCandidates.next fun ds hds => speaks_commitCheapest hds
      · refine speaks_branchCandidates.next fun ds hds => speaks_commitCheapest fun d hd => ?_
        obtain ⟨d', hd', rfl⟩ := List.mem_map.mp hd
        exact (hds d' hd').push (.jump _)

end Branches

end Codegen6502.Proofs.Selecting.Wording
