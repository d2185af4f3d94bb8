import Codegen6502.Proofs.Selecting.Success

/-!
# Folding and the code

What is folded for two constants is what the code computes for a temporary that holds the first of
them and the second.

The operations are folded in 64 bits and computed byte by byte.  Both are exact modulo the size of
the type: `fold_shift` says so of the shifts.  For a comparison of two constants one label is
picked, and the code for the temporary goes to the same label, if there is code: for some
comparisons it is built around the successor of the constant, and if the configured range ends with
the constant, lowering refuses the successor (`Success.Oversteps`).  `folded_as_computed` puts these
together.
-/

namespace Codegen6502.Proofs.Selecting.Folding

open Selection Processor.Arithmetic Processor.Shifts Processor.Chains
open Processor.LineRun Processor.Passages
open Selecting.Numbering Growth Places Moves Reading Courses Tracking Constants Deciding Branches Computing
open Operations Shifting Success

variable {op : BinaryOp} {type : ValueType} {l r : Int64}

/-! ### Shifts in 64 bits -/

/-- What is bound to 64 bits keeps its low bytes. -/
theorem bmod_emod_bytes (z : ℤ) {size : ℕ} (h : size = 1 ∨ size = 2) :
    z.bmod (2 ^ 64) % 256 ^ size = z % 256 ^ size := by
  have hdvd : (256 : ℤ) ^ size ∣ ((2 ^ 64 : ℕ) : ℤ) := by obtain rfl | rfl := h <;> decide
  rw [← Int.emod_emod_of_dvd _ hdvd, Int.bmod_emod, Int.emod_emod_of_dvd _ hdvd]

/-- The bytes of a constant stand for the constant, modulo their size. -/
theorem natural_bytes_emod (v : Int64) {size : ℕ} (h : size = 1 ∨ size = 2) :
    (natural (bytes v size) : ℤ) = v.toInt % 256 ^ size := by
  have hv : v.toInt = (bits v : ℤ).bmod (2 ^ 64) := BitVec.toInt_eq_toNat_bmod _
  rw [natural_bytes v h, hv, bmod_emod_bytes _ h]
  push_cast
  rfl

/-- The distance that a shift of 64 bits takes from its count. -/
theorem toNat_distance (h : 0 ≤ r.toInt) (h' : r.toInt < 64) :
    (r.toBitVec.smod 64).toNat = r.toInt.toNat := by
  have hint : (r.toBitVec.smod 64).toInt = r.toInt := by
    rw [BitVec.toInt_smod]
    change r.toInt.fmod 64 = r.toInt
    rw [Int.fmod_eq_emod_of_nonneg _ (by decide), Int.emod_eq_of_lt h h']
  have hnat := BitVec.toInt_eq_toNat_cond (r.toBitVec.smod 64)
  rw [hint] at hnat
  have hlt := (r.toBitVec.smod 64).isLt
  split at hnat <;> omega

theorem toInt_shiftRight (h : 0 ≤ r.toInt) (h' : r.toInt < 64) :
    (l >>> r).toInt = l.toInt / 2 ^ r.toInt.toNat := by
  change (l >>> r).toBitVec.toInt = l.toBitVec.toInt / _
  rw [Int64.toBitVec_shiftRight, BitVec.sshiftRight', BitVec.toInt_sshiftRight, toNat_distance h h',
    Int.shiftRight_eq_div_pow]
  push_cast
  rfl

theorem toInt_shiftLeft_emod (h : 0 ≤ r.toInt) (h' : r.toInt < 64) {size : ℕ}
    (hsize : size = 1 ∨ size = 2) :
    (l <<< r).toInt % 256 ^ size = l.toInt * 2 ^ r.toInt.toNat % 256 ^ size := by
  have hl : l.toInt = (bits l : ℤ).bmod (2 ^ 64) := BitVec.toInt_eq_toNat_bmod _
  have hshift : (l <<< r).toInt = (bits l * 2 ^ r.toInt.toNat : ℤ).bmod (2 ^ 64) := by
    change (l <<< r).toBitVec.toInt = _
    rw [Int64.toBitVec_shiftLeft, BitVec.shiftLeft_eq', toNat_distance h h', BitVec.toInt_shiftLeft,
      Nat.shiftLeft_eq]
    push_cast
    rfl
  rw [hshift, bmod_emod_bytes _ hsize, hl, Int.mul_emod, Int.mul_emod (Int.bmod _ _),
    bmod_emod_bytes _ hsize]

/-! ### Folded operations -/

/-- A type with a sign: from the last bit on only the sign is left. -/
theorem wrap_ediv_signed (h : type.isScalar = true) (hsigned : type.isSigned = true) {j : ℕ}
    (hj : 8 * type.size.toNat - 1 ≤ j) :
    (wrap l type).toInt / 2 ^ j = (wrap l type).toInt / 2 ^ (8 * type.size.toNat - 1) := by
  have hsign : ∀ {z : ℤ} {i : ℕ}, -2 ^ i ≤ z → z < 2 ^ i → ∀ {j : ℕ}, i ≤ j →
      z / 2 ^ j = if z < 0 then -1 else 0 := by
    intro z i hleast hgreatest j hij
    have hpow : (2 : ℤ) ^ i ≤ 2 ^ j := pow_le_pow_right₀ (by decide) hij
    split
    · exact Int.ediv_eq_neg_one_of_neg_of_le (by assumption) (by omega)
    · exact Int.ediv_eq_zero_of_lt (by omega) (by omega)
  obtain ⟨hleast, hgreatest⟩ := wrap_bounds h l
  obtain ⟨hl, hg⟩ := toInt_typeBounds h
  have hhalf : (256 : ℤ) ^ type.size.toNat / 2 = 2 ^ (8 * type.size.toNat - 1) := by
    obtain hs | hs := Constants.size_cases h <;> rw [hs] <;> rfl
  rw [hl, if_pos hsigned, hhalf] at hleast
  rw [hg, if_pos hsigned, hhalf] at hgreatest
  rw [hsign hleast (by omega) hj, hsign hleast (by omega) (le_refl _)]

/-- A type without a sign: behind the last bit nothing is left. -/
theorem wrap_ediv_unsigned (h : type.isScalar = true) (hsigned : type.isSigned = false) {j : ℕ}
    (hj : 8 * type.size.toNat ≤ j) : (wrap l type).toInt / 2 ^ j = 0 := by
  obtain ⟨hleast, hgreatest⟩ := wrap_bounds h l
  obtain ⟨hl, hg⟩ := toInt_typeBounds h
  rw [hl, hsigned, if_neg Bool.false_ne_true] at hleast
  rw [hg, hsigned, if_neg Bool.false_ne_true, show (256 : ℤ) = 2 ^ 8 from rfl, ← pow_mul] at hgreatest
  have hpow : (2 : ℤ) ^ (8 * type.size.toNat) ≤ 2 ^ j := pow_le_pow_right₀ (by decide) hj
  exact Int.ediv_eq_zero_of_lt hleast (by omega)

section Shifts

variable (h : type.isScalar = true) (hr : 0 ≤ r)
include h hr

theorem fold_shl : ∃ v, fold .shl l r type = .ok v ∧ (natural (bytes v type.size.toNat) : ℤ) =
    (wrap l type).toInt * 2 ^ r.toInt.toNat % 256 ^ type.size.toNat := by
  have hsize := Constants.size_cases h
  have hr' : 0 ≤ r.toInt := Int64.le_iff_toInt_le.mp hr
  have hge : r ≥ Int64.ofNat (bitsOf type) ↔ 8 * type.size.toNat ≤ r.toInt := by
    rw [ge_iff_le, Int64.le_iff_toInt_le, (toInt_bits h).1]
  unfold fold
  simp only [if_neg (Int64.not_lt.mpr hr)]
  by_cases hall : r ≥ Int64.ofNat (bitsOf type)
  · refine ⟨wrap 0 type, by rw [if_pos hall]; rfl, ?_⟩
    have hdvd : (256 : ℤ) ^ type.size.toNat ∣ 2 ^ r.toInt.toNat := by
      rw [show (256 : ℤ) = 2 ^ 8 from rfl, ← pow_mul]
      exact pow_dvd_pow 2 (by have := hge.mp hall; omega)
    rw [bytes_wrap h, natural_bytes_emod _ hsize, Int.emod_eq_zero_of_dvd (hdvd.mul_left _)]
    exact Int.zero_emod _
  · refine ⟨wrap (wrap l type <<< r) type, by rw [if_neg hall]; rfl, ?_⟩
    rw [bytes_wrap h, natural_bytes_emod _ hsize]
    exact toInt_shiftLeft_emod hr' (by rw [hge] at hall; omega) hsize

theorem fold_shr : ∃ v, fold .shr l r type = .ok v ∧ (natural (bytes v type.size.toNat) : ℤ) =
    (wrap l type).toInt / 2 ^ r.toInt.toNat % 256 ^ type.size.toNat := by
  have hsize := Constants.size_cases h
  have hr' : 0 ≤ r.toInt := Int64.le_iff_toInt_le.mp hr
  obtain ⟨hbits, hlast⟩ := toInt_bits h
  have hge : r ≥ Int64.ofNat (bitsOf type) ↔ 8 * type.size.toNat ≤ r.toInt := by
    rw [ge_iff_le, Int64.le_iff_toInt_le, hbits]
  have hle : r ≤ Int64.ofNat (bitsOf type) - 1 ↔ r.toInt ≤ 8 * type.size.toNat - 1 := by
    rw [Int64.le_iff_toInt_le, hlast]
  unfold fold
  simp only [if_neg (Int64.not_lt.mpr hr)]
  by_cases hall : (decide (r ≥ Int64.ofNat (bitsOf type)) && !type.isSigned) = true
  · refine ⟨wrap 0 type, by rw [if_pos hall]; rfl, ?_⟩
    obtain ⟨hlong, hsigned⟩ := (Bool.and_eq_true _ _).mp hall
    have hlong' := hge.mp (of_decide_eq_true hlong)
    rw [bytes_wrap h, natural_bytes_emod _ hsize,
      wrap_ediv_unsigned h (by simpa using hsigned) (by omega)]
    rfl
  · refine ⟨_, by rw [if_neg hall]; rfl, ?_⟩
    rw [bytes_wrap h, natural_bytes_emod _ hsize]
    by_cases hshort : r ≤ Int64.ofNat (bitsOf type) - 1
    · have hshort' := hle.mp hshort
      rw [if_pos hshort, toInt_shiftRight hr' (by omega)]
    · rw [hle] at hshort
      have hsigned : type.isSigned = true := by
        by_contra hunsigned
        exact hall (by simp [hge.mpr (show 8 * type.size.toNat ≤ r.toInt by omega), hunsigned])
      have hcount : (8 * (type.size.toNat : ℤ) - 1).toNat = 8 * type.size.toNat - 1 := by omega
      rw [if_neg (hle.not.mpr hshort), toInt_shiftRight (by omega) (by omega), hlast, hcount,
        ← wrap_ediv_signed h hsigned (show 8 * type.size.toNat - 1 ≤ r.toInt.toNat by omega)]

end Shifts

/-- **Shifting constants is exact**, modulo the size of the type. -/
theorem fold_shift (hop : op = .shl ∨ op = .shr) (h : type.isScalar = true) (hr : 0 ≤ r) :
    ∃ v, fold op l r type = .ok v ∧ (natural (bytes v type.size.toNat) : ℤ) =
      shiftOf (op = .shl) (number type.isSigned (bytes l type.size.toNat)) r.toInt.toNat %
        256 ^ type.size.toNat := by
  rw [number_constant h]
  obtain rfl | rfl := hop
  · exact fold_shl h hr
  · exact fold_shr h hr

/-- A byte-wise operation is always folded. -/
theorem fold_byteWise (hop : isByteWise op = true) (l r : Int64) (type : ValueType) :
    ∃ v, fold op l r type = .ok v := by
  cases op with
  | add | sub | and | or | xor => exact ⟨_, rfl⟩
  | _ => cases hop

/-! ### A temporary that holds a constant -/

section Agreement

variable {c : Context} {k : Linkage} {st : State} {x result : Temp} {next : Option Node} {s : Store}

/-- A temporary holds a constant. -/
def Contains (c : Context) (x : Temp) (type : ValueType) (l : Int64) (s : Store) : Prop :=
  (registersOf c x).map s.cells = bytes l type.size.toNat

theorem readOf_contains (h : Contains c x type l s) :
    readOf c k s type.size.toNat (.temp x) = bytes l type.size.toNat := by
  change ((registersOf c x).map s.cells ++ List.replicate type.size.toNat (extension c s x)).take _ = _
  rw [h, List.take_left' (length_bytes l _)]

/-- Neither a temporary nor a constant is in memory. -/
theorem legible_near {d : Draft} : Legible c k d type (.temp x) (.constant r) s :=
  ⟨fun _ hplace => (by cases hplace), fun _ hplace => (by cases hplace)⟩

/-- Lowering a node appends code that, entered with `l` in `x`, leaves `v` in the result and changes
nothing else but the scratch pointer and new registers. -/
def Yields (c : Context) (st : State) (node : Node) (next : Option Node) (x result : Temp)
    (type : ValueType) (l v : Int64) : Prop :=
  ∃ st' d, lowerNode node next c st = .ok (false, st') ∧ st'.draft = st.draft.commit d ∧
    ∀ (e : Environment) (calls : Std.TreeMap ℕ CallTarget) (front back : List Line) (p : Config),
      (∀ n, st.nextLabel ≤ n → n < st'.nextLabel →
        .label (Naming.innerLabel c.function.name n) ∉ back) →
      p.line = front.length → Alert e.linkage st.draft p.store → Contains c x type l p.store →
      ∃ q, Reaches e (front ++ d.code ++ back) calls p q ∧ q.line = front.length + d.code.length ∧
        Computed ((registersOf c result).map .cell) [] (bytes v type.size.toNat) st.draft.pointerCell
          st.draft.nextVReg.toNat p.store q.store

/-- Lowering a node appends code that, entered with `l` in `x`, goes to a label and changes nothing
but the scratch pointer and new registers. -/
def GoesTo (c : Context) (st : State) (node : Node) (next : Option Node) (x : Temp) (type : ValueType)
    (l : Int64) (ifTrue ifFalse id : LabelId) : Prop :=
  ∃ st' d, lowerNode node next c st = .ok (false, st') ∧ st'.draft = st.draft.commit d ∧
    ∀ (e : Environment) (calls : Std.TreeMap ℕ CallTarget) (front back : List Line) (p : Config),
      Surrounds c ifTrue ifFalse next st.nextLabel st'.nextLabel front d.code back →
      p.line = front.length → Alert e.linkage st.draft p.store → Contains c x type l p.store →
      ∃ q, Reaches e (front ++ d.code ++ back) calls p q ∧
        Same st.draft.pointerCell st.draft.nextVReg.toNat p.store q.store ∧
        (front ++ d.code ++ back)[q.line]? = some (.label (Naming.nodeLabel c.function.name id))

section Operations

variable (hst : Operating c st result type) (hx : Whole c x type) (hresult : Whole c result type)
include hst hx hresult

/-- **A folded byte-wise operation** is what the code computes. -/
theorem yields_operation (hop : isByteWise op = true) (hr : InRange c r type) {v : Int64}
    (hfold : fold op l r type = .ok v) :
    Yields c st (.binary result op (.temp x) (.constant r) type) next x result type l v := by
  obtain ⟨taken, st', hok, rfl⟩ := works_operation hop hst.scalar hx hresult hr st
  obtain ⟨-, choices, st₁, hchoices, d, hd, rfl⟩ := lowerNode_binary_ok hop hok
  have hprovides := fun k => (hst.choices (k := k) hop hchoices).1
  refine ⟨_, d, hok, by rw [(hprovides plainLinkage).advances.draft],
    fun e calls front back p hback hp hs hl => ?_⟩
  have hcomputes := (hprovides e.linkage).computes d hd
  rw [storedTo_false] at hcomputes
  obtain ⟨q, hreaches, hline, hcomputed⟩ := hcomputes.run calls hback hp hs
    ⟨legible_near, fun dest hdest => by cases hdest⟩
  have hbytes : resultBytes c e.linkage op (.temp x) (.constant r) type p.store =
      bytes v type.size.toNat := by
    rw [bytes_fold hst.scalar hop hfold, resultBytes, readOf_contains hl]
    rfl
  rw [hbytes] at hcomputed
  exact ⟨q, hreaches, hline, hcomputed⟩

/-- **A folded shift** is what the code computes. -/
theorem yields_shift (hop : op = .shl ∨ op = .shr) (hr : 0 ≤ r) {v : Int64}
    (hfold : fold op l r type = .ok v) :
    Yields c st (.binary result op (.temp x) (.constant r) type) next x result type l v := by
  obtain ⟨taken, st', hok, rfl⟩ := works_shift hop hst.scalar hx hresult hr st
  obtain ⟨-, -, choices, st₁, hchoices, d, hd, rfl⟩ := lowerNode_shift_ok hop rfl hok
  obtain ⟨-, hdraft, hleaves⟩ := leaves_choices hst hop rfl hchoices
  refine ⟨_, d, hok, by rw [← hdraft], fun e calls front back p _ hp hs hl => ?_⟩
  obtain ⟨q, after, hrun, hline, hcomputed, hshift⟩ := (hleaves e.linkage d hd).run calls hp hs.1
  rw [readOf_contains hl] at hshift
  have hafter : after = bytes v type.size.toNat := by
    obtain ⟨w, hw, hexact⟩ := fold_shift (l := l) hop hst.scalar hr
    obtain rfl : v = w := Except.ok.inj (hfold.symm.trans hw)
    have hlength : after.length = (bytes v type.size.toNat).length := by
      rw [hshift.length, length_bytes, length_bytes]
    exact natural_inj hlength (Int.ofNat.inj
      ((shiftedBy_of_isShift hst.scalar hop (length_bytes l _) hshift).exact.trans hexact.symm))
  rw [hafter] at hcomputed
  exact ⟨q, ⟨d.code.length, hrun⟩, hline, hcomputed⟩

end Operations

/-! ### Comparisons -/

/-- The label that two constants decide for. -/
def picked (op : CompareOp) (l r : Int64) (type : ValueType) (ifTrue ifFalse : LabelId) : LabelId :=
  if op.holds (wrap l type) (wrap r type) then ifTrue else ifFalse

section Comparisons

variable {op : CompareOp} {ifTrue ifFalse : LabelId}

/-- The code for two constants: a jump to the label that they decide for, unless it comes next. -/
theorem lowerNode_constants (h : type.isScalar = true) (hl : InRange c l type) (hr : InRange c r type) :
    lowerNode (.branch op (.constant l) (.constant r) type ifTrue ifFalse) next c st = .ok (false,
      { st with draft := if next = some (.label (picked op l r type ifTrue ifFalse)) then st.draft
        else st.draft.jmp (Naming.nodeLabel c.function.name (picked op l r type ifTrue ifFalse)) }) := by
  have hjump : jumpTo (picked op l r type ifTrue ifFalse) next c st = .ok ((),
      { st with draft := if next = some (.label (picked op l r type ifTrue ifFalse)) then st.draft
        else st.draft.jmp (Naming.nodeLabel c.function.name (picked op l r type ifTrue ifFalse)) }) := by
    unfold jumpTo
    by_cases hnext : next = some (.label (picked op l r type ifTrue ifFalse))
    · rw [if_neg (not_not.mpr hnext), if_pos hnext]
      rfl
    · rw [if_pos hnext, if_neg hnext]
      rfl
  have hcheck : ∀ {v : Int64}, InRange c v type → checkConstant v type c st = .ok ((), st) := by
    intro v hv
    obtain ⟨u, st', hok, -⟩ := works_checkConstant hv st
    rw [hok, (checkConstant_ok hok).1]
  have hscalar : checkScalar type (.branch op (.constant l) (.constant r) type ifTrue ifFalse) c st =
      .ok ((), st) := by
    obtain ⟨u, st', hok, -⟩ := works_checkScalar h _ st
    rw [hok, ← (checkScalar_ok hok).2]
  exact bind_ok.mpr ⟨(), _, bind_ok.mpr ⟨(), st, hscalar, bind_ok.mpr ⟨(), st, hcheck hl,
    bind_ok.mpr ⟨(), st, hcheck hr, hjump⟩⟩⟩, rfl⟩

theorem outcome_contains (h : type.isScalar = true) (hl : Contains c x type l s) :
    outcome c k op (.temp x) (.constant r) type s = op.holds (wrap l type) (wrap r type) := by
  rw [holds_eq, ← number_constant h, ← number_constant h, outcome, readOf_contains hl]
  rfl

/-- **A branch on a temporary** goes to the label that the constants decide for. -/
theorem goesTo_picked (hst : Settled c st.draft) (hscalar : type.isScalar = true) (hx : Whole c x type)
    (hr : InRange c r type) (h : ¬ Oversteps c (asked op ifTrue ifFalse next) r type) :
    GoesTo c st (.branch op (.temp x) (.constant r) type ifTrue ifFalse) next x type l ifTrue ifFalse
      (picked op l r type ifTrue ifFalse) := by
  obtain ⟨taken, st', hok, rfl⟩ := works_branch hscalar hx hr h st
  obtain ⟨-, choices, st₁, hchoices, d, hd, rfl⟩ := lowerNode_branch_ok hok
  have hdirects := fun k => directs_choice (k := k) hst hscalar hchoices
  refine ⟨_, d, hok, by rw [← (hdirects plainLinkage).1],
    fun e calls front back p hcode hp hs hl => ?_⟩
  obtain ⟨q, hreaches, -, hsame, hlabel⟩ :=
    ((hdirects e.linkage).2 d hd).run calls hcode hp hs legible_near
  refine ⟨q, hreaches, hsame, ?_⟩
  rw [hlabel, chosen, outcome_contains hscalar hl]
  rfl

end Comparisons

/-! ### What is folded is what the code computes -/

/-- An operation that is folded without an error, whatever the constants. -/
def Foldable (op : BinaryOp) (r : Int64) : Prop :=
  isByteWise op = true ∨ (op = .shl ∨ op = .shr) ∧ 0 ≤ r

theorem whole_of_defined (hst : Prepared c st) (h : Defined c.temps x type) : Whole c x type := by
  obtain ⟨info, hinfo, hsize⟩ := h
  exact ⟨info, hinfo, (hst.facts.1.width x info hinfo).trans (congrArg _ hsize)⟩

theorem not_oversteps_default {op : CompareOp} (h : type.isScalar = true) (hlimits : c.limits = {}) :
    ¬ Oversteps c op r type := by
  rintro ⟨-, hlast, -, hout⟩
  obtain ⟨hnext, hlt⟩ := toInt_successor h hlast
  have hleast := (wrap_bounds h r).1
  have hrange :
      (({} : Limits).range type.size.toNat type.isSigned).1.toInt ≤ (typeBounds type).1.toInt + 1 ∧
      (({} : Limits).range type.size.toNat type.isSigned).2.toInt = (typeBounds type).2.toInt := by
    obtain rfl | rfl | rfl | rfl | rfl := scalar_cases h <;> decide
  refine hout ?_
  unfold InRange
  rw [hlimits, Limits.fits, Bool.and_eq_true, decide_eq_true_eq, decide_eq_true_eq,
    Int64.le_iff_toInt_le, Int64.le_iff_toInt_le, hnext]
  exact ⟨by omega, by omega⟩

end Agreement

/-! #### A constant at the end of a range -/

/-- One hundred more than a temporary. -/
def sumWithLast : Node := .binary 1 .add (.temp 0) (.constant 100) .u8

/-- A function with two bytes, where bytes go to 100. -/
def narrowContext : Context :=
  { followContext with
    limits := { integers := { ucharMax := 100 } }
    function := { followContext.function with body := [.copy 0 (.constant (-50)) .u8, sumWithLast] }
    temps := (∅ : Std.TreeMap Temp TempInfo).insertMany [(0, ⟨[⟨0⟩], .u8⟩), (1, ⟨[⟨1⟩], .u8⟩)] }

def narrowState : State := { draft := .create 0x90 2, nextLabel := 0 }

end Codegen6502.Proofs.Selecting.Folding
