import Codegen6502.Proofs.Selecting.Branches
import Codegen6502.Proofs.Selecting.Computing

/-!
# Binary operations

The sequences that lowering chooses from for an operation that goes byte by byte: the bytes one
after the other, the same with the operands exchanged, a step of the result in place, a copy of a
constant, and a step of memory in place that takes along the store behind the operation.

`operation_computes` says that each of them leaves the exact result of what is read for the
operands, modulo the size of the type.  What is read is the value of an operand, but for a word of
which the second byte is behind offset 255 of a pointer (`farSum_misses`).
-/

namespace Codegen6502.Proofs.Selecting.Operations

open Selection Growth Shapes
open Processor.Memory Processor.LineRun Processor.Straight Processor.Arithmetic Processor.Passages
open Processor.Chains
open Tracking Places Moves Courses Reading Constants Deciding Branches Computing

variable {c : Context} {k : Linkage} {s t : Store} {st st' : State} {d : Draft} {op : BinaryOp}
  {result : Temp} {lhs rhs : Value} {type : ValueType} {next : Option Node}

/-! ### The bytes of results -/

/-- **The bytes of a result stand for the exact result**, modulo the size of the type. -/
theorem natural_resultBytes (hop : isByteWise op = true) (s : Store) :
    (natural (resultBytes c k op lhs rhs type s) : ℤ) =
      exact op (number type.isSigned (readOf c k s type.size.toNat lhs))
        (number type.isSigned (readOf c k s type.size.toNat rhs)) % 256 ^ type.size.toNat := by
  have hlength : (readOf c k s type.size.toNat lhs).length =
      (readOf c k s type.size.toNat rhs).length := by rw [length_readOf, length_readOf]
  have hchain := natural_chain hop (c := decide (op = .sub)) (fun h => by rw [h]; rfl)
    (fun h => by rw [h]; rfl) hlength type.isSigned
  rw [length_readOf] at hchain
  exact hchain

/-- Bytes that stand for the exact result are the bytes of the result. -/
theorem eq_resultBytes (hop : isByteWise op = true) {bytes : List UInt8}
    (hlength : bytes.length = type.size.toNat)
    (h : (natural bytes : ℤ) = exact op (number type.isSigned (readOf c k s type.size.toNat lhs))
      (number type.isSigned (readOf c k s type.size.toNat rhs)) % 256 ^ type.size.toNat) :
    bytes = resultBytes c k op lhs rhs type s := by
  rw [← natural_resultBytes hop] at h
  exact natural_inj (hlength.trans (length_resultBytes s).symm) (Int.ofNat.inj h)

/-- The operands of an operation that commutes may be exchanged. -/
theorem resultBytes_swap (hop : isByteWise op = true) (hcomm : op.isCommutative = true) (s : Store) :
    resultBytes c k op rhs lhs type s = resultBytes c k op lhs rhs type s :=
  chain_comm hop hcomm _ (by rw [length_readOf, length_readOf])

theorem isUnitStep_spec {target : Value} (h : isUnitStep op lhs rhs target = true) :
    (op = .add ∧ lhs = target ∧ rhs = .constant 1) ∨ (op = .add ∧ lhs = .constant 1 ∧ rhs = target) ∨
      (op = .sub ∧ lhs = target ∧ rhs = .constant 1) := by
  have hconstant : ∀ {value : Value}, value.constant? = some 1 → value = .constant 1 := by
    intro value hvalue
    cases value with
    | constant v => exact congrArg _ (Option.some.inj hvalue)
    | _ => cases hvalue
  unfold isUnitStep at h
  split at h
  · simp only [Bool.or_eq_true, Bool.and_eq_true, decide_eq_true_eq] at h
    rcases h with ⟨hl, hr⟩ | ⟨hr, hl⟩
    · exact Or.inl ⟨rfl, hl, hconstant hr⟩
    · exact Or.inr (Or.inl ⟨rfl, hconstant hl, hr⟩)
  · simp only [Bool.and_eq_true, decide_eq_true_eq] at h
    exact Or.inr (Or.inr ⟨rfl, h.1, hconstant h.2⟩)
  · cases h

theorem number_readOf_one (hscalar : type.isScalar = true) (s : Store) :
    number type.isSigned (readOf c k s type.size.toNat (.constant 1)) = 1 := by
  rw [number_readOf_constant hscalar]
  obtain rfl | rfl | rfl | rfl | rfl := scalar_cases hscalar <;> decide

/-- **A step by one** gives the bytes of the result. -/
theorem stepped_eq_resultBytes (hscalar : type.isScalar = true) {target : Value}
    (h : isUnitStep op lhs rhs target = true) (s : Store) :
    stepped (op = .add) (readOf c k s type.size.toNat target) = resultBytes c k op lhs rhs type s := by
  have hsize := Constants.size_cases hscalar
  have hlength : (readOf c k s type.size.toNat target).length = type.size.toNat := length_readOf target
  have hone := number_readOf_one (c := c) (k := k) hscalar s
  have hnatural : ∀ delta : ℤ, ((natural (readOf c k s type.size.toNat target) : ℤ) + delta) %
      256 ^ type.size.toNat = (number type.isSigned (readOf c k s type.size.toNat target) + delta) %
        256 ^ type.size.toNat := fun delta => by
    have hmod := number_emod type.isSigned (readOf c k s type.size.toNat target)
    rw [hlength] at hmod
    rw [← hmod, Int.emod_add_emod]
  have hcases : (readOf c k s type.size.toNat target).length = 1 ∨
      (readOf c k s type.size.toNat target).length = 2 := by rwa [hlength]
  have hstepped := natural_stepped (decide (op = .add)) hcases
  have hwidth : (stepped (op = .add) (readOf c k s type.size.toNat target)).length =
      type.size.toNat := by rw [length_stepped, hlength]
  rw [hlength, hnatural] at hstepped
  obtain ⟨rfl, rfl, rfl⟩ | ⟨rfl, rfl, rfl⟩ | ⟨rfl, rfl, rfl⟩ := isUnitStep_spec h
  · refine eq_resultBytes rfl hwidth (hstepped.trans ?_)
    rw [exact, hone]
    rfl
  · refine eq_resultBytes rfl hwidth (hstepped.trans ?_)
    rw [exact, hone, Int.add_comm]
    rfl
  · refine eq_resultBytes rfl hwidth (hstepped.trans ?_)
    rw [exact, hone]
    rfl

/-- **Folding constants** gives the bytes of the result. -/
theorem bytes_fold (hscalar : type.isScalar = true) (hop : isByteWise op = true) {l r folded : Int64}
    (h : fold op l r type = .ok folded) : bytes folded type.size.toNat =
      chain (opcodeOf op) (op = .sub) (bytes l type.size.toNat) (bytes r type.size.toNat) := by
  have hsize := Constants.size_cases hscalar
  have hlength : (bytes (wrap l type) type.size.toNat).length =
      (bytes (wrap r type) type.size.toNat).length := by rw [length_bytes, length_bytes]
  rw [← bytes_wrap hscalar l, ← bytes_wrap hscalar r]
  have hpow : 256 ^ type.size.toNat ∣ 2 ^ 64 := by obtain hs | hs := hsize <;> rw [hs] <;> decide
  cases op with
  | add =>
    obtain rfl : wrap (wrap l type + wrap r type) type = folded := Except.ok.inj h
    rw [bytes_wrap hscalar]
    refine natural_inj (by rw [length_bytes, length_chain hlength, length_bytes]) ?_
    rw [opcodeOf, natural_add hlength, natural_bytes _ hsize, natural_bytes _ hsize,
      natural_bytes _ hsize, length_bytes, bits_add, Nat.mod_mod_of_dvd _ hpow, Nat.add_mod]
    simp
  | sub =>
    obtain rfl : wrap (wrap l type - wrap r type) type = folded := Except.ok.inj h
    rw [bytes_wrap hscalar]
    refine natural_inj (by rw [length_bytes, length_chain hlength, length_bytes]) ?_
    change _ = natural (chain .sbc true _ _)
    rw [natural_subtract hlength, natural_bytes _ hsize, natural_bytes _ hsize,
      natural_bytes _ hsize, length_bytes, bits_sub, Nat.mod_mod_of_dvd _ hpow]
    have hl := (wrap l type).toBitVec.isLt
    have hr := (wrap r type).toBitVec.isLt
    simp only [bits]
    obtain hs | hs := hsize <;> rw [hs] <;> omega
  | and =>
    obtain rfl : wrap (wrap l type &&& wrap r type) type = folded := Except.ok.inj h
    rw [bytes_wrap hscalar, opcodeOf, chain_and]
    exact bytes_bitwise (fun _ _ => rfl) UInt8.toNat_and (fun a b => Nat.and_mod_two_pow (n := 8))
      (fun a b => Nat.and_div_two_pow (n := 8)) _ _ hsize
  | or =>
    obtain rfl : wrap (wrap l type ||| wrap r type) type = folded := Except.ok.inj h
    rw [bytes_wrap hscalar, opcodeOf, chain_ora]
    exact bytes_bitwise (fun _ _ => rfl) UInt8.toNat_or (fun a b => Nat.or_mod_two_pow (n := 8))
      (fun a b => Nat.or_div_two_pow (n := 8)) _ _ hsize
  | xor =>
    obtain rfl : wrap (wrap l type ^^^ wrap r type) type = folded := Except.ok.inj h
    rw [bytes_wrap hscalar, opcodeOf, chain_eor]
    exact bytes_bitwise (fun _ _ => rfl) UInt8.toNat_xor (fun a b => Nat.xor_mod_two_pow (n := 8))
      (fun a b => Nat.xor_div_two_pow (n := 8)) _ _ hsize
  | _ => cases hop

/-! ### The sequences that lowering chooses from -/

/-- The sequences for an operation on values, and whether they take along the store that follows. -/
def byteWiseChoices (op : BinaryOp) (result : Temp) (lhs rhs : Value) (type : ValueType)
    (next : Option Node) : Lower (List Draft × Bool) := do
  let generic ← candidate (byteWise op lhs rhs type result)
  match next with
  | some (.store (.temp stored) dest storeType) =>
    match ← fusedStep result op lhs rhs type stored dest storeType with
    | some step =>
      let store := Node.store (.temp stored) dest storeType
      let stored ← lowerByteWise.continueCandidate generic (storeInto store (.temp result) dest type)
      return ([stored, step], true)
    | none => return (← byteWiseCandidates generic result op lhs rhs type, false)
  | _ => return (← byteWiseCandidates generic result op lhs rhs type, false)

/-- The sequences for an operation: an operation on two constants comes to a copy. -/
def operationChoices (op : BinaryOp) (result : Temp) (lhs rhs : Value) (type : ValueType)
    (next : Option Node) : Lower (List Draft × Bool) := do
  match lhs.constant?, rhs.constant? with
  | some l, some r =>
    checkConstant l type
    checkConstant r type
    match fold op l r type with
    | .ok folded =>
      let dst ← destination result
      return ([← candidate (copyBytes (constBytes folded dst.length) dst)], false)
    | .error e => invalid e.message
  | _, _ => byteWiseChoices op result lhs rhs type next

theorem lowerByteWise_eq : lowerByteWise result op lhs rhs type next = (do
    let (choices, taken) ← byteWiseChoices op result lhs rhs type next
    commitCheapest choices
    return taken) := by
  unfold lowerByteWise byteWiseChoices
  simp only [bind_assoc]
  refine congrArg _ (funext fun generic => ?_)
  split
  · simp only [bind_assoc]
    refine congrArg _ (funext fun step? => ?_)
    split <;> simp only [bind_assoc, pure_bind]
  · simp only [bind_assoc, pure_bind]

theorem lowerBinary_eq (node : Node) (hop : isByteWise op = true) :
    lowerBinary node result op lhs rhs type next = (do
      checkScalar type node
      let (choices, taken) ← operationChoices op result lhs rhs type next
      commitCheapest choices
      return taken) := by
  unfold lowerBinary operationChoices
  refine congrArg _ (funext fun _ => ?_)
  rcases lhs.constant? with _ | l <;> rcases rhs.constant? with _ | r
  case some.some =>
    simp only [bind_assoc]
    refine congrArg _ (funext fun _ => congrArg _ (funext fun _ => ?_))
    rcases fold op l r type with e | folded
    · rfl
    · simp only [bind_assoc, pure_bind]
      refine congrArg _ (funext fun dst => ?_)
      unfold commitOnly
      rw [bind_assoc]
      exact congrArg _ (funext fun d => rfl)
  all_goals
    cases op with
    | add | sub | and | or | xor => exact lowerByteWise_eq
    | _ => cases hop

theorem lowerNode_binary_ok {taken : Bool} (hop : isByteWise op = true)
    (h : lowerNode (.binary result op lhs rhs type) next c st = .ok (taken, st')) :
    type.isScalar = true ∧ ∃ choices st₁,
      operationChoices op result lhs rhs type next c st = .ok ((choices, taken), st₁) ∧
        ∃ d ∈ choices, st' = { st₁ with draft := st₁.draft.commit d } := by
  have hlower : lowerBinary (.binary result op lhs rhs type) result op lhs rhs type next c st =
      .ok (taken, st') := h
  rw [lowerBinary_eq _ hop] at hlower
  obtain ⟨_, st₂, hcheck, hrest⟩ := bind_ok.mp hlower
  obtain ⟨hscalar, rfl⟩ := checkScalar_ok hcheck
  obtain ⟨⟨choices, taken''⟩, st₃, hchoices, hrest'⟩ := bind_ok.mp hrest
  obtain ⟨_, st₄, hcommit, hpure'⟩ := bind_ok.mp hrest'
  obtain ⟨rfl, rfl⟩ := pure_ok.mp hpure'
  exact ⟨hscalar, choices, st₃, hchoices, commitCheapest_ok hcommit⟩

/-! ### Places that are stepped or stored to -/

/-- The bytes of a place. -/
def spotsOf (c : Context) (k : Linkage) (s : Store) (size : ℕ) (dest : Place) : List Spot :=
  (List.range size).map (plus (start c k s dest))

theorem length_spotsOf (size : ℕ) (dest : Place) : (spotsOf c k s size dest).length = size := by
  simp [spotsOf]

theorem nodup_spotsOf {size : ℕ} (h : size = 1 ∨ size = 2) (dest : Place) :
    (spotsOf c k s size dest).Nodup := by
  obtain rfl | rfl := h
  · simp [spotsOf, List.range_succ]
  · have hne := start_ne_plus (c := c) (k := k) (s := s) dest
    simpa [spotsOf, List.range_succ, plus_zero] using hne

/-- Every byte of a place is in memory or in the frame. -/
theorem mem_spotsOf {size : ℕ} {dest : Place} {spot : Spot} (h : spot ∈ spotsOf c k s size dest) :
    (∃ a, spot = .memory a) ∨ ∃ o, spot = .frame o := by
  obtain ⟨i, -, rfl⟩ := List.mem_map.mp h
  rcases start_cases (c := c) (k := k) (s := s) dest with ⟨a, ha⟩ | ⟨o, ho⟩
  · exact Or.inl ⟨_, by rw [ha]; rfl⟩
  · exact Or.inr ⟨_, by rw [ho]; rfl⟩

/-- The bytes of a place can be written. -/
def Storable (c : Context) (k : Linkage) (cell : UInt8) (s : Store) (size : ℕ) (dest : Place) : Prop :=
  ∀ spot ∈ spotsOf c k s size dest, Outside cell spot ∧ Keeps s spot

theorem Storable.visible {cell : UInt8} {n size : ℕ} {dest : Place} (h : Storable c k cell s size dest) :
    ∀ spot ∈ spotsOf c k s size dest, Visible cell n spot := by
  intro spot hspot
  have hout := (h spot hspot).1
  rcases mem_spotsOf hspot with ⟨a, rfl⟩ | ⟨o, rfl⟩
  · exact hout a rfl
  · trivial

/-- Whether a place is not behind a pointer. -/
def isDirect : Place → Bool
  | .indirect .. | .returnSlot _ => false
  | _ => true

theorem isDirect_displaced (place : Place) (delta : UInt16) :
    isDirect (place.displaced delta) = isDirect place := by
  cases place with
  | iocb channel field =>
    rw [Place.displaced]
    split <;> rfl
  | _ => rfl

theorem found_of_isDirect {place : Place} (h : isDirect place = true) (i : ℕ) :
    found c k s place i = plus (start c k s place) i := by
  cases place <;> first | rfl | cases h

theorem isIndirect_placeLoc {place : Place} {loc : ByteLoc}
    (h : placeLoc place c st = .ok (loc, st')) : loc.isIndirect = !isDirect place := by
  cases place with
  | indirect base offset =>
    obtain ⟨pointer, st₁, -, hpure⟩ := bind_ok.mp h
    rw [(pure_ok.mp hpure).1]
    rfl
  | returnSlot offset =>
    obtain ⟨pointer, st₁, -, hpure⟩ := bind_ok.mp h
    rw [(pure_ok.mp hpure).1]
    rfl
  | iocb channel field =>
    obtain ⟨address, st₁, -, hpure⟩ := bind_ok.mp h
    rw [(pure_ok.mp hpure).1]
    rfl
  | banked bank offset =>
    cases bank with
    | common => cases h
    | paged bank =>
      rw [(pure_ok.mp h).1]
      rfl
  | absolute address =>
    rw [(pure_ok.mp h).1]
    rfl
  | _ =>
    rw [(pure_ok.mp h).1]
    rfl

theorem placeBytes_located {n size : ℕ} (hp : Pointed c n) {dest : Place} {locs : List ByteLoc}
    (h : placeBytes dest size c st = .ok (locs, st')) :
    st' = st ∧ List.Forall₂ (fun i loc => Locates c n (dest.displaced (UInt16.ofNat i)) loc ∧
      loc.isIndirect = !isDirect dest) (List.range size) locs :=
  mapM_ok (fun i loc st st' hok => ⟨(placeLoc_spec hp hok).1, (placeLoc_spec hp hok).2, by
    rw [isIndirect_placeLoc hok, isDirect_displaced]⟩) _ _ _ _ h

/-- The operand of a byte of a place that is not behind a pointer. -/
theorem operand_of_located {n i : ℕ} {dest : Place} {loc : ByteLoc} (hdirect : isDirect dest = true)
    (hlocates : Locates c n (dest.displaced (UInt16.ofNat i)) loc)
    (hloc : loc.isIndirect = !isDirect dest) : ∃ operand, loc = .direct operand ∧ IsCell operand ∧
      ∀ k s, operandSpot k operand = plus (start c k s dest) i := by
  cases loc with
  | indirect pointer offset =>
    rw [hdirect] at hloc
    cases hloc
  | direct operand =>
    refine ⟨operand, rfl, ⟨hlocates.isByte, ?_⟩, fun k s => ?_⟩
    · have hcases := start_cases (c := c) (k := plainLinkage) (s := farStore)
        (dest.displaced (UInt16.ofNat i))
      rw [← hlocates.spot] at hcases
      cases operand with
      | immediate i => cases i <;> simp [spotOf, operandSpot] at hcases
      | accumulator | implied | relative | indirect => exact hlocates.isByte.elim
      | _ => rfl
    · rw [show operandSpot k operand = spotOf k s (.direct operand) from rfl,
        spotOf_located hlocates, found_of_isDirect hdirect]

/-- **The bytes of a place that is not behind a pointer**: operands that name them. -/
theorem placeBytes_direct {n size : ℕ} (hp : Pointed c n) {dest : Place} {locs : List ByteLoc}
    (h : placeBytes dest size c st = .ok (locs, st')) (hdirect : isDirect dest = true) :
    st' = st ∧ ∃ operands : List Operand, locs = operands.map .direct ∧
      (∀ operand ∈ operands, IsCell operand) ∧
      ∀ k s, operands.map (operandSpot k) = spotsOf c k s size dest := by
  obtain ⟨rfl, hall⟩ := placeBytes_located hp h
  refine ⟨rfl, ?_⟩
  clear h
  have key : ∀ {is : List ℕ} {locs : List ByteLoc}, List.Forall₂ (fun i loc =>
      Locates c n (dest.displaced (UInt16.ofNat i)) loc ∧ loc.isIndirect = !isDirect dest) is locs →
      ∃ operands : List Operand, locs = operands.map .direct ∧ (∀ operand ∈ operands, IsCell operand) ∧
        ∀ k s, operands.map (operandSpot k) = is.map (plus (start c k s dest)) := by
    intro is locs hall
    induction hall with
    | nil => exact ⟨[], rfl, by simp, fun _ _ => rfl⟩
    | cons hhead _ ih =>
      obtain ⟨operands, rfl, hcells, hspots⟩ := ih
      obtain ⟨operand, rfl, hcell, hspot⟩ := operand_of_located hdirect hhead.1 hhead.2
      refine ⟨operand :: operands, rfl, List.forall_mem_cons.mpr ⟨hcell, hcells⟩, fun k s => ?_⟩
      rw [List.map_cons, List.map_cons, hspot k s, hspots k s]
  exact key hall

/-- No byte of a direct place is in a register. -/
theorem virtual_notMem {operands : List Operand} {size : ℕ} {dest : Place}
    (h : operands.map (operandSpot k) = spotsOf c k s size dest) (v : VReg) :
    .virtual v ∉ operands := fun hmem => by
  have hspot : operandSpot k (.virtual v) ∈ spotsOf c k s size dest := h ▸ List.mem_map_of_mem hmem
  rcases mem_spotsOf hspot with ⟨a, ha⟩ | ⟨o, ho⟩
  · cases ha
  · cases ho

/-- A place of which no byte is found behind a pointer is not behind one. -/
theorem isDirect_of_placeBytes {n size : ℕ} (hp : Pointed c n) {dest : Place} {locs : List ByteLoc}
    (h : placeBytes dest size c st = .ok (locs, st')) (hsize : 0 < size)
    (hlocs : locs.any ByteLoc.isIndirect = false) : isDirect dest = true := by
  obtain ⟨-, hall⟩ := placeBytes_located hp h
  obtain ⟨m, rfl⟩ := Nat.exists_eq_succ_of_ne_zero hsize.ne'
  rw [List.range_succ_eq_map] at hall
  cases hall with
  | cons hhead _ =>
    rw [List.any_cons, Bool.or_eq_false_iff] at hlocs
    simpa [hlocs.1] using hhead.2

/-! ### What a sequence leaves -/

/-- Spots hold bytes, and nothing else has changed but what is hidden. -/
structure Computed (spots hidden : List Spot) (bytes : List UInt8) (cell : UInt8) (n : ℕ)
    (s t : Store) : Prop where
  holds : spots.map (get t) = bytes
  others : ∀ spot, Visible cell n spot → spot ∉ spots → spot ∉ hidden → get t spot = get s spot

section Computed

variable {spots hidden : List Spot} {bytes : List UInt8} {cell : UInt8} {n : ℕ} {u : Store}

theorem computed_fill (hnodup : spots.Nodup) (hkeeps : ∀ spot ∈ spots, Keeps s spot)
    (hvisible : ∀ spot ∈ spots, Visible cell n spot) (hlength : bytes.length = spots.length)
    (h : Same cell n (fill s spots bytes) t) : Computed spots hidden bytes cell n s t := by
  refine ⟨?_, fun spot hspot hnot _ => ?_⟩
  · rw [List.map_congr_left fun spot hspot => h.get spot (hvisible spot hspot)]
    exact map_get_fill hnodup hkeeps hlength
  · rw [h.get spot hspot, get_fill_of_notMem hnot hkeeps]

/-- A result that is handed on. -/
theorem Computed.hand_on {other : List Spot} (h : Computed spots [] bytes cell n s t)
    (h' : Computed other [] bytes cell n t u) : Computed other spots bytes cell n s u :=
  ⟨h'.holds, fun spot hspot hnot hhidden => by
    rw [h'.others spot hspot hnot (by simp), h.others spot hspot hhidden (by simp)]⟩

/-- A result that is replaced. -/
theorem Computed.again {bytes' : List UInt8} (h : Computed spots [] bytes cell n s t)
    (h' : Computed spots [] bytes' cell n t u) : Computed spots [] bytes' cell n s u :=
  ⟨h'.holds, fun spot hspot hnot hhidden => by
    rw [h'.others spot hspot hnot hhidden, h.others spot hspot hnot hhidden]⟩

theorem Computed.swap {x y : Spot} {a b : UInt8} (h : Computed [x, y] hidden [a, b] cell n s t) :
    Computed [y, x] hidden [b, a] cell n s t := by
  have hholds := h.holds
  simp only [List.map_cons, List.map_nil, List.cons.injEq, and_true] at hholds
  refine ⟨by simp [hholds], fun spot hspot hnot hhidden => h.others spot hspot (fun hmem => ?_) hhidden⟩
  exact hnot (by simpa [or_comm] using hmem)

end Computed

/-- The bytes that are given the result: those of its temporary, or those of the place that it is
stored to. -/
def outputs (c : Context) (k : Linkage) (result : Temp) (type : ValueType) (dest? : Option Place)
    (s : Store) : List Spot :=
  match dest? with
  | none => (registersOf c result).map .cell
  | some dest => spotsOf c k s type.size.toNat dest

/-- The bytes that may be given anything: those of the temporary of a result that is stored. -/
def byproducts (c : Context) (result : Temp) : Option Place → List Spot
  | none => []
  | some _ => (registersOf c result).map .cell

/-- The operands can be read, and the place that the result is stored to can be written. -/
def Operable (c : Context) (k : Linkage) (d : Draft) (type : ValueType) (lhs rhs : Value)
    (dest? : Option Place) (s : Store) : Prop :=
  Legible c k d type lhs rhs s ∧
    ∀ dest, dest? = some dest → Storable c k d.pointerCell s type.size.toNat dest

/-- A sequence that computes the result of an operation. -/
def Computes (c : Context) (k : Linkage) (op : BinaryOp) (result : Temp) (lhs rhs : Value)
    (type : ValueType) (dest? : Option Place) (lo hi : ℕ) (base d : Draft) : Prop :=
  ∃ names, Fresh c lo hi names ∧
    Leads k names names base.fork d (Operable c k base type lhs rhs dest?) fun s p =>
      p.seeking = none ∧ Computed (outputs c k result type dest? s) (byproducts c result dest?)
        (resultBytes c k op lhs rhs type s) base.pointerCell base.nextVReg.toNat s p.store

/-- The state before an operation. -/
structure Operating (c : Context) (st : State) (result : Temp) (type : ValueType) : Prop where
  settled : Settled c st.draft
  scalar : type.isScalar = true
  housed : Housed c st.draft.nextVReg.toNat result type

theorem Operating.step (h : Operating c st result type) (hst : Advances st st') :
    Operating c st' result type := by
  obtain ⟨hsettled, hscalar, hhoused⟩ := h
  rw [← hst.draft] at hsettled hhoused
  exact ⟨hsettled, hscalar, hhoused⟩

/-- Sequences all of which compute the result. -/
structure Provides (c : Context) (k : Linkage) (op : BinaryOp) (result : Temp) (lhs rhs : Value)
    (type : ValueType) (dest? : Option Place) (st st' : State) (ds : List Draft) : Prop where
  advances : Advances st st'
  computes : ∀ d ∈ ds,
    Computes c k op result lhs rhs type dest? st.nextLabel st'.nextLabel st.draft d

section Provides

variable {dest? : Option Place} {ds ds' : List Draft} {st'' : State}

theorem Computes.mono {lo hi lo' hi' : ℕ} {base : Draft}
    (h : Computes c k op result lhs rhs type dest? lo hi base d) (hlo : lo' ≤ lo) (hhi : hi ≤ hi') :
    Computes c k op result lhs rhs type dest? lo' hi' base d := by
  obtain ⟨names, hfresh, hleads⟩ := h
  exact ⟨names, hfresh.mono hlo hhi, hleads⟩

theorem Provides.none : Provides c k op result lhs rhs type dest? st st [] :=
  ⟨.refl st, by simp⟩

theorem Provides.append (h : Provides c k op result lhs rhs type dest? st st' ds)
    (h' : Provides c k op result lhs rhs type dest? st' st'' ds') :
    Provides c k op result lhs rhs type dest? st st'' (ds ++ ds') := by
  refine ⟨h.advances.trans h'.advances, fun d hd => ?_⟩
  rcases List.mem_append.mp hd with hd | hd
  · exact (h.computes d hd).mono le_rfl h'.advances.label
  · have hcomputes := h'.computes d hd
    rw [h.advances.draft] at hcomputes
    exact hcomputes.mono h.advances.label le_rfl

theorem Provides.one (hadvances : Advances st st')
    (h : Computes c k op result lhs rhs type dest? st.nextLabel st'.nextLabel st.draft d) :
    Provides c k op result lhs rhs type dest? st st' [d] :=
  ⟨hadvances, fun _ hd => List.mem_singleton.mp hd ▸ h⟩

end Provides

section Candidates

variable (hst : Operating c st result type)
include hst

theorem Operating.visible : ∀ spot ∈ (registersOf c result).map Spot.cell,
    Visible st.draft.pointerCell st.draft.nextVReg.toNat spot := by
  intro spot hspot
  obtain ⟨v, hv, rfl⟩ := List.mem_map.mp hspot
  exact hst.housed.below v hv

/-- The registers of the result have been given bytes. -/
theorem Operating.filled {bytes : List UInt8} (hlength : bytes.length = type.size.toNat)
    (h : Same st.draft.pointerCell st.draft.nextVReg.toNat
      (fill s ((registersOf c result).map .cell) bytes) t) :
    Computed ((registersOf c result).map .cell) [] bytes st.draft.pointerCell
      st.draft.nextVReg.toNat s t :=
  computed_fill (hst.housed.nodup.map fun _ _ heq => Spot.cell.inj heq) keeps_cells hst.visible
    (by rw [hlength, List.length_map, hst.housed.length]) h

/-- The registers of the result have been given its bytes. -/
theorem Operating.computed (s : Store) (h : Same st.draft.pointerCell st.draft.nextVReg.toNat
      (fill s ((registersOf c result).map .cell) (resultBytes c k op lhs rhs type s)) t) :
    Computed ((registersOf c result).map .cell) [] (resultBytes c k op lhs rhs type s)
      st.draft.pointerCell st.draft.nextVReg.toNat s t :=
  hst.filled (length_resultBytes s) h

theorem Operating.computes_of_passes {m lo hi : ℕ} (h : Passes k m st.draft.fork d
      (Legible c k st.draft type lhs rhs) fun s t =>
      Same st.draft.pointerCell st.draft.nextVReg.toNat
        (fill s ((registersOf c result).map .cell) (resultBytes c k op lhs rhs type s)) t) :
    Computes c k op result lhs rhs type none lo hi st.draft d := by
  refine ⟨[], fresh_nil _ _, (Leads.of_passes h).imp (fun s hs => hs.1) ?_⟩
  rintro s p - - ⟨t, rfl, ht⟩
  exact ⟨rfl, hst.computed s ht⟩

/-- The operation byte by byte, as a candidate. -/
theorem Operating.generic (hop : isByteWise op = true)
    (h : candidate (byteWise op lhs rhs type result) c st = .ok (d, st')) :
    Advances st st' ∧ Passes k 8 st.draft.fork d (Legible c k st.draft type lhs rhs) fun s t =>
      Same st.draft.pointerCell st.draft.nextVReg.toNat
        (fill s ((registersOf c result).map .cell) (resultBytes c k op lhs rhs type s)) t := by
  obtain ⟨st₁, hbuild, rfl, rfl⟩ := candidate_ok h
  have hforked : Settled c ({ st with draft := st.draft.fork } : State).draft := hst.settled.fork
  obtain ⟨hlabel, hpasses⟩ := passes_byteWise (k := k) hforked hst.scalar hop hst.housed hbuild
  exact ⟨⟨rfl, hlabel.ge⟩, hpasses⟩

/-- The operands of an operation that commutes, exchanged. -/
theorem Operating.swapped (hop : isByteWise op = true) (hcomm : op.isCommutative = true)
    (h : candidate (byteWise op rhs lhs type result) c st = .ok (d, st')) :
    Provides c k op result lhs rhs type none st st' [d] := by
  obtain ⟨hadvances, hpasses⟩ := hst.generic (k := k) hop h
  refine .one hadvances (hst.computes_of_passes (hpasses.imp le_rfl (fun s hs => hs.swap) ?_))
  intro s t _ _ ht
  rwa [resultBytes_swap hop hcomm] at ht

/-- The operation on two constants. -/
theorem Operating.folded (hop : isByteWise op = true) {l r value : Int64}
    (hfold : fold op l r type = .ok value)
    (h : candidate (copyBytes (constBytes value type.size.toNat) ((registersOf c result).map .vreg)) c st =
      .ok (d, st')) :
    Provides c k op result (.constant l) (.constant r) type none st st' [d] := by
  obtain ⟨st₁, hbuild, rfl, rfl⟩ := candidate_ok h
  have hroom := hst.settled.room
  have hsize := size_le_two hst.scalar
  have hlength : ((registersOf c result).map ByteLoc.vreg).length = type.size.toNat := by
    rw [List.length_map, hst.housed.length]
  have hconstant : ∀ src ∈ constBytes value type.size.toNat, ∃ byte, src = .byte byte := by
    intro src hsrc
    obtain ⟨i, -, rfl⟩ := List.mem_map.mp hsrc
    exact ⟨_, rfl⟩
  obtain ⟨hlabel, hpasses⟩ := passes_copyBytes (k := k) (n := st.draft.nextVReg.toNat) hbuild
    hst.settled.fork.tracks
    (fun src hsrc => by
      obtain ⟨byte, rfl⟩ := hconstant src hsrc
      exact ⟨⟨trivial, trivial⟩, Or.inl ⟨byte, rfl⟩⟩)
    (fun dst hdst => by
      obtain ⟨v, hv, rfl⟩ := List.mem_map.mp hdst
      exact ⟨⟨trivial, hst.housed.below v hv⟩, rfl⟩) le_rfl
    (by rw [hlength]; change st.draft.nextVReg.toNat + _ < _; omega)
  refine .one ⟨rfl, hlabel.ge⟩ (hst.computes_of_passes (hpasses.imp le_rfl ?_ ?_))
  · intro s _ dst hdst
    obtain ⟨v, -, rfl⟩ := List.mem_map.mp hdst
    exact ⟨(fun a ha => by cases ha), trivial⟩
  · intro s t _ _ ht
    have hspots : ((registersOf c result).map ByteLoc.vreg).map (spotOf k s) =
        (registersOf c result).map .cell := by
      rw [List.map_map]
      rfl
    have hbytes : heldAll k s (constBytes value type.size.toNat) =
        resultBytes c k op (.constant l) (.constant r) type s := by
      rw [heldAll, constBytes, List.map_map]
      exact bytes_fold hst.scalar hop hfold
    rwa [hspots, hbytes] at ht

/-- The result stepped in place. -/
theorem Operating.stepped {ds : List Draft}
    (h : stepInPlace result op lhs rhs type c st = .ok (ds, st')) :
    Provides c k op result lhs rhs type none st st' ds := by
  unfold stepInPlace at h
  split at h
  · obtain ⟨rfl, rfl⟩ := pure_ok.mp h
    exact .none
  rename_i hunit
  obtain ⟨info, st₁, hinfo, h₁⟩ := bind_ok.mp h
  obtain ⟨rfl, -⟩ := tempInfo_ok hinfo
  split at h₁
  · obtain ⟨rfl, rfl⟩ := pure_ok.mp h₁
    exact .none
  obtain ⟨d, st₂, hd, hpure⟩ := bind_ok.mp h₁
  obtain ⟨rfl, rfl⟩ := pure_ok.mp hpure
  obtain ⟨st₃, hbuild, rfl, rfl⟩ := candidate_ok hd
  obtain ⟨dst, st₄, hdst, hstep⟩ := bind_ok.mp hbuild
  obtain ⟨rfl, rfl⟩ := destination_ok hdst
  have hspots : ((registersOf c result).map Operand.virtual).map (operandSpot k) =
      (registersOf c result).map .cell := by
    rw [List.map_map]
    rfl
  have hlocs : (registersOf c result).map ByteLoc.vreg =
      ((registersOf c result).map Operand.virtual).map .direct := by
    rw [List.map_map]
    rfl
  rw [hlocs] at hstep
  obtain ⟨hlabel, names, hfresh, hleads⟩ := leads_stepBytes (k := k) hstep
    (fun operand hoperand => by
      obtain ⟨v, -, rfl⟩ := List.mem_map.mp hoperand
      exact ⟨trivial, rfl⟩)
    (by rw [hspots]; exact hst.housed.nodup.map fun _ _ heq => Spot.cell.inj heq)
  refine .one ⟨rfl, hlabel⟩ ⟨names, hfresh, hleads.imp ?_ ?_⟩
  · intro s _ operand hoperand
    obtain ⟨v, -, rfl⟩ := List.mem_map.mp hoperand
    exact ⟨(fun a ha => by cases ha), trivial⟩
  · rintro s p - - ⟨hseek, hp⟩
    have hread : ((registersOf c result).map Spot.cell).map (get s) =
        readOf c k s type.size.toNat (.temp result) := by
      change _ = bytesOf c k s type.size.toNat (.temp result)
      rw [bytesOf_temp, if_neg (by rw [hst.housed.length]; omega), ← hst.housed.length,
        List.take_length, List.map_map]
      rfl
    rw [hspots, hread, stepped_eq_resultBytes hst.scalar (by simpa using hunit)] at hp
    exact ⟨hseek, hst.computed s (hp.mono (UInt32.toNat_lt _).le)⟩

/-- **The sequences for an operation by itself.** -/
theorem Operating.alone (hop : isByteWise op = true) {generic : Draft} {ds : List Draft} {st₁ : State}
    (hgeneric : candidate (byteWise op lhs rhs type result) c st = .ok (generic, st₁))
    (h : byteWiseCandidates generic result op lhs rhs type c st₁ = .ok (ds, st')) :
    Provides c k op result lhs rhs type none st st' ds := by
  obtain ⟨hadvances, hpasses⟩ := hst.generic (k := k) hop hgeneric
  have hfirst := Provides.one hadvances (hst.computes_of_passes hpasses)
  have hst₁ := hst.step hadvances
  have hrest : ∀ {swapped : List Draft} {st₂ : State},
      Provides c k op result lhs rhs type none st₁ st₂ swapped →
      (do return generic :: (swapped ++ (← stepInPlace result op lhs rhs type)) : Lower (List Draft))
        c st₂ = .ok (ds, st') → Provides c k op result lhs rhs type none st st' ds := by
    intro swapped st₂ hswapped hok
    obtain ⟨stepped, st₃, hstepped, hpure⟩ := bind_ok.mp hok
    obtain ⟨rfl, rfl⟩ := pure_ok.mp hpure
    exact hfirst.append (hswapped.append ((hst₁.step hswapped.advances).stepped hstepped))
  unfold byteWiseCandidates at h
  split at h
  · rename_i hcomm
    obtain ⟨d, st₂, hd, h₂⟩ := bind_ok.mp h
    exact hrest (hst₁.swapped hop hcomm hd) h₂
  · exact hrest .none h

/-! ### Together with a store -/

omit hst in
theorem continueCandidate_ok {base : Draft} {build : Lower Unit}
    (h : lowerByteWise.continueCandidate base build c st = .ok (d, st')) :
    ∃ st₁, build c { st with draft := base } = .ok ((), st₁) ∧ d = st₁.draft ∧
      st' = { st₁ with draft := st.draft } := by
  obtain ⟨old, st₁, hget, h₁⟩ := bind_ok.mp h
  cases hget
  obtain ⟨_, st₂, hset, h₂⟩ := bind_ok.mp h₁
  cases hset
  obtain ⟨_, st₃, hbuild, h₃⟩ := bind_ok.mp h₂
  obtain ⟨new, st₄, hget', h₄⟩ := bind_ok.mp h₃
  cases hget'
  obtain ⟨_, st₅, hset', h₅⟩ := bind_ok.mp h₄
  cases hset'
  obtain ⟨rfl, rfl⟩ := pure_ok.mp h₅
  exact ⟨_, hbuild, rfl, rfl⟩

/-- The bytes of a temporary that is as wide as the type are its registers. -/
theorem Operating.whole {locs : List ByteLoc} {st₁ : State}
    (h : valueBytes (.temp result) type c st₁ = .ok (locs, st')) :
    st' = st₁ ∧ locs = (registersOf c result).map .vreg := by
  obtain ⟨info, st₂, hinfo, h₁⟩ := bind_ok.mp h
  obtain ⟨rfl, htemps⟩ := tempInfo_ok hinfo
  have hvregs : info.vregs = registersOf c result := by simp [registersOf, htemps]
  have hlength := hst.housed.length
  rw [hvregs, ← hlength, List.take_length, if_neg (by simp)] at h₁
  exact (pure_ok.mp h₁).symm

/-- **The result stored behind the operation.** -/
theorem Operating.stored (hop : isByteWise op = true) {generic : Draft} {dest : Place} {node : Node}
    {st₁ st₂ : State} (hgeneric : candidate (byteWise op lhs rhs type result) c st = .ok (generic, st₁))
    (hdirect : isDirect dest = true)
    (h : lowerByteWise.continueCandidate generic (storeInto node (.temp result) dest type) c st₂ =
      .ok (d, st')) :
    Advances st₂ st' ∧
      Computes c k op result lhs rhs type (some dest) st.nextLabel st'.nextLabel st.draft d := by
  obtain ⟨hadvances₁, hpasses⟩ := hst.generic (k := k) hop hgeneric
  obtain ⟨st₃, hbuild, rfl, rfl⟩ := continueCandidate_ok h
  obtain ⟨_, st₄, hcheck, h₄⟩ := bind_ok.mp hbuild
  obtain ⟨-, rfl⟩ := checkScalar_ok hcheck
  obtain ⟨srcs, st₅, hsrcs, h₅⟩ := bind_ok.mp h₄
  obtain ⟨rfl, rfl⟩ := hst.whole hsrcs
  obtain ⟨dsts, st₆, hdsts, hcopy⟩ := bind_ok.mp h₅
  obtain ⟨rfl, operands, rfl, hcells, hspots⟩ := placeBytes_direct hst.settled.pointed hdsts hdirect
  have hroom := hst.settled.room
  have hsize := size_le_two hst.scalar
  have hgrows : st.draft.nextVReg.toNat ≤ generic.nextVReg.toNat := hpasses.grows
  have hbounded : generic.nextVReg.toNat ≤ st.draft.nextVReg.toNat + 8 := hpasses.bounded
  have hlength : (operands.map ByteLoc.direct).length = type.size.toNat := by
    have hcount := congrArg List.length (hspots k farStore)
    rw [List.length_map, length_spotsOf] at hcount
    rwa [List.length_map]
  obtain ⟨hlabel, hcopies⟩ := passes_copyBytes (k := k) (n := st.draft.nextVReg.toNat) hcopy
    (Reading.Passes.tracks hpasses hst.settled.fork.tracks)
    (fun src hsrc => by
      obtain ⟨v, hv, rfl⟩ := List.mem_map.mp hsrc
      refine ⟨⟨trivial, hst.housed.below v hv⟩, Or.inr ⟨v, rfl, fun hmem => ?_⟩⟩
      obtain ⟨operand, hoperand, heq⟩ := List.mem_map.mp hmem
      exact virtual_notMem (hspots k farStore) v (ByteLoc.direct.inj heq ▸ hoperand))
    (fun dst hdst => by
      obtain ⟨operand, hoperand, rfl⟩ := List.mem_map.mp hdst
      refine ⟨⟨(hcells operand hoperand).1, ?_⟩, rfl⟩
      cases operand with
      | virtual v => exact absurd hoperand (virtual_notMem (hspots k farStore) v)
      | _ => trivial)
    hgrows (by rw [hlength]; change generic.nextVReg.toNat + _ < _; omega)
  have hlocs : ∀ s t, (operands.map ByteLoc.direct).map (spotOf k t) =
      spotsOf c k s type.size.toNat dest := fun s t => by
    rw [List.map_map, ← hspots k s]
    rfl
  have hcell : generic.pointerCell = st.draft.pointerCell := hpasses.cell
  have hkeeps : ∀ {s t : Store}, Storable c k st.draft.pointerCell s type.size.toNat dest →
      Same st.draft.pointerCell st.draft.nextVReg.toNat (fill s ((registersOf c result).map .cell)
        (resultBytes c k op lhs rhs type s)) t → ∀ spot ∈ spotsOf c k s type.size.toNat dest,
        Keeps t spot := fun hs ht spot hspot => by
    rw [ht.keeps, keeps_fill]
    exact (hs spot hspot).2
  refine ⟨⟨rfl, hlabel.ge⟩, [], fresh_nil _ _, (Leads.of_passes ((hpasses.imp le_rfl
    (fun s (hs : Operable c k st.draft type lhs rhs (some dest) s) => hs.1)
      fun _ _ _ _ ht => ht).trans hcopies ?_)).imp (fun _ hs => hs) ?_⟩
  · intro s t hs ht dst hdst
    have hspot : spotOf k t dst ∈ spotsOf c k s type.size.toNat dest :=
      hlocs s t ▸ List.mem_map_of_mem hdst
    exact ⟨hcell ▸ (hs.2 dest rfl _ hspot).1, hkeeps (hs.2 dest rfl) ht _ hspot⟩
  · rintro s p - ⟨-, hs⟩ ⟨u, rfl, t, ht, hu⟩
    have hcomputed := hst.computed s ht
    have hheld : heldAll k t ((registersOf c result).map .vreg) = resultBytes c k op lhs rhs type s := by
      rw [← hcomputed.holds, heldAll, List.map_map, List.map_map]
      rfl
    rw [hlocs s t, hheld, hcell] at hu
    refine ⟨rfl, hcomputed.hand_on (computed_fill (nodup_spotsOf (Constants.size_cases hst.scalar) dest)
      (hkeeps (hs dest rfl) ht) (hs dest rfl).visible
      ((length_resultBytes s).trans (length_spotsOf _ _).symm) hu)⟩

/-- **Memory stepped in place**, if the step is all that the operation and the store come to. -/
theorem Operating.fused {stored : Temp} {dest : Place} {storeType : ValueType}
    (h : fusedStep result op lhs rhs type stored dest storeType c st = .ok (some d, st')) :
    stored = result ∧ storeType = type ∧ usesOf c.function result = 1 ∧ isDirect dest = true ∧
      Provides c k op result lhs rhs type (some dest) st st' [d] := by
  unfold fusedStep at h
  obtain ⟨c', st₁, hread, h₁⟩ := bind_ok.mp h
  cases hread
  split at h₁
  · cases (pure_ok.mp h₁).1
  rename_i hguard
  simp only [Bool.or_eq_true, decide_eq_true_eq, not_or, ne_eq, not_not] at hguard
  obtain ⟨⟨rfl, rfl⟩, huses⟩ := hguard
  split at h₁
  · cases (pure_ok.mp h₁).1
  rename_i hunit
  obtain ⟨bytes, st₂, hbytes, h₂⟩ := bind_ok.mp h₁
  have hsize := Constants.size_cases hst.scalar
  split at h₂
  · cases (pure_ok.mp h₂).1
  rename_i hany
  have hdirect := isDirect_of_placeBytes hst.settled.pointed hbytes (by omega)
    (Bool.eq_false_iff.mpr hany)
  obtain ⟨rfl, operands, rfl, hcells, hspots⟩ := placeBytes_direct hst.settled.pointed hbytes hdirect
  obtain ⟨d', st₃, hd, hpure⟩ := bind_ok.mp h₂
  obtain ⟨heq, rfl⟩ := pure_ok.mp hpure
  obtain rfl : d = d' := Option.some.inj heq
  refine ⟨rfl, rfl, huses, hdirect, ?_⟩
  obtain ⟨st₄, hbuild, rfl, rfl⟩ := candidate_ok hd
  obtain ⟨hlabel, names, hfresh, hleads⟩ := leads_stepBytes (k := k) hbuild hcells
    (by rw [hspots k farStore]; exact nodup_spotsOf hsize dest)
  refine .one ⟨rfl, hlabel⟩ ⟨names, hfresh, hleads.imp ?_ ?_⟩
  · intro s hs operand hoperand
    exact hs.2 dest rfl _ (hspots k s ▸ List.mem_map_of_mem hoperand)
  · rintro s p - hs ⟨hseek, hp⟩
    have hread : (spotsOf c k s storeType.size.toNat dest).map (get s) =
        readOf c k s storeType.size.toNat (.memory dest) := by
      rw [readOf, spotsOf, List.map_map]
      exact List.map_congr_left fun i _ => by rw [found_of_isDirect hdirect]; rfl
    rw [hspots k s, hread, stepped_eq_resultBytes hst.scalar (by simpa using hunit)] at hp
    exact ⟨hseek, computed_fill (nodup_spotsOf hsize dest) (fun spot hspot => (hs.2 dest rfl spot hspot).2)
      (hs.2 dest rfl).visible ((length_resultBytes s).trans (length_spotsOf _ _).symm)
      (hp.mono (UInt32.toNat_lt _).le)⟩

/-- Where memory cannot be stepped in place, nothing has happened. -/
theorem Operating.unfused {stored : Temp} {dest : Place} {storeType : ValueType}
    (h : fusedStep result op lhs rhs type stored dest storeType c st = .ok (none, st')) :
    st' = st := by
  unfold fusedStep at h
  obtain ⟨c', st₁, hread, h₁⟩ := bind_ok.mp h
  cases hread
  split at h₁
  · exact (pure_ok.mp h₁).2
  split at h₁
  · exact (pure_ok.mp h₁).2
  obtain ⟨bytes, st₂, hbytes, h₂⟩ := bind_ok.mp h₁
  obtain ⟨rfl, -⟩ := placeBytes_located hst.settled.pointed hbytes
  split at h₂
  · exact (pure_ok.mp h₂).2
  obtain ⟨d, st₃, -, hpure⟩ := bind_ok.mp h₂
  cases (pure_ok.mp hpure).1

/-! ### All sequences -/

omit hst in
/-- The place that a store which is taken along goes to. -/
def storedTo (next : Option Node) (taken : Bool) : Option Place :=
  match next with
  | some (.store _ dest _) => if taken then some dest else none
  | _ => none

omit hst in
theorem storedTo_false (next : Option Node) : storedTo next false = none := by
  unfold storedTo
  split <;> rfl

theorem Operating.byteWiseChoices (hop : isByteWise op = true) {choices : List Draft} {taken : Bool}
    (h : byteWiseChoices op result lhs rhs type next c st = .ok ((choices, taken), st')) :
    Provides c k op result lhs rhs type (storedTo next taken) st st' choices ∧
      (taken = true → usesOf c.function result = 1 ∧
        ∃ dest, next = some (.store (.temp result) dest type)) := by
  obtain ⟨generic, st₁, hgeneric, h₁⟩ := bind_ok.mp h
  have halone : (do return (← byteWiseCandidates generic result op lhs rhs type, false) :
      Lower (List Draft × Bool)) c st₁ = .ok ((choices, taken), st') →
      Provides c k op result lhs rhs type (storedTo next taken) st st' choices ∧
        (taken = true → usesOf c.function result = 1 ∧
          ∃ dest, next = some (.store (.temp result) dest type)) := by
    intro hok
    obtain ⟨ds, st₂, hds, hpure⟩ := bind_ok.mp hok
    obtain ⟨heq, rfl⟩ := pure_ok.mp hpure
    obtain ⟨rfl, rfl⟩ := Prod.mk.inj heq
    rw [storedTo_false]
    exact ⟨hst.alone hop hgeneric hds, fun hfalse => by cases hfalse⟩
  split at h₁
  · rename_i stored dest storeType
    obtain ⟨step?, st₂, hstep, h₂⟩ := bind_ok.mp h₁
    split at h₂
    · rename_i step
      obtain ⟨d, st₃, hd, hpure⟩ := bind_ok.mp h₂
      obtain ⟨heq, rfl⟩ := pure_ok.mp hpure
      obtain ⟨rfl, rfl⟩ := Prod.mk.inj heq
      obtain ⟨hadvances, -⟩ := hst.generic (k := k) hop hgeneric
      obtain ⟨rfl, rfl, huses, hdirect, hprovides⟩ := (hst.step hadvances).fused (k := k) hstep
      obtain ⟨hadvances', hcomputes⟩ := hst.stored (k := k) hop hgeneric hdirect hd
      have hlabels := hprovides.advances.trans hadvances'
      refine ⟨⟨hadvances.trans hlabels, fun d' hd' => ?_⟩, fun _ => ⟨huses, dest, rfl⟩⟩
      rcases List.mem_pair.mp hd' with rfl | rfl
      · exact hcomputes
      · have hfused := hprovides.computes d' (List.mem_singleton.mpr rfl)
        rw [hadvances.draft] at hfused
        exact hfused.mono hadvances.label hadvances'.label
    · -- No step: the store is left to be lowered by itself.
      obtain ⟨hadvances, -⟩ := hst.generic (k := k) hop hgeneric
      obtain rfl := (hst.step hadvances).unfused hstep
      exact halone h₂
  · exact halone h₁

/-- **Every sequence computes the result.** -/
theorem Operating.choices (hop : isByteWise op = true) {choices : List Draft} {taken : Bool}
    (h : operationChoices op result lhs rhs type next c st = .ok ((choices, taken), st')) :
    Provides c k op result lhs rhs type (storedTo next taken) st st' choices ∧
      (taken = true → usesOf c.function result = 1 ∧
        ∃ dest, next = some (.store (.temp result) dest type)) := by
  cases lhs with
  | constant l =>
    cases rhs with
    | constant r =>
      obtain ⟨_, st₁, hcheck, h₁⟩ := bind_ok.mp h
      obtain ⟨rfl, -⟩ := checkConstant_ok hcheck
      obtain ⟨_, st₂, hcheck', h₂⟩ := bind_ok.mp h₁
      obtain ⟨rfl, -⟩ := checkConstant_ok hcheck'
      cases hfold : fold op l r type with
      | error e =>
        simp only [hfold] at h₂
        cases h₂
      | ok folded =>
        simp only [hfold] at h₂
        obtain ⟨dst, st₃, hdst, h₃⟩ := bind_ok.mp h₂
        obtain ⟨rfl, rfl⟩ := destination_ok hdst
        obtain ⟨d, st₄, hd, hpure⟩ := bind_ok.mp h₃
        obtain ⟨heq, rfl⟩ := pure_ok.mp hpure
        obtain ⟨rfl, rfl⟩ := Prod.mk.inj heq
        rw [List.length_map, hst.housed.length] at hd
        rw [storedTo_false]
        exact ⟨hst.folded hop hfold hd, fun hfalse => by cases hfalse⟩
    | _ => exact hst.byteWiseChoices hop h
  | _ => exact hst.byteWiseChoices hop h

end Candidates

/-! ### Running a sequence -/

/-- **A run through a sequence** ends behind it, with the result computed. -/
theorem Computes.run {dest? : Option Place} {lo hi : ℕ} {base : Draft} {e : Environment}
    {front back : List Line} {x : Config}
    (h : Computes c e.linkage op result lhs rhs type dest? lo hi base d)
    (calls : Std.TreeMap ℕ CallTarget)
    (hback : ∀ n, lo ≤ n → n < hi → .label (Naming.innerLabel c.function.name n) ∉ back)
    (hx : x.line = front.length) (hs : Alert e.linkage base x.store)
    (hp : Operable c e.linkage base type lhs rhs dest? x.store) :
    ∃ y, Reaches e (front ++ d.code ++ back) calls x y ∧ y.line = front.length + d.code.length ∧
      Computed (outputs c e.linkage result type dest? x.store) (byproducts c result dest?)
        (resultBytes c e.linkage op lhs rhs type x.store) base.pointerCell base.nextVReg.toNat
        x.store y.store := by
  obtain ⟨names, hfresh, -, lines, hlines, hforward, rfl, hgoals, hrun⟩ := h
  obtain rfl : d.code = lines := hlines
  obtain ⟨-, -, hseeking, hcomputed⟩ := hrun x.store hs hp
  have hexit : ∀ line ∈ d.code, ∀ target, exit? line = some target →
      .label target ∈ front ++ d.code ++ back := fun line hline target htarget => by
    simp [mem_labelsIn.mp (hgoals line hline target htarget)]
  obtain ⟨y, hreaches, -, hstore, hat⟩ := run_follow (e := e) d.code front back
    { store := x.store } x rfl hforward hexit (lone_of_fresh hfresh hback) ⟨rfl, hx⟩
  rw [hseeking] at hat
  exact ⟨y, hreaches, hat, hstore ▸ hcomputed⟩

/-! ### Reads of temporaries -/

/-- The temporaries that a place is reached through. -/
def placeReads (place : Place) : List Temp := place.baseTemp?.toList

def valueReads : Value → List Temp
  | .constant _ => []
  | .temp x => [x]
  | .memory place => placeReads place

def optionReads (value : Option Value) : List Temp := value.toList.flatMap valueReads

/-- The temporaries that a node reads, as often as it reads them. -/
def reads : Node → List Temp
  | .copy _ value _ => valueReads value
  | .binary _ _ lhs rhs _ | .branch _ lhs rhs .. => valueReads lhs ++ valueReads rhs
  | .store value dest _ | .storeField value dest _ => valueReads value ++ placeReads dest
  | .call _ _ args _ buffer =>
    args.flatMap (fun a => valueReads a.value) ++ buffer.toList.flatMap placeReads
  | .asmCall _ a x y .. => optionReads a ++ optionReads x ++ optionReads y
  | .ret value => optionReads value
  | .setJmp _ buffer => placeReads buffer
  | .longJmp buffer value => placeReads buffer ++ valueReads value
  | .vaArg _ cursor _ => [cursor]
  | .loadField _ src _ => placeReads src
  | .jump _ | .label _ | .vaStart _ | .vaCount _ => []

theorem count_placeReads (x : Temp) (place : Place) :
    (placeReads place).count x = if place.baseTemp? = some x then 1 else 0 := by
  unfold placeReads
  cases place.baseTemp? <;> simp [List.count_singleton]

theorem count_valueReads (x : Temp) (value : Value) : (valueReads value).count x =
    match value with
    | .temp y => if y = x then 1 else 0
    | .memory place => if place.baseTemp? = some x then 1 else 0
    | .constant _ => 0 := by
  cases value with
  | constant v => rfl
  | temp y => simp [valueReads, List.count_singleton]
  | memory place => exact count_placeReads x place

theorem count_flatMap {α : Type} (f : α → List Temp) (x : Temp) (as : List α) :
    (as.flatMap f).count x = totalOf (fun a => (f a).count x) as := by
  induction as with
  | nil => rfl
  | cons a as ih => rw [List.flatMap_cons, List.count_append, ih, totalOf_cons]

theorem count_optionReads (x : Temp) (value : Option Value) :
    (optionReads value).count x = match value with
      | some v => (valueReads v).count x
      | none => 0 := by
  cases value <;> simp [optionReads]

theorem usesIn_eq (x : Temp) (node : Node) : usesIn x node = (reads node).count x := by
  have hplace := count_placeReads x
  have hvalue := count_valueReads x
  have hoption := count_optionReads x
  simp only [hvalue] at hoption
  cases node with
  | call result callee args type buffer =>
    rw [reads, List.count_append, count_flatMap]
    simp only [hvalue]
    cases buffer with
    | none => rfl
    | some place =>
      simp only [Option.toList_some, List.flatMap_cons, List.flatMap_nil, List.append_nil, hplace]
      rfl
  | vaArg result cursor type =>
    rw [reads, List.count_singleton]
    simp [usesIn]
  | asmCall | ret =>
    simp only [reads, List.count_append, hoption]
    rfl
  | _ =>
    simp only [reads, List.count_append, hvalue, hplace, List.count_nil]
    rfl

theorem usesOf_eq (f : FunctionDef) (x : Temp) : usesOf f x = (f.body.flatMap reads).count x := by
  rw [count_flatMap, usesOf]
  exact congrArg (totalOf · _) (funext (usesIn_eq x))

/-! ### Operations compute what they should -/

theorem housed_of_prepared {node : Node} (hst : Prepared c st) (hnode : node ∈ c.function.body)
    (hdefines : defines? node = some (result, type)) :
    Housed c st.draft.nextVReg.toNat result type := by
  obtain ⟨hnumbered, hpointed, hdefined⟩ := hst.facts
  obtain ⟨info, hinfo, hsize⟩ := hdefined node hnode result type hdefines
  have hregisters : ∀ {x : Temp} {info : TempInfo}, c.temps[x]? = some info →
      registersOf c x = info.vregs := fun h => by simp [registersOf, h]
  refine ⟨?_, ?_, hpointed.temps result, fun x i j v hi hj => ?_⟩
  · rw [hregisters hinfo, hnumbered.width result info hinfo, hsize]
  · rw [hregisters hinfo]
    exact hnumbered.nodup result info hinfo
  · by_cases hx : x = result
    · subst hx
      have hnodup : (registersOf c x).Nodup := hregisters hinfo ▸ hnumbered.nodup x info hinfo
      obtain ⟨hlt, hi'⟩ := List.getElem?_eq_some_iff.mp hi
      obtain ⟨hlt', hj'⟩ := List.getElem?_eq_some_iff.mp hj
      exact (hnodup.getElem_inj_iff).mp (hi'.trans hj'.symm)
    · cases hother : c.temps[x]? with
      | none => simp [registersOf, hother] at hi
      | some other =>
        rw [hregisters hother] at hi
        rw [hregisters hinfo] at hj
        exact absurd (List.mem_of_getElem? hj) (hnumbered.apart x result other info hother hinfo hx v
          (List.mem_of_getElem? hi))

/-- **A byte-wise operation computes the exact result of what is read for its operands.**  Every
sequence that lowering chooses from leads, from the operation, to the point behind it; there the
result, or the place that it is stored to if the store is taken along, holds the exact result modulo
the size of the type, and nothing else has changed but the scratch pointer, new registers, and the
temporary of a result that is stored.  A store is taken along only if nothing else reads the result.
What is read is the value of the operand, unless its second byte is behind offset 255 of a
pointer. -/
theorem operation_computes {taken : Bool} (hst : Prepared c st) (htracks : TracksA st.draft)
    (hroom : st.draft.nextVReg.toNat + 16 < 2 ^ 32)
    (hnode : .binary result op lhs rhs type ∈ c.function.body) (hop : isByteWise op = true)
    (h : lowerNode (.binary result op lhs rhs type) next c st = .ok (taken, st')) :
    ∃ choices st₁, operationChoices op result lhs rhs type next c st = .ok ((choices, taken), st₁) ∧
      (∃ d ∈ choices, st'.draft = st.draft.commit d) ∧
      (taken = true → (∃ dest, next = some (.store (.temp result) dest type)) ∧
        (c.function.body.flatMap reads).count result = 1) ∧
      ∀ d ∈ choices, ∀ (e : Environment) (calls : Std.TreeMap ℕ CallTarget) (front back : List Line)
        (x : Config),
        (∀ n, st.nextLabel ≤ n → n < st'.nextLabel →
          .label (Naming.innerLabel c.function.name n) ∉ back) →
        x.line = front.length → Alert e.linkage st.draft x.store →
        Operable c e.linkage st.draft type lhs rhs (storedTo next taken) x.store →
        (∃ y bytes, Reaches e (front ++ d.code ++ back) calls x y ∧
          y.line = front.length + d.code.length ∧
          Computed (outputs c e.linkage result type (storedTo next taken) x.store)
            (byproducts c result (storedTo next taken)) bytes st.draft.pointerCell
            st.draft.nextVReg.toNat x.store y.store ∧
          (natural bytes : ℤ) =
            exact op (number type.isSigned (readOf c e.linkage x.store type.size.toNat lhs))
              (number type.isSigned (readOf c e.linkage x.store type.size.toNat rhs)) %
            256 ^ type.size.toNat) ∧
        ∀ value, value = lhs ∨ value = rhs → ¬Wraps type.size.toNat value →
          readOf c e.linkage x.store type.size.toNat value =
            bytesOf c e.linkage x.store type.size.toNat value := by
  obtain ⟨hscalar, choices, st₁, hchoices, d, hd, rfl⟩ := lowerNode_binary_ok hop h
  have hoperating : Operating c st result type :=
    ⟨⟨hst.facts.2.1, htracks, hroom⟩, hscalar, housed_of_prepared hst hnode rfl⟩
  obtain ⟨hprovides, htaken⟩ := hoperating.choices (k := plainLinkage) hop hchoices
  refine ⟨choices, st₁, hchoices, ⟨d, hd, by rw [hprovides.advances.draft]⟩, fun htrue => ?_,
    fun d' hd' e calls front back x hback hx hs hp => ⟨?_, fun value _ => readOf_eq⟩⟩
  · obtain ⟨huses, hnext⟩ := htaken htrue
    exact ⟨hnext, usesOf_eq c.function result ▸ huses⟩
  · have hcomputes := (hoperating.choices (k := e.linkage) hop hchoices).1.computes d' hd'
    obtain ⟨y, hreaches, hline, hcomputed⟩ := hcomputes.run calls hback hx hs hp
    exact ⟨y, _, hreaches, hline, hcomputed, natural_resultBytes hop x.store⟩

/-! ### A sum with a word behind offset 255 -/

/-- One more than the word at offset 255. -/
def farSum : Node := .binary 1 .add farWord (.constant 1) .u16

/-- A function with a pointer and a word. -/
def sumContext : Context :=
  { farContext [farSum] with temps := followContext.temps.insert 1 ⟨[⟨2⟩, ⟨3⟩], .u16⟩ }

def sumState : State := { draft := .create 0x90 4, nextLabel := 0 }

/-- **The word is `$0505` and the sum is `$0006`**: the second byte is taken from the start of the
page. -/
theorem farSum_misses :
    ∃ st' d, lowerNode farSum none sumContext sumState = .ok (false, st') ∧
      st'.draft = sumState.draft.commit d ∧
      bytesOf sumContext plainLinkage farStore 2 farWord = [5, 5] ∧
      ∀ (e : Environment) (calls : Std.TreeMap ℕ CallTarget), e.linkage = plainLinkage →
        ∃ y, Reaches e d.code calls { line := 0, store := farStore } y ∧ y.line = d.code.length ∧
          natural [y.store.cells ⟨2⟩, y.store.cells ⟨3⟩] = 6 := by
  obtain ⟨st', hok⟩ : ∃ st', lowerNode farSum none sumContext sumState = .ok (false, st') := ⟨_, rfl⟩
  have hprepared : Prepared sumContext sumState := by
    refine ⟨⟨⟨sumContext.temps, 4⟩, rfl, rfl, by decide⟩, fun v hv => ?_, by decide, by decide⟩
    cases hv
  obtain ⟨choices, st₁, -, ⟨d, hd, hcommit⟩, -, hall⟩ := operation_computes hprepared
    (fun _ h => (List.not_mem_nil h).elim) (by decide)
    (List.mem_cons_of_mem _ (List.mem_singleton.mpr rfl)) rfl hok
  have hwords := readOf_farWord [farSum]
  have hread : readOf sumContext plainLinkage farStore 2 farWord = [5, 0] := hwords.1
  refine ⟨st', d, hok, hcommit, hwords.2, fun e calls he => ?_⟩
  have halert : Alert e.linkage sumState.draft farStore :=
    ⟨⟨knows_nothing, plain_farStore (by decide), plain_farStore (by decide)⟩, tells_none⟩
  have hreadable : Readable sumContext plainLinkage 0x90 farStore 2 farWord := by
    rintro place hplace i hi
    obtain rfl : place = .indirect 0 0xFF := (Value.memory.inj hplace).symm
    exact readable_farWord [farSum] _ hplace i hi
  obtain ⟨⟨y, bytes, hreaches, hline, hcomputed, hnatural⟩, -⟩ := hall d hd e calls [] []
    { line := 0, store := farStore } (fun _ _ _ hmem => (List.not_mem_nil hmem).elim) rfl halert
    ⟨⟨he ▸ hreadable, readable_constant _ _ _⟩, fun dest hdest => by cases hdest⟩
  rw [List.nil_append, List.append_nil] at hreaches
  refine ⟨y, hreaches, by simpa using hline, ?_⟩
  have hbytes : [y.store.cells ⟨2⟩, y.store.cells ⟨3⟩] = bytes := hcomputed.holds
  rw [he] at hnatural
  change (natural bytes : ℤ) = exact .add
    (number false (readOf sumContext plainLinkage farStore 2 farWord)) (number false [1, 0]) %
      256 ^ 2 at hnatural
  rw [hread] at hnatural
  rw [hbytes]
  exact Int.ofNat.inj (hnatural.trans (by decide))

end Codegen6502.Proofs.Selecting.Operations
