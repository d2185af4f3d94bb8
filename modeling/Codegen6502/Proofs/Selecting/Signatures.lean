import Codegen6502.Proofs.Selecting.Bodies

/-!
# Binding signatures

A convention can pass what a signature describes if the signature keeps its rules.

* `Representable`: what the rules ask for together, and `rules`: the rules one by one, in the order
  in which they are checked, each with its error;
* `bindSignature_of_kept`, `bindSignature_eq_error`: binding succeeds if all rules are kept, and
  ends with the error of the first one that is not;
* `consecutive_items`: the slots of a shape stand one behind the other, and their sizes add up
  without overflow (`toNat_argBytes`);
* `bindNarrowing_eq`: a binding that checks every slot number it narrows to a byte is the same.
-/

namespace Codegen6502.Proofs.Selecting.Signatures

open Convention Bodies

/-! ### Rules -/

/-- The bytes of the argument area that a signature needs. -/
def areaBytes (s : Signature) : ℕ :=
  (if s.returnType.isStruct then 2 else 0) + paramBytes s.params + if s.variadic then 3 else 0

/-- The signatures whose arguments and result a convention can pass. -/
structure Representable (c : Convention) (s : Signature) : Prop where
  handler : s.entry.isInterrupt = true →
    s.variadic = false ∧ s.params = [] ∧ s.returnType = .void ∧ s.bank = .common
  result : s.returnType = .void ∨ s.returnType.isScalar = true ∨ ∃ size, s.returnType = .struct size
  params : ∀ type ∈ s.params, type.isScalar = true
  fits : areaBytes s ≤ c.zeroPage.argSlots.toNat

/-- Whether a signature keeps a rule, and the error if it does not. -/
structure Rule where
  kept : Bool
  fault : CompileError

/-- The rules for interrupt handlers. -/
def handlerRules (s : Signature) : List Rule :=
  [⟨!s.variadic, .invalidConvention s.name
      (if s.entry = .nestedInterrupt then "a recursive interrupt handler cannot be variadic"
        else "an interrupt handler cannot be variadic")⟩,
    ⟨s.params.isEmpty, .invalidConvention s.name "an interrupt handler cannot take parameters"⟩,
    ⟨s.returnType.isVoid, .invalidConvention s.name "an interrupt handler must return void"⟩,
    ⟨s.bank.isCommon, .invalidConvention s.name ("interrupt handler placed in bank " ++ s.bank.text ++
      "; handlers must live in the common area")⟩]

def resultRule (c : Convention) (s : Signature) : Rule :=
  ⟨s.returnType.isVoid || s.returnType.isScalar || s.returnType.isStruct,
    .unsupportedOperation s.name ("return of type " ++ s.returnType.text) c.target⟩

def paramRule (c : Convention) (s : Signature) (type : ValueType) : Rule :=
  ⟨type.isScalar, .unsupportedOperation s.name ("parameter of type " ++ type.text) c.target⟩

def areaRule (c : Convention) (s : Signature) : Rule :=
  ⟨areaBytes s ≤ c.zeroPage.argSlots.toNat, .invalidConvention s.name
    s!"arguments need {areaBytes s} bytes but the argument area holds {c.zeroPage.argSlots.toNat}"⟩

/-- All rules: those for handlers, the result, the parameters from the first on, the area. -/
def rules (c : Convention) (s : Signature) : List Rule :=
  (if s.entry.isInterrupt then handlerRules s else []) ++
    (resultRule c s :: (s.params.map (paramRule c s) ++ [areaRule c s]))

/-- The error of the first rule that is not kept. -/
def firstFault (rules : List Rule) : Option CompileError :=
  (rules.find? fun r => !r.kept).map (·.fault)

variable {c : Convention} {s : Signature} {e : CompileError}

theorem firstFault_append (front back : List Rule) :
    firstFault (front ++ back) = (firstFault front).or (firstFault back) := by
  unfold firstFault
  rw [List.find?_append]
  cases front.find? fun r => !r.kept <;> rfl

theorem firstFault_cons (r : Rule) (rest : List Rule) :
    firstFault (r :: rest) = if r.kept then firstFault rest else some r.fault := by
  unfold firstFault
  cases h : r.kept <;> simp [h]

theorem firstFault_eq_none {rules : List Rule} :
    firstFault rules = none ↔ ∀ r ∈ rules, r.kept = true := by
  simp [firstFault]

theorem firstFault_eq_some {rules : List Rule} : firstFault rules = some e ↔
    ∃ front r back, rules = front ++ r :: back ∧ (∀ q ∈ front, q.kept = true) ∧ r.kept = false ∧
      r.fault = e := by
  unfold firstFault
  simp only [Option.map_eq_some_iff, List.find?_eq_some_iff_append]
  constructor
  · rintro ⟨r, ⟨hr, front, back, hsplit, hfront⟩, he⟩
    exact ⟨front, r, back, hsplit, fun q hq => by simpa using hfront q hq, by simpa using hr, he⟩
  · rintro ⟨front, r, back, hsplit, hfront, hr, he⟩
    exact ⟨r, ⟨by simp [hr], front, back, hsplit, fun q hq => by simp [hfront q hq]⟩, he⟩

/-- The rules are kept together exactly by what is representable. -/
theorem kept_iff : (∀ r ∈ rules c s, r.kept = true) ↔ Representable c s := by
  have hvoid : s.returnType.isVoid = true ↔ s.returnType = .void := by
    cases s.returnType <;> simp [ValueType.isVoid]
  have hstruct : s.returnType.isStruct = true ↔ ∃ size, s.returnType = .struct size := by
    cases s.returnType <;> simp [ValueType.isStruct]
  have hcommon : s.bank.isCommon = true ↔ s.bank = .common := by
    cases s.bank <;> simp [Bank.isCommon]
  have hhandler : (∀ r ∈ if s.entry.isInterrupt then handlerRules s else [], r.kept = true) ↔
      (s.entry.isInterrupt = true →
        s.variadic = false ∧ s.params = [] ∧ s.returnType = .void ∧ s.bank = .common) := by
    cases s.entry.isInterrupt <;> simp [handlerRules, hvoid, hcommon]
  simp only [rules, List.forall_mem_append, List.forall_mem_cons, hhandler, List.forall_mem_map]
  simp only [resultRule, paramRule, areaRule, Bool.or_eq_true, or_assoc, hvoid, hstruct,
    decide_eq_true_eq, List.not_mem_nil, false_imp_iff, implies_true, and_true]
  constructor
  · rintro ⟨hhandler, hresult, hparams, hfits⟩
    exact ⟨hhandler, hresult, hparams, hfits⟩
  · rintro ⟨hhandler, hresult, hparams, hfits⟩
    exact ⟨hhandler, hresult, hparams, hfits⟩

theorem fault_ne_internal : ∀ r ∈ rules c s, ∀ problem, r.fault ≠ .internal problem := by
  intro r hr problem
  simp only [rules, List.mem_append, List.mem_cons, List.mem_map, List.not_mem_nil, or_false] at hr
  rcases hr with hr | rfl | ⟨type, -, rfl⟩ | rfl
  · have hmem : r ∈ handlerRules s := by
      cases hentry : s.entry.isInterrupt <;> simp [hentry] at hr
      exact hr
    simp only [handlerRules, List.mem_cons, List.not_mem_nil, or_false] at hmem
    rcases hmem with rfl | rfl | rfl | rfl <;> simp
  all_goals simp [resultRule, paramRule, areaRule]

/-! ### The outcome -/

theorem firstFault_handler (s : Signature) :
    firstFault (if s.entry.isInterrupt then handlerRules s else []) =
      (interruptFault? s).map (.invalidConvention s.name) := by
  unfold interruptFault? handlerRules
  cases s.entry.isInterrupt with
  | false => rfl
  | true =>
    simp only [if_true, Bool.not_true, Bool.false_eq_true, if_false, firstFault_cons]
    cases s.variadic <;> cases s.params.isEmpty <;> cases s.returnType.isVoid <;>
      cases s.bank.isCommon <;> rfl

theorem firstFault_params (types : List ValueType) :
    firstFault (types.map (paramRule c s)) = (types.find? fun t => !t.isScalar).map
      fun t => .unsupportedOperation s.name ("parameter of type " ++ t.text) c.target := by
  unfold firstFault
  rw [List.find?_map, Option.map_map]
  rfl

theorem resultRule_kept : (resultRule c s).kept = (returnKind? s.returnType).isSome := by
  unfold resultRule
  cases s.returnType <;> rfl

/-- The shape of a signature that keeps the rules. -/
def shape (c : Convention) (s : Signature) (kind : ReturnKind) : Binding :=
  let first := if s.returnType.isStruct then 2 else 0
  let base := first + paramBytes s.params
  { name := s.name
    entry := s.entry
    bank := s.bank
    placement := if c.banking then s.bank else .common
    variadic := s.variadic
    params := paramSlots first s.params
    returnKind := kind
    returnType := s.returnType
    visible := s.visible
    declaredClobbers := s.clobbers.map DeclaredClobbers.toClobbers
    resultSlot := if s.returnType.isStruct then some 0 else none
    vaCountSlot := if s.variadic then some (UInt8.ofNat base) else none
    vaPtrSlot := if s.variadic then some (UInt8.ofNat (base + 1)) else none }

theorem areaBytes_eq (s : Signature) : areaBytes s =
    if s.variadic then (if s.returnType.isStruct then 2 else 0) + paramBytes s.params + 3
    else (if s.returnType.isStruct then 2 else 0) + paramBytes s.params := by
  unfold areaBytes
  cases s.variadic <;> rfl

/-- **The outcome of binding** is the error of the first rule that is not kept, and the shape if
there is none. -/
theorem bindSignature_eq (c : Convention) (s : Signature) : c.bindSignature s =
    match firstFault (rules c s) with
    | some e => .error e
    | none => .ok (shape c s ((returnKind? s.returnType).getD .void)) := by
  have harea := areaBytes_eq s
  rw [rules, firstFault_append, firstFault_handler, firstFault_cons, firstFault_append,
    firstFault_params, resultRule_kept]
  unfold bindSignature
  cases interruptFault? s with
  | some reason => rfl
  | none =>
    cases returnKind? s.returnType with
    | none => rfl
    | some kind =>
      cases s.params.find? fun t => !t.isScalar with
      | some type => rfl
      | none =>
        by_cases hfits : areaBytes s ≤ c.zeroPage.argSlots.toNat
        · have hnot : ¬ areaBytes s > c.zeroPage.argSlots.toNat := by omega
          simp only [firstFault_cons, areaRule, hfits, decide_true, if_true, ← harea, hnot, if_false]
          rfl
        · have hmore : areaBytes s > c.zeroPage.argSlots.toNat := by omega
          simp only [firstFault_cons, areaRule, hfits, decide_false, ← harea, hmore, if_true]
          rfl

theorem bindSignature_of_kept (h : Representable c s) : c.bindSignature s =
    .ok (shape c s ((returnKind? s.returnType).getD .void)) := by
  rw [bindSignature_eq, firstFault_eq_none.mpr (kept_iff.mpr h)]

theorem bindSignature_eq_error : c.bindSignature s = .error e ↔ firstFault (rules c s) = some e := by
  rw [bindSignature_eq]
  cases firstFault (rules c s) <;> simp

theorem representable_of_bound {b : Binding} (h : c.bindSignature s = .ok b) :
    Representable c s ∧ b = shape c s ((returnKind? s.returnType).getD .void) := by
  have hnone : firstFault (rules c s) = none := by
    rw [bindSignature_eq] at h
    cases hfirst : firstFault (rules c s) with
    | none => rfl
    | some e =>
      rw [hfirst] at h
      cases h
  have hkept := kept_iff.mp (firstFault_eq_none.mp hnone)
  rw [bindSignature_of_kept hkept] at h
  exact ⟨hkept, (Except.ok.inj h).symm⟩

/-! ### Slots -/

/-- The items of a shape in their order, each by its first slot and its size: the result pointer,
the parameters, the number of variadic bytes, the pointer to them. -/
def items (b : Binding) : List (ℕ × ℕ) :=
  b.resultSlot.toList.map (fun slot => (slot.toNat, 2)) ++
    (b.params.map (fun p => (p.slot.toNat, p.size.toNat)) ++
      (b.vaCountSlot.toList.map (fun slot => (slot.toNat, 1)) ++
        b.vaPtrSlot.toList.map (fun slot => (slot.toNat, 2))))

/-- Each item begins where the one before it ends. -/
def Consecutive : ℕ → List (ℕ × ℕ) → ℕ → Prop
  | start, [], stop => start = stop
  | start, item :: rest, stop => item.1 = start ∧ Consecutive (start + item.2) rest stop

theorem Consecutive.append {front back : List (ℕ × ℕ)} {mid stop : ℕ} : ∀ {start : ℕ},
    Consecutive start front mid → Consecutive mid back stop →
      Consecutive start (front ++ back) stop := by
  induction front with
  | nil =>
    intro start h hback
    obtain rfl : start = mid := h
    exact hback
  | cons item rest ih => exact fun h hback => ⟨h.1, ih h.2 hback⟩

theorem Consecutive.bounds {list : List (ℕ × ℕ)} {stop : ℕ} : ∀ {start : ℕ},
    Consecutive start list stop → start ≤ stop ∧ ∀ item ∈ list, start ≤ item.1 ∧
      item.1 + item.2 ≤ stop := by
  induction list with
  | nil =>
    intro start h
    exact ⟨Nat.le_of_eq h, by simp⟩
  | cons first rest ih =>
    intro start h
    obtain ⟨hstart, hrest⟩ := h
    obtain ⟨hle, hall⟩ := ih hrest
    refine ⟨by omega, fun item hitem => ?_⟩
    rcases List.mem_cons.mp hitem with rfl | hitem
    · omega
    · have := hall item hitem
      omega

/-- Consecutive items do not overlap. -/
theorem Consecutive.pairwise {list : List (ℕ × ℕ)} {stop : ℕ} : ∀ {start : ℕ},
    Consecutive start list stop → list.Pairwise fun x y => x.1 + x.2 ≤ y.1 := by
  induction list with
  | nil => exact fun _ => List.Pairwise.nil
  | cons first rest ih =>
    intro start h
    obtain ⟨hstart, hrest⟩ := h
    refine List.pairwise_cons.mpr ⟨fun item hitem => ?_, ih hrest⟩
    have := (hrest.bounds.2 item hitem).1
    omega

/-- The size of a scalar fits a byte. -/
theorem toNat_size {type : ValueType} (h : type.isScalar = true) :
    type.size.toUInt8.toNat = type.size.toNat := by
  cases type <;> first | rfl | simp [ValueType.isScalar] at h

theorem paramBytes_cons (type : ValueType) (rest : List ValueType) :
    paramBytes (type :: rest) = type.size.toNat + paramBytes rest := rfl

theorem consecutive_params : ∀ (types : List ValueType) (next : ℕ),
    (∀ type ∈ types, type.isScalar = true) → next + paramBytes types < 256 →
      Consecutive next ((paramSlots next types).map fun p => (p.slot.toNat, p.size.toNat))
        (next + paramBytes types)
  | [], next, _, _ => rfl
  | type :: rest, next, hscalar, hlt => by
    have hsize := toNat_size (hscalar type (List.mem_cons_self ..))
    rw [paramBytes_cons] at hlt ⊢
    have hrest := consecutive_params rest (next + type.size.toNat)
      (fun t ht => hscalar t (List.mem_cons_of_mem _ ht)) (by omega)
    refine ⟨UInt8.toNat_ofNat_of_lt' (show next < 256 by omega), ?_⟩
    show Consecutive (next + type.size.toUInt8.toNat) _ _
    rw [hsize, ← Nat.add_assoc]
    exact hrest

theorem map_type_paramSlots : ∀ (types : List ValueType) (next : ℕ),
    (paramSlots next types).map (·.type) = types
  | [], _ => rfl
  | type :: rest, next => by rw [paramSlots, List.map_cons, map_type_paramSlots rest]

/-- The sizes of the parameters add up without overflow. -/
theorem toNat_sizes : ∀ (types : List ValueType) (next : ℕ),
    (∀ type ∈ types, type.isScalar = true) → paramBytes types < 256 →
      ((paramSlots next types).foldr (fun (p : ParamSlot) (n : UInt8) => p.size + n) 0).toNat =
        paramBytes types
  | [], _, _, _ => rfl
  | type :: rest, next, hscalar, hlt => by
    have hsize := toNat_size (hscalar type (List.mem_cons_self ..))
    rw [paramBytes_cons] at hlt ⊢
    have hrest := toNat_sizes rest (next + type.size.toNat)
      (fun t ht => hscalar t (List.mem_cons_of_mem _ ht)) (by omega)
    rw [paramSlots, List.foldr_cons, UInt8.toNat_add, hrest, hsize]
    exact Nat.mod_eq_of_lt hlt

variable {kind : ReturnKind}

theorem Representable.lt (h : Representable c s) : areaBytes s < 256 := by
  have := h.fits
  have := c.zeroPage.argSlots.toNat_lt
  omega

/-- **The slots of a shape** stand one behind the other and fill the area that is needed. -/
theorem consecutive_items (h : Representable c s) (kind : ReturnKind) :
    Consecutive 0 (items (shape c s kind)) (areaBytes s) := by
  have hlt := h.lt
  have hresult : Consecutive 0 ((shape c s kind).resultSlot.toList.map fun slot => (slot.toNat, 2))
      (if s.returnType.isStruct then 2 else 0) := by
    unfold shape
    cases s.returnType.isStruct
    · rfl
    · exact ⟨rfl, rfl⟩
  unfold areaBytes at hlt ⊢
  refine hresult.append ((consecutive_params s.params _ h.params (by omega)).append ?_)
  unfold shape
  cases hvariadic : s.variadic with
  | false => rfl
  | true =>
    rw [hvariadic, if_pos rfl] at hlt
    have hcount : ∀ n < 256, (UInt8.ofNat n).toNat = n := fun n hn => UInt8.toNat_ofNat_of_lt' hn
    exact ⟨hcount _ (by omega), hcount _ (by omega), rfl⟩

/-- **The bytes in use** are those that the signature needs. -/
theorem toNat_argBytes (h : Representable c s) (kind : ReturnKind) :
    (shape c s kind).argBytes.toNat = areaBytes s := by
  have hlt := h.lt
  unfold areaBytes at hlt ⊢
  have hsizes := toNat_sizes s.params (if s.returnType.isStruct then 2 else 0) h.params (by omega)
  have hresult : (if (shape c s kind).resultSlot.isSome then 2 else 0 : UInt8).toNat =
      if s.returnType.isStruct then 2 else 0 := by
    unfold shape
    cases s.returnType.isStruct <;> rfl
  have hva : (if s.variadic then 3 else 0 : UInt8).toNat = if s.variadic then 3 else 0 := by
    cases s.variadic <;> rfl
  have hargs : (shape c s kind).argBytes =
      (paramSlots (if s.returnType.isStruct then 2 else 0) s.params).foldr
        (fun (p : ParamSlot) (n : UInt8) => p.size + n) 0 +
        (if (shape c s kind).resultSlot.isSome then 2 else 0) + if s.variadic then 3 else 0 := rfl
  rw [hargs, UInt8.toNat_add, UInt8.toNat_add, hsizes, hresult, hva]
  omega

/-! ### Narrowing -/

/-- A slot number or a size as a byte. -/
def narrow (offset : ℕ) : Compile UInt8 :=
  if offset < 256 then .ok (UInt8.ofNat offset)
  else .error (.internal s!"argument offset {offset} out of range")

/-- The slots of the parameters, each number checked. -/
def narrowedSlots (next : ℕ) : List ValueType → Compile (List ParamSlot)
  | [] => pure []
  | type :: rest => do
    let slot ← narrow next
    let size ← narrow type.size.toNat
    let slots ← narrowedSlots (next + type.size.toNat) rest
    return ⟨slot, size, type⟩ :: slots

/-- Binds a signature with slot numbers that stay wide until the area is known to suffice. -/
def bindNarrowing (c : Convention) (s : Signature) : Compile Binding := do
  if let some reason := interruptFault? s then throw (.invalidConvention s.name reason)
  let some kind := returnKind? s.returnType
    | throw (.unsupportedOperation s.name ("return of type " ++ s.returnType.text) c.target)
  if let some type := s.params.find? fun t => !t.isScalar then
    throw (.unsupportedOperation s.name ("parameter of type " ++ type.text) c.target)
  let first := if s.returnType.isStruct then 2 else 0
  let base := first + paramBytes s.params
  if areaBytes s > c.zeroPage.argSlots.toNat then
    throw (.invalidConvention s.name
      s!"arguments need {areaBytes s} bytes but the argument area holds {c.zeroPage.argSlots.toNat}")
  let params ← narrowedSlots first s.params
  if s.variadic then
    let count ← narrow base
    let pointer ← narrow (base + 1)
    return { shape c s kind with params, vaCountSlot := some count, vaPtrSlot := some pointer }
  else return { shape c s kind with params, vaCountSlot := none, vaPtrSlot := none }

theorem narrow_ok {n : ℕ} (h : n < 256) : narrow n = .ok (UInt8.ofNat n) := if_pos h

theorem narrowedSlots_eq : ∀ (types : List ValueType) (next : ℕ),
    (∀ type ∈ types, type.isScalar = true) → next + paramBytes types < 256 →
      narrowedSlots next types = .ok (paramSlots next types)
  | [], _, _, _ => rfl
  | type :: rest, next, hscalar, hlt => by
    have hsize := toNat_size (hscalar type (List.mem_cons_self ..))
    rw [paramBytes_cons] at hlt
    have hrest := narrowedSlots_eq rest (next + type.size.toNat)
      (fun t ht => hscalar t (List.mem_cons_of_mem _ ht)) (by omega)
    have hbyte : UInt8.ofNat type.size.toNat = type.size.toUInt8 :=
      UInt8.toNat.inj (by rw [hsize, UInt8.toNat_ofNat_of_lt' (show type.size.toNat < 256 by omega)])
    rw [narrowedSlots, narrow_ok (show next < 256 by omega),
      narrow_ok (show type.size.toNat < 256 by omega), hrest, hbyte]
    rfl

/-- **No narrowing fails**: by then the whole area is known to fit. -/
theorem bindNarrowing_eq (c : Convention) (s : Signature) : bindNarrowing c s = c.bindSignature s := by
  have harea := areaBytes_eq s
  unfold bindNarrowing bindSignature
  cases interruptFault? s with
  | some reason => rfl
  | none =>
    cases returnKind? s.returnType with
    | none => rfl
    | some kind =>
      cases hfind : s.params.find? fun t => !t.isScalar with
      | some type => rfl
      | none =>
        simp only [← harea]
        by_cases hmore : areaBytes s > c.zeroPage.argSlots.toNat
        · simp only [hmore, if_true]
          rfl
        · have hscalar : ∀ type ∈ s.params, type.isScalar = true := fun type htype => by
            simpa using List.find?_eq_none.mp hfind type htype
          have hbyte := c.zeroPage.argSlots.toNat_lt
          have hlt : areaBytes s < 256 := by omega
          unfold areaBytes at hlt
          have hslots := narrowedSlots_eq s.params (if s.returnType.isStruct then 2 else 0) hscalar
            (by omega)
          simp only [hmore, if_false, hslots]
          cases hvariadic : s.variadic with
          | false =>
            unfold shape
            rw [hvariadic]
            rfl
          | true =>
            rw [hvariadic, if_pos rfl] at hlt
            have hcount := narrow_ok
              (show (if s.returnType.isStruct then 2 else 0) + paramBytes s.params < 256 by omega)
            have hpointer := narrow_ok
              (show (if s.returnType.isStruct then 2 else 0) + paramBytes s.params + 1 < 256 by omega)
            unfold shape
            simp only [hcount, hpointer, hvariadic]
            rfl

/-! ### All of it -/

/-- **What binding a signature comes to.**  It succeeds for exactly the representable signatures,
and fails with the error of the first rule that is broken; checking every narrowed number changes
nothing, so that no internal error occurs.  The shape has the result pointer where a struct comes
back, the parameters in their order and the variadic items where they are asked for, in consecutive
slots from 0 on that do not overlap, and uses as many bytes as the signature needs. -/
theorem bindSignature_ok_iff_representable (c : Convention) (s : Signature) :
    ((∃ b, c.bindSignature s = .ok b) ↔ Representable c s) ∧
    (∀ e, c.bindSignature s = .error e ↔ ∃ front rule back, rules c s = front ++ rule :: back ∧
      (∀ r ∈ front, r.kept = true) ∧ rule.kept = false ∧ rule.fault = e) ∧
    bindNarrowing c s = c.bindSignature s ∧
    (∀ problem, c.bindSignature s ≠ .error (.internal problem)) ∧
    ∀ b, c.bindSignature s = .ok b →
      Consecutive 0 (items b) (areaBytes s) ∧
      (items b).Pairwise (fun x y => x.1 + x.2 ≤ y.1) ∧
      b.params.map (·.type) = s.params ∧ (∀ p ∈ b.params, p.size.toNat = p.type.size.toNat) ∧
      (b.resultSlot.isSome = s.returnType.isStruct ∧ b.vaCountSlot.isSome = s.variadic ∧
        b.vaPtrSlot.isSome = s.variadic) ∧
      returnKind? s.returnType = some b.returnKind ∧
      b.argBytes.toNat = areaBytes s ∧ areaBytes s ≤ c.zeroPage.argSlots.toNat := by
  refine ⟨⟨fun ⟨b, hb⟩ => (representable_of_bound hb).1, fun h => ⟨_, bindSignature_of_kept h⟩⟩,
    fun e => bindSignature_eq_error.trans firstFault_eq_some, bindNarrowing_eq c s,
    fun problem h => ?_, fun b hb => ?_⟩
  · -- No rule has an internal error.
    obtain ⟨front, rule, back, hsplit, -, -, hfault⟩ :=
      firstFault_eq_some.mp (bindSignature_eq_error.mp h)
    have hmem : rule ∈ rules c s := by
      rw [hsplit]
      simp
    exact fault_ne_internal rule hmem problem hfault
  · obtain ⟨hfit, hkind, -⟩ := bindSignature_ok hb
    obtain ⟨h, rfl⟩ := representable_of_bound hb
    have hslots := consecutive_items h ((returnKind? s.returnType).getD .void)
    refine ⟨hslots, hslots.pairwise, map_type_paramSlots _ _, fun p hp => ?_, ⟨?_, ?_, ?_⟩, hkind,
      toNat_argBytes h _, h.fits⟩
    · obtain ⟨hscalar, hsize⟩ := hfit p hp
      rw [hsize, toNat_size hscalar]
    · unfold shape
      cases s.returnType.isStruct <;> rfl
    · unfold shape
      cases s.variadic <;> rfl
    · unfold shape
      cases s.variadic <;> rfl

/-- A function with all that there can be: a struct comes back, and some of its arguments are
variadic. -/
def formatter : Signature :=
  { name := "format", params := [.ptr, .u8], returnType := .struct 6, variadic := true }

theorem formatter_binds : ∃ b, bindSignature ⟨{}, true, "mos6502", 0xD500⟩ formatter = .ok b ∧
    items b = [(0, 2), (2, 2), (4, 1), (5, 1), (6, 2)] ∧ b.argBytes.toNat = areaBytes formatter := by
  obtain ⟨hiff, -, -, -, hshape⟩ :=
    bindSignature_ok_iff_representable ⟨{}, true, "mos6502", 0xD500⟩ formatter
  have hrepresentable : Representable ⟨{}, true, "mos6502", 0xD500⟩ formatter :=
    ⟨by decide, Or.inr (Or.inr ⟨6, rfl⟩), by decide, by decide⟩
  obtain ⟨b, hb⟩ := hiff.mpr hrepresentable
  obtain ⟨-, -, -, -, -, -, hbytes, -⟩ := hshape b hb
  refine ⟨b, hb, ?_, hbytes⟩
  cases hb
  rfl

end Codegen6502.Proofs.Selecting.Signatures
