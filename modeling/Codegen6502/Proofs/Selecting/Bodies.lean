import Codegen6502.Proofs.Selecting.Nodes

/-!
# The shape of calls, returns and whole bodies

Around a call bytes are pushed and pulled, and X carries arguments and results.  `Fits` says what a
set of rules must allow for the body of a function; `forms_lowerBody` that its code is then a walk
under the rules, and `selected_outline` the same for the whole code of a function.
-/

namespace Codegen6502.Proofs.Selecting.Bodies

open Selection Places Growth Shapes Nodes

variable {c : Context} {r : Rules} {reach : UInt8 → Prop}

/-! ### Bytes in the argument area -/

theorem lays_argLoc {p : Entry → Prop} (reach : UInt8 → Prop) (slot : UInt8) :
    Lays c p (argLoc slot) (Sited reach) :=
  .still (fun st loc st' hok => by cases hok; exact ⟨rfl, trivial⟩) each_nil

theorem lays_passByte {slot : UInt8} {byte : ByteLoc} (h : Sited reach byte) :
    Lays c (Growth.Plain reach) (passByte slot byte) fun _ => True :=
  (lays_loadA h).plain.next fun _ _ => (lays_argLoc reach slot).next fun _ hloc =>
    (lays_storeA hloc).plain

theorem lays_passBytes : ∀ (bytes : List ByteLoc) (slot : UInt8), SitedAll reach bytes →
    Lays c (Growth.Plain reach) (passBytes slot bytes) fun _ => True
  | [], _, _ => .pure trivial each_nil
  | _ :: rest, slot, h =>
    (lays_passByte h.head).next fun _ _ => lays_passBytes rest (slot + 1) h.tail

theorem sitedAll_pair {lo hi : ByteLoc} (hlo : Sited reach lo) (hhi : Sited reach hi) :
    SitedAll reach [lo, hi] := by
  intro loc hloc
  rcases List.mem_pair.mp hloc with rfl | rfl <;> assumption

/-- The address of a place. -/
theorem lays_addressBytes {place : Place} {node : Node} :
    Lays c (Growth.Plain reach) (addressBytes place node) fun pair =>
      SitedAll reach [pair.1, pair.2] := by
  have hplus : ∀ (pointer : PointerPair) (offset : UInt8),
      Lays c (Growth.Plain reach) (pointerPlus pointer offset) fun pair =>
        SitedAll reach [pair.1, pair.2] := by
    intro pointer offset
    have hpair : ∀ lo hi : VReg, SitedAll reach [.vreg lo, .vreg hi] := fun lo hi =>
      sitedAll_pair (sited_vreg lo) (sited_vreg hi)
    unfold pointerPlus
    split
    · exact .pure (hpair _ _) each_nil
    · refine lays_newPair.next fun pair _ => (lays_loadA (sited_vreg _)).plain.next fun _ _ => ?_
      refine (lays_bare (by rfl)).next fun _ _ => ?_
      refine (lays_op (by rfl) (by trivial) (by rfl)).next fun _ _ => ?_
      refine (lays_storeA (sited_vreg _)).plain.next fun _ _ => ?_
      refine (lays_loadA (sited_vreg _)).plain.next fun _ _ => ?_
      refine (lays_op (by rfl) (by trivial) (by rfl)).next fun _ _ => ?_
      exact (lays_storeA (sited_vreg _)).plain.next fun _ _ => .pure (hpair _ _) each_nil
  cases place with
  | absolute address => exact .pure (sitedAll_pair trivial trivial) each_nil
  | global name offset => exact .pure (sitedAll_pair trivial trivial) each_nil
  | frameByte offset => exact lays_unsupported node
  | banked bank offset => exact lays_unsupported node
  | iocb channel field =>
    refine Lowers.next (Q := fun _ => True) ?_ fun address _ =>
      .pure (sitedAll_pair trivial trivial) each_nil
    unfold iocbAddress
    split
    · exact .pure trivial each_nil
    · exact lays_invalid _
  | indirect base offset =>
    exact Lowers.next (Q := fun _ => True)
      (.still (fun st pointer st' hok => ⟨(pointerOf_ok hok).1, trivial⟩) each_nil)
      fun pointer _ => hplus pointer offset
  | returnSlot offset =>
    exact Lowers.next (Q := fun _ => True)
      (.still (fun st pointer st' hok => ⟨(resultPointer_ok hok).1, trivial⟩) each_nil)
      fun pointer _ => hplus pointer offset

/-! ### Pushes and pulls -/

theorem length_mapM {α β : Type} {f : α → Lower β} : ∀ {as : List α} {bs : List β}
    {st st' : State}, as.mapM f c st = .ok (bs, st') → bs.length = as.length
  | [], bs, st, st', h => by
    obtain ⟨rfl, -⟩ := pure_ok.mp h
    rfl
  | a :: as, bs, st, st', h => by
    rw [List.mapM_cons] at h
    obtain ⟨b, st₁, -, hrest⟩ := bind_ok.mp h
    obtain ⟨bs', st₂, hbs, hpure⟩ := bind_ok.mp hrest
    obtain ⟨rfl, -⟩ := pure_ok.mp hpure
    rw [List.length_cons, List.length_cons, length_mapM hbs]

theorem length_valueBytes {value : Value} {type : ValueType} {locs : List ByteLoc}
    {st st' : State} (h : valueBytes value type c st = .ok (locs, st')) :
    locs.length = type.size.toNat := by
  cases value with
  | constant value =>
    obtain ⟨u, st₁, -, hpure⟩ := bind_ok.mp h
    obtain ⟨rfl, -⟩ := pure_ok.mp hpure
    simp [constBytes]
  | memory place => rw [length_mapM h, List.length_range]
  | temp x =>
    obtain ⟨info, st₁, -, hrest⟩ := bind_ok.mp h
    have hfilled : ∀ fill : ByteLoc, (info.vregs.take type.size.toNat).length < type.size.toNat →
        ((info.vregs.take type.size.toNat).map ByteLoc.vreg ++ List.replicate (type.size.toNat -
          ((info.vregs.take type.size.toNat).map ByteLoc.vreg).length) fill).length =
            type.size.toNat := by
      intro fill hshort
      simp only [List.length_append, List.length_map, List.length_replicate]
      omega
    simp only at hrest
    split at hrest
    · rename_i hshort
      rw [List.length_map] at hshort
      split at hrest
      · cases hlast : info.vregs.getLast? with
        | some top =>
          simp only [hlast] at hrest
          obtain ⟨fill, st₂, -, hpure⟩ := bind_ok.mp hrest
          obtain ⟨rfl, -⟩ := pure_ok.mp hpure
          exact hfilled fill hshort
        | none =>
          simp only [hlast] at hrest
          cases hrest
      · obtain ⟨fill, st₂, -, hpure⟩ := bind_ok.mp hrest
        obtain ⟨rfl, -⟩ := pure_ok.mp hpure
        exact hfilled fill hshort
    · rename_i hlong
      obtain ⟨rfl, -⟩ := pure_ok.mp hrest
      simp only [List.length_map, List.length_take] at hlong ⊢
      omega

/-- The bytes of a value as they are pushed. -/
theorem lowers_valueBytes {value : Value} {type : ValueType} {d : ℕ} {known : String → Prop}
    (hd : d ≤ r.deepest) (h : ReachesValue r.reach value type.size.toNat) :
    Walks c r known ⟨d, false⟩ ⟨d, false⟩ (valueBytes value type) fun locs =>
      SitedAll r.reach locs ∧ locs.length = type.size.toNat := by
  intro st locs st' hok htracks
  have hwalk : Walks c r known ⟨d, false⟩ ⟨d, false⟩ (valueBytes value type) (SitedAll r.reach) :=
    walks_plain hd (lays_valueBytes h)
  obtain ⟨hes, hsited⟩ := hwalk st locs st' hok htracks
  exact ⟨hes, hsited, length_valueBytes hok⟩

section Pushes

variable {known : String → Prop}

theorem walks_pushBytes : ∀ (bytes : List ByteLoc) (n : ℕ), SitedAll r.reach bytes →
    n + bytes.length ≤ r.deepest →
    Walks c r known ⟨n, false⟩ ⟨n + bytes.length, false⟩
      (bytes.forM fun byte => do loadA byte; bare .pha) fun _ => True
  | [], n, _, _ => .pure trivial (.nil _)
  | byte :: rest, n, h, hdeep => by
    rw [List.length_cons] at hdeep ⊢
    have hrest := walks_pushBytes rest (n + 1) h.tail (by omega)
    rw [Nat.add_right_comm, Nat.add_assoc] at hrest
    have hfirst : Walks c r known ⟨n, false⟩ ⟨n + 1, false⟩
        (do loadA byte; bare .pha) fun _ => True :=
      Walks.next (walks_plain (by omega) (lays_loadA h.head).plain) fun _ _ =>
        walks_push (.push n false)
    exact hfirst.next fun _ _ => hrest

/-- The bytes of variadic arguments. -/
def sizeOf (args : List Argument) : ℕ := totalOf (fun a => a.type.size.toNat) args

theorem sizeOf_cons (arg : Argument) (rest : List Argument) :
    sizeOf (arg :: rest) = sizeOf rest + arg.type.size.toNat := by
  rw [Nat.add_comm]
  exact totalOf_cons (fun a : Argument => a.type.size.toNat) arg rest

theorem walks_pushVariadic {node : Node} : ∀ args : List Argument,
    (∀ a ∈ args, ReachesValue r.reach a.value a.type.size.toNat) → sizeOf args ≤ r.deepest →
    Walks c r known idle ⟨sizeOf args, false⟩ (pushVariadic node args) fun block =>
      block.toNat = sizeOf args
  | [], _, _ => .pure rfl (.nil _)
  | arg :: rest, h, hdeep => by
    rw [sizeOf_cons] at hdeep ⊢
    refine (walks_pushVariadic rest (fun a ha => h a (List.mem_cons_of_mem _ ha))
      (by omega)).next fun above habove => ?_
    refine Walks.next (q := ⟨sizeOf rest, false⟩) (Q := fun _ => True)
      ((quiet_checkScalar arg.type node).imp (fun es hes => by rw [hes]; exact .nil _)
        fun _ _ => trivial) fun _ _ => ?_
    refine Walks.next (lowers_valueBytes (Nat.le_of_add_right_le hdeep)
      (h arg (List.mem_cons_self ..))) fun locs hlocs => ?_
    refine Walks.next (q := ⟨sizeOf rest + arg.type.size.toNat, false⟩) (Q := fun _ => True) ?_
      fun _ _ => (quiet_lift _).imp (fun es hes => by rw [hes]; exact .nil _) fun block hblock => ?_
    · rw [← hlocs.2, ← List.length_reverse] at hdeep ⊢
      exact walks_pushBytes _ _ (fun loc hloc => hlocs.1 loc (List.mem_reverse.mp hloc)) hdeep
    · rw [addWords_eq_ok_iff.mp hblock, habove]

theorem walks_pulls : ∀ n : ℕ, Walks c r known ⟨n, false⟩ idle
    (times n (bare .pla)) fun _ => True
  | 0 => .pure trivial (.nil _)
  | n + 1 => Walks.next (walks_push (.pull n false)) fun _ _ => walks_pulls n

end Pushes

/-! ### Calls -/

section Calls

variable {known : String → Prop} {d : ℕ}

/-- A plain instruction without an operand that allocation replaces may stand where X is needed. -/
theorem walks_bare {x : Bool} {opcode : Opcode} (hd : d ≤ r.deepest)
    (hop : isPlain opcode = true) :
    Walks c r known ⟨d, x⟩ ⟨d, x⟩ (bare opcode) fun _ => True := by
  refine walks_push ?_
  rcases bare_eq opcode with h | h <;> rw [h] <;>
    exact .plain hop trivial (fun hpre => by cases hpre) hd fun _ hpre => by cases hpre

/-- X is moved out of the way first. -/
theorem walks_storeWord {dst : List ByteLoc} (hd : d ≤ r.deepest) (h : SitedAll r.reach dst) :
    Walks c r known ⟨d, true⟩ ⟨d, false⟩ (storeWord dst) fun _ => True := by
  unfold storeWord
  split
  · refine (walks_bare hd rfl).next fun _ _ => ?_
    refine Walks.next (walks_push (.useX d true false (Or.inl rfl) fun _ => rfl)) fun _ _ => ?_
    refine Walks.next (walks_plain hd (lays_storeA h.tail.head).plain) fun _ _ => ?_
    exact (walks_bare hd rfl).next fun _ _ => walks_plain hd (lays_storeA h.head).plain
  · exact lays_internal _

/-- The arguments of a call fit the slots of its callee. -/
theorem quiet_checkBuffer {callee : String} {shape : Binding} {buffer : Option Place}
    {P : Unit → Prop} (hP : P ()) : Quiet c (match shape.resultSlot, buffer with
      | some _, none =>
        invalid ("call to '" ++ callee ++ "' needs a buffer for its structure result")
      | none, some _ =>
        invalid ("call to '" ++ callee ++ "' passes a result buffer it does not use")
      | _, _ => pure ()) P := by
  split
  · exact lays_invalid _
  · exact lays_invalid _
  · exact quiet_pure hP

theorem quiet_checkCall {callee : String} {shape : Binding} {args : List Argument}
    {buffer : Option Place} : Quiet c (checkCall callee shape args buffer) fun _ =>
      (∀ pair ∈ args.zip shape.params, pair.1.type.size = pair.2.size.toUInt16) ∧
        (shape.variadic = false → args.length = shape.params.length) := by
  unfold checkCall
  simp only
  split
  · exact Quiet.next (Q := fun _ => False) (lays_invalid _) fun _ h => h.elim
  · split
    · exact Quiet.next (Q := fun _ => False) (lays_invalid _) fun _ h => h.elim
    · rename_i hcount _ hfind
      simp only [Bool.or_eq_true, Bool.and_eq_true, Bool.not_eq_true', decide_eq_true_eq, not_or,
        not_and, not_not] at hcount
      refine quiet_checkBuffer ⟨fun pair hpair => ?_, hcount.2⟩
      have hnone : (args.zip shape.params).find? checkCall.mismatched = none := by
        cases hfound : (args.zip shape.params).find? checkCall.mismatched with
        | none => rfl
        | some found => exact absurd hfound (hfind found.1 found.2)
      have := List.find?_eq_none.mp hnone pair hpair
      simpa [checkCall.mismatched] using this

/-- The address and the size of the block of variadic arguments that has been pushed. -/
def passPointer (callee : String) (shape : Binding) (block : UInt16) : Lower UInt16 := do
  if block > 0xFF then
    invalid (toString block.toNat ++ " bytes of variadic arguments to '" ++ callee ++ "'")
  match shape.vaCountSlot, shape.vaPtrSlot with
  | some count, some pointer =>
    bare .tsx
    bare .inx
    op .stx (.zeroPage ((← read).convention.zeroPage.arg pointer))
    passByte (pointer + 1) (.byte 0x01)
    passByte count (.byte block.toUInt8)
    return block
  | _, _ => internal "variadic callee without variadic slots"

theorem passVariadic_eq (node : Node) (callee : String) (shape : Binding) (extra : List Argument) :
    passVariadic node callee shape extra = (do
      let block ← pushVariadic node extra
      passPointer callee shape block) := rfl

theorem walks_passPointer {callee : String} {shape : Binding} {block : UInt16}
    (hd : d ≤ r.deepest) :
    Walks c r known ⟨d, false⟩ ⟨d, false⟩ (passPointer callee shape block) (· = block) := by
  unfold passPointer
  simp only
  split
  · exact Walks.next (Q := fun _ => False) (q := ⟨d, false⟩) (lays_invalid _) fun _ h => h.elim
  · split
    · refine Walks.next (walks_push (.setX _ false true (Or.inr (Or.inl rfl)) hd)) fun _ _ => ?_
      refine Walks.next (walks_push (.useX _ true true (Or.inr (Or.inl rfl)) fun _ => rfl))
        fun _ _ => ?_
      refine quiet_read.next fun c' _ => ?_
      refine Walks.next (walks_push (.useX _ true false (Or.inr (Or.inr ⟨_, rfl⟩)) fun _ => rfl))
        fun _ _ => ?_
      refine Walks.next (walks_plain hd (lays_passByte trivial)) fun _ _ => ?_
      exact Walks.next (walks_plain hd (lays_passByte trivial)) fun _ _ => .pure rfl (.nil _)
    · exact lays_internal _

theorem walks_passVariadic {node : Node} {callee : String} {shape : Binding}
    {extra : List Argument} (h : ∀ a ∈ extra, ReachesValue r.reach a.value a.type.size.toNat)
    (hdeep : sizeOf extra ≤ r.deepest) :
    Walks c r known idle ⟨sizeOf extra, false⟩ (passVariadic node callee shape extra)
      (·.toNat = sizeOf extra) := by
  rw [passVariadic_eq]
  refine (walks_pushVariadic extra h hdeep).next fun block hblock => ?_
  exact (walks_passPointer hdeep).imp (fun _ hes => hes) fun _ heq => heq ▸ hblock

theorem lays_passArguments : ∀ pairs : List (Argument × ParamSlot),
    (∀ pair ∈ pairs, ReachesValue reach pair.1.value pair.2.type.size.toNat) →
    Lays c (Growth.Plain reach) (passArguments pairs) fun _ => True
  | [], _ => .pure trivial each_nil
  | (_, param) :: rest, h =>
    (lays_valueBytes (h _ (List.mem_cons_self ..))).next fun bytes hbytes =>
      (lays_passBytes bytes param.slot hbytes).next fun _ _ =>
        lays_passArguments rest fun pair hpair => h pair (List.mem_cons_of_mem _ hpair)

theorem walks_emitCall {callee : String} {kind : Convention.CallKind} (x : Bool)
    (hd : d ≤ r.deepest) :
    Walks c r known ⟨d, false⟩ ⟨d, x⟩ (emitCall callee kind) fun _ => True := by
  cases kind with
  | direct =>
    exact walks_call (.call d false x rfl (fun _ h => by cases h) fun h => by cases h)
  | trampoline bank =>
    refine Walks.next (walks_plain hd (lays_op rfl trivial rfl)) fun _ _ => ?_
    refine Walks.next (walks_push (.setX d false true (Or.inr (Or.inr ⟨_, rfl⟩)) hd)) fun _ _ => ?_
    refine (quiet_uses _).next fun _ _ => ?_
    exact walks_call (.call d true x rfl (fun _ _ => rfl) fun h => by cases h)

theorem walks_storeResult {callee : String} {shape : Binding} {result : Temp}
    (hd : d ≤ r.deepest) :
    Walks c r known ⟨d, decide (shape.returnKind = .word)⟩ ⟨d, false⟩
      (storeResult callee shape result) fun _ => True := by
  refine (quiet_destination r.reach result).next fun dst hdst => ?_
  split
  · rename_i hkind
    rw [hkind]
    exact walks_plain hd (lays_storeA hdst.head).plain
  · rename_i hkind
    rw [hkind]
    exact walks_storeWord hd hdst
  · exact lays_invalid _

/-- The shape of the callee of a call. -/
def shapeOf (c : Context) (callee : String) (args : List Argument) (type : ValueType) :
    Compile Binding :=
  match c.bindings[callee]? with
  | some shape => .ok shape
  | none => c.convention.bindImplied callee args type

/-- The block of variadic arguments, if the callee takes one. -/
def passBlock (node : Node) (callee : String) (shape : Binding) (args : List Argument) :
    Lower UInt16 :=
  if shape.variadic then passVariadic node callee shape (args.drop shape.params.length)
  else pure 0

/-- The address of the buffer for a structure result. -/
def passBuffer (node : Node) (shape : Binding) (buffer : Option Place) : Lower Unit :=
  match shape.resultSlot, buffer with
  | some slot, some dest => do
    let (lo, hi) ← addressBytes dest node
    passBytes slot [lo, hi]
  | _, _ => pure ()

def takeResult (callee : String) (shape : Binding) : Option Temp → Lower Unit
  | some result => storeResult callee shape result
  | none => pure ()

/-- A call whose callee is known. -/
def callShape (node : Node) (result : Option Temp) (callee : String) (args : List Argument)
    (buffer : Option Place) (shape : Binding) (kind : Convention.CallKind) : Lower Unit := do
  let block ← passBlock node callee shape args
  passBuffer node shape buffer
  passArguments (args.zip shape.params)
  emitCall callee kind
  takeResult callee shape result
  times block.toNat (bare .pla)

theorem callShape_eq (node : Node) (result : Option Temp) (callee : String) (args : List Argument)
    (buffer : Option Place) (shape : Binding) (kind : Convention.CallKind) :
    callShape node result callee args buffer shape kind = (do
      let block ←
        if shape.variadic then passVariadic node callee shape (args.drop shape.params.length)
        else pure 0
      match shape.resultSlot, buffer with
      | some slot, some dest =>
        let (lo, hi) ← addressBytes dest node
        passBytes slot [lo, hi]
      | _, _ => pure ()
      passArguments (args.zip shape.params)
      emitCall callee kind
      if let some r := result then storeResult callee shape r
      times block.toNat (bare .pla)) := by
  unfold callShape passBlock passBuffer
  split <;> refine congrArg _ (funext fun block => ?_) <;> split <;> cases result <;>
    simp [takeResult]

theorem lowerCall_eq (node : Node) (result : Option Temp) (callee : String) (args : List Argument)
    (type : ValueType) (buffer : Option Place) :
    lowerCall node result callee args type buffer = (do
      let c ← read
      let shape ← (shapeOf c callee args type : Compile Binding)
      let kind ← (c.convention.callKind c.binding shape : Compile Convention.CallKind)
      checkCall callee shape args buffer
      commitOnly (callShape node result callee args buffer shape kind)) := by
  unfold lowerCall shapeOf
  simp only [callShape_eq]
  refine congrArg _ (funext fun c => ?_)
  cases c.bindings[callee]? with
  | none | some => rfl

/-- Where X is needed behind the call itself. -/
def wantsX (shape : Binding) (result : Option Temp) : Bool :=
  result.isSome && decide (shape.returnKind = .word)

theorem lays_passBuffer {node : Node} {shape : Binding} {buffer : Option Place} :
    Lays c (Growth.Plain reach) (passBuffer node shape buffer) fun _ => True := by
  unfold passBuffer
  split
  · exact lays_addressBytes.next fun pair hpair => lays_passBytes _ _ hpair
  · exact .pure trivial each_nil

theorem walks_takeResult {callee : String} {shape : Binding} {result : Option Temp}
    (hd : d ≤ r.deepest) :
    Walks c r known ⟨d, wantsX shape result⟩ ⟨d, false⟩ (takeResult callee shape result)
      fun _ => True := by
  cases result with
  | some x => exact walks_storeResult hd
  | none => exact .pure trivial (.nil _)

theorem walks_callShape {node : Node} {result : Option Temp} {callee : String}
    {args : List Argument} {buffer : Option Place} {shape : Binding} {kind : Convention.CallKind}
    (hvariadic : shape.variadic = true → sizeOf (args.drop shape.params.length) ≤ r.deepest)
    (hargs : ∀ a ∈ args, ReachesValue r.reach a.value a.type.size.toNat)
    (hpairs : ∀ pair ∈ args.zip shape.params,
      ReachesValue r.reach pair.1.value pair.2.type.size.toNat) :
    Walks c r known idle idle (callShape node result callee args buffer shape kind)
      fun _ => True := by
  -- The block that is pushed is pulled again at the end.
  obtain ⟨n, hdeep, hblock⟩ : ∃ n ≤ r.deepest, Walks c r known idle ⟨n, false⟩
      (passBlock node callee shape args) fun block => block.toNat = n := by
    unfold passBlock
    split
    · rename_i hshape
      exact ⟨_, hvariadic hshape,
        walks_passVariadic (fun a ha => hargs a (List.mem_of_mem_drop ha)) (hvariadic hshape)⟩
    · exact ⟨0, Nat.zero_le _, .pure rfl (.nil _)⟩
  refine hblock.next fun block hpushed => ?_
  refine Walks.next (walks_plain hdeep lays_passBuffer) fun _ _ => ?_
  refine Walks.next (walks_plain hdeep (lays_passArguments _ hpairs)) fun _ _ => ?_
  refine Walks.next (walks_emitCall (wantsX shape result) hdeep) fun _ _ => ?_
  refine (walks_takeResult hdeep).next fun _ _ => ?_
  rw [← hpushed]
  exact walks_pulls _

theorem lays_registerByte {value? : Option Value}
    (h : ∀ value, value? = some value → ReachesValue reach value 1) :
    Lays c (Growth.Plain reach) (registerByte value?) fun byte? =>
      ∀ byte, byte? = some byte → Sited reach byte := by
  cases value? with
  | none => exact .pure (fun byte hbyte => by cases hbyte) each_nil
  | some value =>
    have hvalue : ReachesValue reach value ValueType.u8.size.toNat := h value rfl
    refine (lays_valueBytes hvalue).next fun bytes hbytes => ?_
    split
    · refine (lays_materialize (hbytes _ (List.mem_cons_self ..))).plain.next fun byte hbyte => ?_
      refine .pure (fun found hfound => ?_) each_nil
      obtain rfl := Option.some.inj hfound
      exact hbyte
    · exact lays_internal _

theorem lays_loadY {y : ByteLoc} (h : Sited reach y) :
    Lays c (Growth.Plain reach) (loadY y) fun _ => True := by
  unfold loadY
  split
  · exact lays_op (by rfl) (by trivial) (by rfl)
  · exact (lays_loadA h).plain.next fun _ _ => lays_bare (by rfl)

/-- A and X are loaded; X last, if it is given. -/
theorem walks_loadAX {a x : Option ByteLoc} (ha : ∀ byte, a = some byte → Sited r.reach byte)
    (hx : ∀ byte, x = some byte → Sited r.reach byte) (hdeep : 1 ≤ r.deepest) :
    Walks c r known idle ⟨0, x.isSome⟩ (loadAX a x) fun _ => True := by
  have hldx : ∀ i, Walks c r known idle ⟨0, true⟩ (op .ldx (.immediate i)) fun _ => True :=
    fun i => walks_push (.setX 0 false true (Or.inr (Or.inr ⟨i, rfl⟩)) (Nat.zero_le _))
  unfold loadAX
  split
  · exact .pure trivial (.nil _)
  · exact walks_idle (lays_loadA (ha _ rfl)).plain
  · rename_i a x
    simp only [Option.isSome_some]
    split
    · split
      · exact Walks.next (walks_idle (lays_loadA (ha _ rfl)).plain) fun _ _ => hldx _
      · exact hldx _
    · refine Walks.next (walks_idle (lays_loadA (ha _ rfl)).plain) fun _ _ => ?_
      refine Walks.next (walks_push (.push 0 false)) fun _ _ => ?_
      refine Walks.next (walks_plain hdeep (lays_loadA (hx _ rfl)).plain) fun _ _ => ?_
      refine Walks.next (walks_push (.setX _ false true (Or.inl rfl) hdeep)) fun _ _ => ?_
      exact walks_push (.pull 0 true)
    · exact Walks.next (walks_idle (lays_loadA (hx _ rfl)).plain) fun _ _ =>
        walks_push (.setX 0 false true (Or.inl rfl) (Nat.zero_le _))

theorem walks_callWith {address : UInt16} {x : Option Value} {clobbers : DeclaredClobbers}
    {result : Option Temp} {aByte xByte : Option ByteLoc}
    (ha : ∀ byte, aByte = some byte → Sited r.reach byte)
    (hx : ∀ byte, xByte = some byte → Sited r.reach byte) (hgiven : xByte.isSome = x.isSome)
    (hdeep : 1 ≤ r.deepest) (hstrict : x = none → ¬r.strict) :
    Walks c r r.names idle idle (do
      loadAX aByte xByte
      modifyDraft (·.callAddress address (.fixed address clobbers.toClobbers))
      if let some result := result then
        match ← destination result with
        | dst :: _ => storeA dst
        | [] => internal "temporary without registers") fun _ => True := by
  refine (walks_loadAX ha hx hdeep).next fun _ _ => ?_
  rw [hgiven]
  refine Walks.next (walks_callAddress (.call 0 x.isSome false rfl (fun hs _ => ?_)
    fun h => by cases h)) fun _ _ => ?_
  · cases x with
    | none => exact absurd hs (hstrict rfl)
    | some value => rfl
  · split
    · refine (quiet_destination r.reach _).next fun dst hdst => ?_
      split
      · exact walks_idle (lays_storeA hdst.head).plain
      · exact lays_internal _
    · exact .pure trivial (.nil _)

theorem forms_lowerAsmCall {address : UInt16} {a x y : Option Value} {clobbers : DeclaredClobbers}
    {result : Option Temp} (ha : ∀ value, a = some value → ReachesValue r.reach value 1)
    (hx : ∀ value, x = some value → ReachesValue r.reach value 1)
    (hy : ∀ value, y = some value → ReachesValue r.reach value 1) (hdeep : 1 ≤ r.deepest)
    (hstrict : x = none → ¬r.strict) :
    Forms c r idle idle (lowerAsmCall address a x y clobbers result) fun _ => True := by
  refine lowers_commitOnly (Walks.forms ?_)
  refine Walks.next (walks_idle (lays_registerByte ha)) fun aByte haByte => ?_
  have hgiven : Walks c r r.names idle idle (registerByte x) fun byte? =>
      (∀ byte, byte? = some byte → Sited r.reach byte) ∧ byte?.isSome = x.isSome := by
    intro st byte? st' hok htracks
    have hwalk : Walks c r r.names idle idle (registerByte x) fun byte? =>
        ∀ byte, byte? = some byte → Sited r.reach byte := walks_idle (lays_registerByte hx)
    obtain ⟨hes, hsited⟩ := hwalk st byte? st' hok htracks
    refine ⟨hes, hsited, ?_⟩
    cases x with
    | none =>
      obtain ⟨rfl, -⟩ := pure_ok.mp hok
      rfl
    | some value =>
      obtain ⟨bytes, st₁, -, hrest⟩ := bind_ok.mp hok
      split at hrest
      · obtain ⟨byte, st₂, -, hpure⟩ := bind_ok.mp hrest
        obtain ⟨rfl, -⟩ := pure_ok.mp hpure
        rfl
      · cases hrest
  refine hgiven.next fun xByte hxByte => ?_
  refine Walks.next (walks_idle (lays_registerByte hy)) fun yByte hyByte => ?_
  simp only
  split
  · exact Walks.next (walks_idle (lays_loadY (hyByte _ rfl))) fun _ _ =>
      walks_callWith haByte hxByte.1 hxByte.2 hdeep hstrict
  · exact walks_callWith haByte hxByte.1 hxByte.2 hdeep hstrict

end Calls

/-! ### Returns and jumps out of functions -/

section Returns

variable {known : String → Prop}

/-- Whether the exit sequence reads X. -/
def exitsWithX (b : Binding) : Bool := decide (b.returnKind = .word)

/-- A value that is returned in registers. -/
def ReachesResult (reach : UInt8 → Prop) (b : Binding) (value : Option Value) : Prop :=
  b.returnKind = .byte ∨ b.returnKind = .word →
    ∀ v, value = some v → ReachesValue reach v b.returnType.size.toNat

/-- The ways of loading A and X. -/
theorem fit_wordCandidates {base : Draft} {lo hi : ByteLoc} (hdeep : 1 ≤ r.deepest)
    (hbase : Holds (Shaped r idle idle) base) (hlo : Sited r.reach lo) (hhi : Sited r.reach hi) :
    Fit r idle ⟨0, true⟩ (returnCandidates.wordCandidates base lo hi) := by
  have hload : ∀ loc, Sited r.reach loc → Holds (Shaped r idle idle) (base.loadA loc) :=
    fun loc hloc => hbase.plain (Nat.zero_le _)
      ((grown_loadA base hloc).imp fun _ => plain_of_moving)
  have hpushed : Holds (Shaped r idle ⟨1, false⟩) ((base.loadA lo).bare .pha) :=
    (hload lo hlo).push (.push 0 false)
  have hpulled : Holds (Shaped r idle ⟨0, true⟩)
      (((((base.loadA lo).bare .pha).loadA hi).bare .tax).bare .pla) := by
    refine Holds.push (Holds.push (hpushed.plain hdeep ?_)
      (.setX _ false true (Or.inl rfl) hdeep)) (.pull 0 true)
    exact (grown_loadA _ hhi).imp fun _ => plain_of_moving
  refine Fit.append (Fit.append ?_ ?_) (fit_nil.cons hpulled)
  · split
    · exact fit_nil.cons ((hload lo hlo).push
        (.setX 0 false true (Or.inr (Or.inr ⟨_, rfl⟩)) (Nat.zero_le _)))
    · exact fit_nil
  · split
    · refine fit_nil.cons (Holds.push (Holds.push (hload hi hhi)
        (.setX 0 false true (Or.inl rfl) (Nat.zero_le _))) ?_)
      exact .plain rfl trivial (fun h => by cases h) (Nat.zero_le _) fun _ h => by cases h
    · exact fit_nil

theorem quiet_returnCandidates {value : Option Value} (hdeep : 1 ≤ r.deepest)
    (hvalue : ReachesResult r.reach c.binding value) :
    Quiet c (returnCandidates value) (Fit r idle ⟨0, exitsWithX c.binding⟩) := by
  have hempty : Quiet c (do return [← candidate (pure ())]) (Fit r idle idle) :=
    (quiet_candidate (P := Shaped r idle idle) (.pure trivial (.nil _))).next fun d hd =>
      quiet_pure (fit_nil.cons hd)
  refine quiet_read.next fun c' hc' => ?_
  obtain rfl := hc'
  unfold exitsWithX
  simp only
  split
  · rename_i hkind
    rw [hkind]
    exact hempty
  · rename_i hkind
    rw [hkind]
    exact hempty
  · exact lays_invalid _
  · exact lays_invalid _
  · exact lays_invalid _
  · exact lays_invalid _
  · rename_i v hkind
    rw [hkind]
    refine (quiet_candidate (P := Shaped r idle idle) (forms_plain ?_)).next fun d hd =>
      quiet_pure (fit_nil.cons hd)
    refine (lays_valueBytes (hvalue (Or.inl hkind) v rfl)).next fun bytes hbytes => ?_
    split
    · exact (lays_loadA (hbytes _ (List.mem_cons_self ..))).plain
    · exact lays_internal _
  · rename_i v hkind
    rw [hkind]
    intro st ds st' hok htracks
    -- The bytes are made on a fork of the code, which is then set aside.
    obtain ⟨old, st₃, hget, h1⟩ := bind_ok.mp hok
    cases hget
    obtain ⟨u₁, st₄, hset, h2⟩ := bind_ok.mp h1
    cases hset
    obtain ⟨bytes, st₁, hbytes, h3⟩ := bind_ok.mp h2
    obtain ⟨new, st₆, hget', h4⟩ := bind_ok.mp h3
    cases hget'
    obtain ⟨new', st₇, hget'', h5⟩ := bind_ok.mp h4
    cases hget''
    obtain ⟨u₂, st₈, hset', hrest⟩ := bind_ok.mp h5
    cases hset'
    obtain ⟨⟨es, hes, hplain⟩, hsited⟩ :=
      lays_valueBytes (hvalue (Or.inr hkind) v rfl) _ _ _ hbytes htracks
    have hbase : Holds (Shaped r idle idle) st₁.draft :=
      holds_of_extends hes.toExtends htracks rfl rfl (Walk.ofPlain (Nat.zero_le _) hplain).shaped
    split at hrest
    · obtain ⟨rfl, rfl⟩ := pure_ok.mp hrest
      refine ⟨⟨[], ⟨by simp, by simp [callsFrom], hes.toExtends.label, id⟩, rfl⟩, ?_⟩
      exact fit_wordCandidates hdeep hbase (hsited _ (by simp)) (hsited _ (by simp))
    · cases hrest

/-- A return that is not the last node jumps to the exit. -/
theorem forms_lowerReturn {value : Option Value} {isLast : Bool} (hdeep : 1 ≤ r.deepest)
    (hvalue : ReachesResult r.reach c.binding value)
    (hexit : r.names (Naming.exitLabel c.function.name))
    (hexitX : r.xAt (Naming.exitLabel c.function.name) = exitsWithX c.binding) :
    Forms c r idle ⟨0, isLast && exitsWithX c.binding⟩ (lowerReturn value isLast)
      fun _ => True := by
  refine (quiet_returnCandidates hdeep hvalue).next fun ds hds => ?_
  split
  · rename_i hlast
    rw [hlast, Bool.true_and]
    exact lowers_commitCheapest hds
  · rename_i hlast
    have hlast' : isLast = false := by simpa using hlast
    rw [hlast', Bool.false_and]
    refine quiet_read.next fun c' hc' => ?_
    obtain rfl := hc'
    refine lowers_commitCheapest fun d hd => ?_
    obtain ⟨d', hd', rfl⟩ := List.mem_map.mp hd
    exact (hds d' hd').push (.jump _ false hexit fun _ h => by rw [← hexitX]; exact h)

theorem forms_lowerSetJmp {node : Node} {result : Temp} {buffer : Place} (hresumes : r.resumes) :
    Forms c r idle idle (lowerSetJmp node result buffer) fun _ => True := by
  refine lowers_commitOnly (Walks.forms ?_)
  refine Walks.next (walks_idle lays_addressBytes) fun pair hpair => ?_
  refine Walks.next (walks_idle (lays_passBytes _ _ hpair)) fun _ _ => ?_
  refine (quiet_uses _).next fun _ _ => ?_
  refine Walks.next (walks_call (.call 0 false true rfl (fun _ h => by cases h) fun _ => hresumes))
    fun _ _ => ?_
  exact (quiet_destination r.reach result).next fun dst hdst =>
    walks_storeWord (Nat.zero_le _) hdst

theorem forms_lowerLongJmp {node : Node} {buffer : Place} {value : Value} (x : Bool)
    (hvalue : ReachesValue r.reach value 1) (hescape : r.strict → ¬r.resumes) :
    Forms c r idle ⟨0, x⟩ (lowerLongJmp node buffer value) fun _ => True := by
  refine lowers_commitOnly (Walks.forms ?_)
  refine Walks.next (walks_idle lays_addressBytes) fun pair hpair => ?_
  refine Walks.next (walks_idle (lays_valueBytes
    (hvalue : ReachesValue _ _ ValueType.u8.size.toNat))) fun bytes hbytes => ?_
  split
  · rename_i first rest
    refine Walks.next (walks_idle (lays_materialize (hbytes _ (List.mem_cons_self ..))).plain)
      fun byte hbyte => ?_
    refine Walks.next (walks_idle (lays_passBytes _ _ fun loc hloc => ?_)) fun _ _ => ?_
    · simp only [List.mem_cons, List.not_mem_nil, or_false] at hloc
      rcases hloc with rfl | rfl | rfl
      · exact hpair.head
      · exact hpair.tail.head
      · exact hbyte
    · exact (quiet_uses _).next fun _ _ => walks_push (.escape false x hescape)
  · exact lays_internal _

end Returns

/-! ### Variadic access -/

theorem sitedAll_vregs (vregs : List VReg) : SitedAll reach (vregs.map .vreg) := by
  intro loc hloc
  obtain ⟨v, -, rfl⟩ := List.mem_map.mp hloc
  trivial

theorem forms_lowerVaStart {cursor : Temp} :
    Forms c r idle idle (lowerVaStart cursor) fun _ => True := by
  refine quiet_read.next fun c' hc' => ?_
  split
  · exact (quiet_destination r.reach cursor).next fun dst hdst => lowers_commitOnly
      (forms_plain (lays_copyBytes _ dst (sitedAll_vregs [_, _]) hdst).plain)
  · exact lays_invalid _

theorem forms_lowerVaCount {result : Temp} :
    Forms c r idle idle (lowerVaCount result) fun _ => True := by
  refine quiet_read.next fun c' hc' => ?_
  split
  · exact (quiet_destination r.reach result).next fun dst hdst => lowers_commitOnly
      (forms_plain (lays_copyBytes _ dst (sitedAll_vregs [_]) hdst).plain)
  · exact lays_invalid _

theorem lays_loadBehind {pointer : PointerPair} : ∀ (dst : List ByteLoc) (offset : UInt8),
    SitedAll reach dst → Lays c (Growth.Plain reach) (loadBehind pointer offset dst) fun _ => True
  | [], _, _ => .pure trivial each_nil
  | _ :: rest, offset, h =>
    (lays_loadA (show Sited reach (.indirect pointer offset) from trivial)).plain.next fun _ _ =>
      (lays_storeA h.head).plain.next fun _ _ => lays_loadBehind rest (offset + 1) h.tail

theorem forms_lowerVaArg {node : Node} {result cursor : Temp} {type : ValueType} :
    Forms c r idle idle (lowerVaArg node result cursor type) fun _ => True := by
  refine (quiet_checkScalar type node).next fun _ _ => (quiet_tempInfo cursor).next fun info _ => ?_
  split
  · refine (quiet_destination r.reach result).next fun dst hdst =>
      lowers_commitOnly (forms_plain ?_)
    refine (lays_loadBehind dst 0 hdst).next fun _ _ => ?_
    refine (lays_loadA (sited_vreg _)).plain.next fun _ _ => (lays_bare (by rfl)).next fun _ _ => ?_
    refine (lays_op (by rfl) (by trivial) (by rfl)).next fun _ _ => ?_
    refine (lays_storeA (sited_vreg _)).plain.next fun _ _ => ?_
    refine (lays_loadA (sited_vreg _)).plain.next fun _ _ => ?_
    refine (lays_op (by rfl) (by trivial) (by rfl)).next fun _ _ => ?_
    exact (lays_storeA (sited_vreg _)).plain
  · exact lays_invalid _

/-! ### Bindings -/

/-- The slots of a binding have the sizes of their types. -/
def SlotsFit (b : Binding) : Prop :=
  ∀ p ∈ b.params, p.type.isScalar = true ∧ p.size = p.type.size.toUInt8

theorem mem_paramSlots : ∀ (types : List ValueType) (next : ℕ),
    ∀ p ∈ Convention.paramSlots next types, p.type ∈ types ∧ p.size = p.type.size.toUInt8
  | [], _, p, hp => by cases hp
  | type :: rest, next, p, hp => by
    rcases List.mem_cons.mp hp with rfl | hp
    · exact ⟨List.mem_cons_self .., rfl⟩
    · obtain ⟨htype, hsize⟩ := mem_paramSlots rest _ p hp
      exact ⟨List.mem_cons_of_mem _ htype, hsize⟩

/-- A check that has been passed. -/
theorem ok_of_guard {α : Type} {p : Prop} [Decidable p] {e : CompileError} {x : Compile α} {a : α}
    (h : (if p then (throw e : Compile PUnit) >>= fun _ => x else x) = .ok a) : x = .ok a := by
  split at h
  · cases h
  · exact h

/-- **What binding a signature gives.** -/
theorem bindSignature_ok {conv : Convention} {sig : Signature} {b : Binding}
    (h : conv.bindSignature sig = .ok b) :
    SlotsFit b ∧ Convention.returnKind? b.returnType = some b.returnKind ∧
      b.variadic = sig.variadic := by
  unfold Convention.bindSignature at h
  simp only at h
  split at h
  · cases h
  · split at h
    · rename_i kind hkind
      split at h
      · cases h
      · rename_i hfind
        have hscalar : ∀ type ∈ sig.params, type.isScalar = true := by
          have hnone : sig.params.find? (fun t => !t.isScalar) = none := by
            cases hfound : sig.params.find? (fun t => !t.isScalar) with
            | none => rfl
            | some found => exact absurd hfound (hfind found)
          intro type htype
          simpa using List.find?_eq_none.mp hnone type htype
        have hslots : ∀ n, ∀ p ∈ Convention.paramSlots n sig.params,
            p.type.isScalar = true ∧ p.size = p.type.size.toUInt8 := by
          intro n p hp
          obtain ⟨htype, hsize⟩ := mem_paramSlots _ n p hp
          exact ⟨hscalar _ htype, hsize⟩
        replace h := ok_of_guard h
        cases h
        exact ⟨hslots _, hkind, rfl⟩
    · cases h

/-- The shapes that are known come from signatures. -/
def Bound (conv : Convention) (bindings : Std.TreeMap String Binding) : Prop :=
  ∀ (name : String) (b : Binding), bindings[name]? = some b → ∃ f, conv.bind f = .ok b

theorem bind_slots {conv : Convention} {f : FunctionDef} {b : Binding} (h : conv.bind f = .ok b) :
    SlotsFit b ∧ Convention.returnKind? b.returnType = some b.returnKind := by
  obtain ⟨b', hb', hrest⟩ := Computations.bind_eq_ok.mp h
  obtain ⟨hslots, hkind, -⟩ := bindSignature_ok hb'
  simp only at hrest
  split at hrest
  · cases hrest
  · cases hrest
    exact ⟨hslots, hkind⟩

theorem bindImplied_slots {conv : Convention} {name : String} {args : List Argument}
    {type : ValueType} {b : Binding} (h : conv.bindImplied name args type = .ok b) :
    SlotsFit b ∧ b.variadic = false := by
  obtain ⟨b', hb', hrest⟩ := Computations.bind_eq_ok.mp h
  obtain ⟨hslots, -, hvariadic⟩ := bindSignature_ok hb'
  cases hrest
  exact ⟨hslots, hvariadic⟩

/-! ### Bodies -/

/-- The labels that a node goes to. -/
def targetsOf : Node → List LabelId
  | .branch _ _ _ _ ifTrue ifFalse => [ifTrue, ifFalse]
  | .jump target => [target]
  | _ => []

/-- Whether control does not go on behind a node. -/
def isTerminator : Node → Bool
  | .branch .. | .jump _ | .ret _ | .longJmp .. => true
  | _ => false

/-- The bytes that the code of a node pushes. -/
def pushedBy (bindings : Std.TreeMap String Binding) : Node → ℕ
  | .call _ callee args _ _ =>
    match bindings[callee]? with
    | some shape => if shape.variadic then sizeOf (args.drop shape.params.length) else 0
    | none => 0
  | .asmCall .. | .ret _ => 1
  | _ => 0

/-- The most bytes that the code of a node pushes. -/
def pushDepth (bindings : Std.TreeMap String Binding) (body : List Node) : ℕ :=
  body.foldr (fun node depth => max (pushedBy bindings node) depth) 0

theorem le_pushDepth {bindings : Std.TreeMap String Binding} {body : List Node} {node : Node}
    (h : node ∈ body) : pushedBy bindings node ≤ pushDepth bindings body := by
  induction body with
  | nil => exact (List.not_mem_nil h).elim
  | cons first rest ih =>
    unfold pushDepth
    rw [List.foldr_cons]
    rcases List.mem_cons.mp h with rfl | h
    · exact le_max_left ..
    · exact (ih h).trans (le_max_right ..)

/-- The frame bytes that a node names are among those that may be named. -/
def Reached (reach : UInt8 → Prop) (b : Binding) : Node → Prop
  | .copy _ value type => type.isScalar = true → ReachesValue reach value type.size.toNat
  | .binary _ _ lhs rhs type | .branch _ lhs rhs type .. => type.isScalar = true →
    ReachesValue reach lhs type.size.toNat ∧ ReachesValue reach rhs type.size.toNat
  | .store value dest type => type.isScalar = true →
    ReachesValue reach value type.size.toNat ∧ Reaches reach dest type.size.toNat
  | .call _ _ args _ _ => ∀ a ∈ args, ReachesValue reach a.value a.type.size.toNat
  | .asmCall _ a x y .. => ∀ v, a = some v ∨ x = some v ∨ y = some v → ReachesValue reach v 1
  | .ret value => ReachesResult reach b value
  | .longJmp _ value => ReachesValue reach value 1
  | .loadField _ src field => ReachesField reach src field
  | .storeField value dest field => ReachesValue reach value 1 ∧ ReachesField reach dest field
  | _ => True

/-- What the rules must say about X for the sake of a node. -/
def RespectsX (r : Rules) : Node → Prop
  | .asmCall _ _ x .. => x = none → ¬r.strict
  | .setJmp .. => r.resumes
  | .longJmp .. => r.strict → ¬r.resumes
  | _ => True

/-- The labels that may stand in the code of a node: new ones inside operations and branches, and
that of a label node. -/
def PlacesOwn (r : Rules) (name : String) : Node → Prop
  | .binary .. | .branch .. => ∀ n, IsInner r (Naming.innerLabel name n)
  | .label id => r.places (Naming.nodeLabel name id)
  | _ => True

/-- **The rules allow for a node.** -/
structure FitsNode (r : Rules) (bindings : Std.TreeMap String Binding) (f : FunctionDef)
    (b : Binding) (node : Node) : Prop where
  own : PlacesOwn r f.name node
  target : ∀ id ∈ targetsOf node, IsTarget r (Naming.nodeLabel f.name id)
  exit : r.names (Naming.exitLabel f.name)
  exitX : r.xAt (Naming.exitLabel f.name) = exitsWithX b
  reached : Reached r.reach b node
  deep : pushedBy bindings node ≤ r.deepest
  x : RespectsX r node

/-- **The rules allow for the body of a function.** -/
structure Fits (r : Rules) (bindings : Std.TreeMap String Binding) (f : FunctionDef)
    (b : Binding) : Prop where
  inner : ∀ n, IsInner r (Naming.innerLabel f.name n)
  label : ∀ id, .label id ∈ f.body → r.places (Naming.nodeLabel f.name id)
  target : ∀ node ∈ f.body, ∀ id ∈ targetsOf node, IsTarget r (Naming.nodeLabel f.name id)
  exit : r.names (Naming.exitLabel f.name)
  placed : r.places (Naming.exitLabel f.name)
  exitX : r.xAt (Naming.exitLabel f.name) = exitsWithX b
  reached : ∀ node ∈ f.body, Reached r.reach b node
  deep : ∀ node ∈ f.body, pushedBy bindings node ≤ r.deepest
  x : ∀ node ∈ f.body, RespectsX r node

theorem Fits.node {bindings : Std.TreeMap String Binding} {f : FunctionDef} {b : Binding}
    {node : Node} (h : Fits r bindings f b) (hnode : node ∈ f.body) : FitsNode r bindings f b node where
  own := by
    cases node with
    | binary | branch => exact h.inner
    | label id => exact h.label id hnode
    | _ => trivial
  target := h.target node hnode
  exit := h.exit
  exitX := h.exitX
  reached := h.reached node hnode
  deep := h.deep node hnode
  x := h.x node hnode

/-- Whether X is needed behind a node. -/
def endsWithX (b : Binding) (node : Node) (next : Option Node) : Bool :=
  isTerminator node && next.isNone && exitsWithX b

/-- An argument has the size of its slot. -/
theorem size_slot {shape : Binding} {args : List Argument} (hslots : SlotsFit shape)
    (hsizes : ∀ pair ∈ args.zip shape.params, pair.1.type.size = pair.2.size.toUInt16) :
    ∀ pair ∈ args.zip shape.params, pair.2.type.size = pair.1.type.size := by
  intro pair hpair
  obtain ⟨hscalar, hsize⟩ := hslots _ (List.of_mem_zip hpair).2
  rw [hsizes pair hpair, hsize]
  cases htype : pair.2.type <;> simp_all [ValueType.isScalar, ValueType.size]

/-- What a call knows of its callee: its slots fit the arguments, and a variadic callee is one of
those that are bound. -/
structure Called (c : Context) (callee : String) (args : List Argument) (shape : Binding) :
    Prop where
  slots : SlotsFit shape
  sizes : ∀ pair ∈ args.zip shape.params, pair.1.type.size = pair.2.size.toUInt16
  count : shape.variadic = false → args.length = shape.params.length
  variadic : shape.variadic = true → c.bindings[callee]? = some shape

/-- A call, by what is laid out once its callee is known. -/
theorem lowers_lowerCall {P : List Entry → Prop} {node : Node} {result : Option Temp}
    {callee : String} {args : List Argument} {type : ValueType} {buffer : Option Place}
    (hbound : Bound c.convention c.bindings)
    (h : ∀ shape kind, Called c callee args shape →
      Lowers Extends c P (callShape node result callee args buffer shape kind) fun _ => True) :
    Lowers Extends c P (lowerCall node result callee args type buffer) fun _ => True := by
  rw [lowerCall_eq]
  refine quiet_read.next fun c' hc' => ?_
  obtain rfl := hc'
  refine (quiet_lift _).next fun shape hshape => (quiet_lift _).next fun kind _ => ?_
  refine quiet_checkCall.next fun _ ⟨hsizes, hcount⟩ => lowers_commitOnly (h shape kind ?_)
  unfold shapeOf at hshape
  cases hget : c'.bindings[callee]? with
  | some found =>
    simp only [hget] at hshape
    cases hshape
    obtain ⟨f, hf⟩ := hbound callee shape hget
    exact ⟨(bind_slots hf).1, hsizes, hcount, fun _ => hget⟩
  | none =>
    -- A callee that is not known is not variadic.
    simp only [hget] at hshape
    obtain ⟨hslots, hv⟩ := bindImplied_slots hshape
    exact ⟨hslots, hsizes, hcount, fun h => by rw [hv] at h; cases h⟩

theorem forms_lowerCall {node : Node} {result : Option Temp} {callee : String}
    {args : List Argument} {type : ValueType} {buffer : Option Place}
    (hbound : Bound c.convention c.bindings)
    (hdeep : pushedBy c.bindings (.call result callee args type buffer) ≤ r.deepest)
    (hargs : ∀ a ∈ args, ReachesValue r.reach a.value a.type.size.toNat) :
    Forms c r idle idle (lowerCall node result callee args type buffer) fun _ => True := by
  refine lowers_lowerCall hbound fun shape kind hcalled => Walks.forms ?_
  refine walks_callShape (fun hv => ?_) hargs fun pair hpair => ?_
  · simpa [pushedBy, hcalled.variadic hv, hv] using hdeep
  · rw [size_slot hcalled.slots hcalled.sizes pair hpair]
    exact hargs _ (List.of_mem_zip hpair).1

/-- **The shape of a node.** -/
theorem forms_lowerNode {node : Node} {next : Option Node}
    (hbound : Bound c.convention c.bindings)
    (hfits : FitsNode r c.bindings c.function c.binding node) :
    Forms c r idle ⟨0, endsWithX c.binding node next⟩ (lowerNode node next) (TakesStore next) := by
  have hdone : ∀ {x : Bool} {m : Lower Unit}, Forms c r idle ⟨0, x⟩ m (fun _ => True) →
      Forms c r idle ⟨0, x⟩ (do m; return false) (TakesStore next) := fun h =>
    Forms.next h fun _ _ => .pure (fun hf => by cases hf) (.nil _)
  have hown := hfits.own
  have hreached := hfits.reached
  have hdeep := hfits.deep
  have hx := hfits.x
  have htarget := hfits.target
  -- X is needed behind a node that ends the body only.
  have hlast : endsWithX c.binding node next = true → next = none := by
    intro h
    simp only [endsWithX, Bool.and_eq_true, Option.isNone_iff_eq_none] at h
    exact h.1.2
  cases node with
  | copy result value type => exact hdone (forms_lowerCopy hreached)
  | binary result op lhs rhs type =>
    exact forms_lowerBinary hown (fun ht => (hreached ht).1) fun ht => (hreached ht).2
  | store value dest type =>
    exact hdone (forms_lowerStore (fun ht => (hreached ht).1) fun ht => (hreached ht).2)
  | call result callee args type buffer =>
    exact hdone (forms_lowerCall hbound hdeep hreached)
  | asmCall address a x y clobbers result =>
    exact hdone (forms_lowerAsmCall (fun v hv => hreached v (Or.inl hv))
      (fun v hv => hreached v (Or.inr (Or.inl hv))) (fun v hv => hreached v (Or.inr (Or.inr hv)))
      hdeep hx)
  | branch op lhs rhs type ifTrue ifFalse =>
    exact hdone (forms_lowerBranch hown (htarget _ (List.mem_cons_self ..))
      (htarget _ (by simp [targetsOf])) (fun ht => (hreached ht).1) (fun ht => (hreached ht).2)
      hlast)
  | jump target => exact hdone (forms_jumpTo (htarget _ (List.mem_cons_self ..)) hlast)
  | label id =>
    refine hdone (quiet_read.next fun c' hc' => Walks.forms (walks_push ?_))
    obtain rfl := hc'
    exact .label false hown fun _ h => by cases h
  | ret value =>
    have hend : endsWithX c.binding (.ret value) next = (next.isNone && exitsWithX c.binding) := rfl
    rw [hend]
    exact hdone (forms_lowerReturn hdeep hreached hfits.exit hfits.exitX)
  | setJmp result buffer => exact hdone (forms_lowerSetJmp hx)
  | longJmp buffer value => exact hdone (forms_lowerLongJmp _ hreached hx)
  | vaStart cursor => exact hdone forms_lowerVaStart
  | vaArg result cursor type => exact hdone forms_lowerVaArg
  | vaCount result => exact hdone forms_lowerVaCount
  | loadField result src field => exact hdone (forms_lowerLoadField hreached)
  | storeField value dest field =>
    exact hdone (forms_lowerStoreField hreached.1 hreached.2)

/-- Whether X is needed behind a body. -/
def bodyEndsWithX (b : Binding) (body : List Node) : Bool :=
  match body.getLast? with
  | some node => isTerminator node && exitsWithX b
  | none => false

/-- The labels of a body are on the way. -/
def HasLabels (name : String) (body : List Node) (es : List Entry) : Prop :=
  ∀ id, .label id ∈ body → .label (Naming.nodeLabel name id) ∈ es.map Prod.fst

theorem HasLabels.of_append {name : String} {front back : List Node} {es es' : List Entry}
    (h : HasLabels name front es) (h' : HasLabels name back es') :
    HasLabels name (front ++ back) (es ++ es') := by
  intro id hid
  rw [List.map_append]
  exact (List.mem_append.mp hid).elim (fun hm => List.mem_append_left _ (h id hm))
    fun hm => List.mem_append_right _ (h' id hm)

/-- A node that is a label has it in its code. -/
theorem lowers_nodeLabel {node : Node} (next : Option Node) (hnode : node ∈ c.function.body)
    (hbound : Bound c.convention c.bindings) (hfits : Fits r c.bindings c.function c.binding) :
    Lowers Extends c (fun es => Shaped r idle ⟨0, endsWithX c.binding node next⟩ es ∧
      HasLabels c.function.name [node] es) (lowerNode node next) (TakesStore next) := by
  intro st taken st' hok htracks
  obtain ⟨⟨es, hes, hshaped⟩, htaken⟩ :=
    forms_lowerNode hbound (hfits.node hnode) st taken st' hok htracks
  refine ⟨⟨es, hes, hshaped, fun id hid => ?_⟩, htaken⟩
  obtain rfl := (List.mem_singleton.mp hid).symm
  obtain ⟨c', st₁, hread, hrest⟩ := bind_ok.mp hok
  cases hread
  obtain ⟨u, st₂, hlabel, hpure⟩ := bind_ok.mp hrest
  cases hlabel
  obtain ⟨-, rfl⟩ := pure_ok.mp hpure
  have hcode := hes.code
  have hlast := List.append_cancel_left hcode
  rw [← hlast]
  exact List.mem_singleton.mpr rfl

/-- **The shape of a body.** -/
theorem forms_lowerBody (hbound : Bound c.convention c.bindings)
    (hfits : Fits r c.bindings c.function c.binding) : ∀ nodes : List Node,
    (∀ node ∈ nodes, node ∈ c.function.body) →
    Lowers Extends c (fun es => Shaped r idle ⟨0, bodyEndsWithX c.binding nodes⟩ es ∧
      HasLabels c.function.name nodes es) (lowerBody nodes) fun _ => True
  | [], _ => .pure trivial ⟨.nil _, fun id hid => (List.not_mem_nil hid).elim⟩
  | [node], hnodes => by
    have hnode := lowers_nodeLabel none (hnodes node (List.mem_singleton.mpr rfl)) hbound
      hfits
    have hend : endsWithX c.binding node none = bodyEndsWithX c.binding [node] := by
      simp [endsWithX, bodyEndsWithX]
    rw [hend] at hnode
    exact hnode.bind (S := (· = [])) (fun _ _ => quiet_pure trivial) fun es es' hes hes' => by
      rw [hes', List.append_nil]
      exact hes
  | node :: next :: rest, hnodes => by
    have hnode := lowers_nodeLabel (some next) (hnodes node (List.mem_cons_self ..)) hbound
      hfits
    have hidle : endsWithX c.binding node (some next) = false := by simp [endsWithX]
    rw [hidle] at hnode
    have hnext := fun n hn => hnodes n (List.mem_cons_of_mem _ hn)
    unfold lowerBody
    refine hnode.bind (S := fun es => Shaped r idle ⟨0, bodyEndsWithX c.binding
      (node :: next :: rest)⟩ es ∧ HasLabels c.function.name (next :: rest) es)
      (fun taken htaken => ?_) fun es es' hes hes' => ⟨hes.1.append hes'.1, hes.2.of_append hes'.2⟩
    split
    · rename_i htrue
      obtain ⟨value, dest, type, hstore⟩ := htaken htrue
      obtain rfl := Option.some.inj hstore
      refine (forms_lowerBody hbound hfits rest fun n hn => hnext n (List.mem_cons_of_mem _ hn)).imp
        (fun es hes => ⟨?_, fun id hid => ?_⟩) fun _ _ => trivial
      · have hend : bodyEndsWithX c.binding (node :: .store value dest type :: rest) =
            bodyEndsWithX c.binding rest := by
          cases rest with
          | nil => rfl
          | cons n ns => simp [bodyEndsWithX]
        rw [hend]
        exact hes.1
      · rcases List.mem_cons.mp hid with hbad | hmem
        · cases hbad
        · exact hes.2 id hmem
    · have hend : bodyEndsWithX c.binding (node :: next :: rest) =
          bodyEndsWithX c.binding (next :: rest) := by simp [bodyEndsWithX]
      rw [hend]
      exact forms_lowerBody hbound hfits (next :: rest) hnext

/-! ### Whole functions -/

theorem lays_copySlots : ∀ (vregs : List VReg) (slot : UInt8),
    Lays c (Growth.Plain reach) (copySlots slot vregs) fun _ => True
  | [], _ => .pure trivial each_nil
  | _ :: rest, slot =>
    Lowers.next (Q := (· = c)) (.read each_nil) fun _ _ =>
      (lays_op (by rfl) (by trivial) (by rfl)).next fun _ _ =>
        (lays_op (by rfl) (by trivial) (by rfl)).next fun _ _ => lays_copySlots rest (slot + 1)

theorem lays_copyParams : ∀ params : List (Temp × ParamSlot),
    Lays c (Growth.Plain reach) (copyParams params) fun _ => True
  | [] => .pure trivial each_nil
  | (t, param) :: rest => by
    refine Lowers.next (Q := (· = c)) (.read each_nil) fun c' _ => ?_
    have hrest := lays_copyParams rest
    split
    · refine Lowers.next (Q := fun _ => True)
        (.still (fun st info st' hok => ⟨(tempInfo_ok hok).1, trivial⟩) each_nil) fun info _ => ?_
      exact (lays_copySlots info.vregs param.slot).next fun _ _ => hrest
    · exact hrest

/-- **Copying what comes in** takes plain lines. -/
theorem lays_copyVariadicPointer (reach : UInt8 → Prop) (body : List Node) (pointerSlot : UInt8)
    (count : Option VReg) : Lays c (Growth.Plain reach) (do
      let pointer ←
        if body.any isVaStart then do
          let (lo, hi) ← newPair
          copySlots pointerSlot [lo, hi]
          pure (some (lo, hi))
        else pure none
      return (count, pointer)) fun _ => True := by
  split
  · exact lays_newPair.next fun pair _ => (lays_copySlots _ _).next fun _ _ =>
      (Lowers.pure (Q := fun _ => True) trivial each_nil).next fun _ _ => .pure trivial each_nil
  · exact (Lowers.pure (Q := fun _ => True) trivial each_nil).next fun _ _ =>
      .pure trivial each_nil

theorem lays_copyIncoming (reach : UInt8 → Prop) :
    Lays c (Growth.Plain reach) copyIncoming fun _ => True := by
  have hpointer : ∀ body, Lays c (Growth.Plain reach) (copyResultPointer body) fun _ => True := by
    intro body
    unfold copyResultPointer
    split
    · refine Lowers.next (Q := (· = c)) (.read each_nil) fun c' _ => ?_
      split
      · exact lays_newPair.next fun pair _ => (lays_copySlots _ _).next fun _ _ =>
          .pure trivial each_nil
      · exact lays_invalid _
    · exact .pure trivial each_nil
  have hvariadic : ∀ body, Lays c (Growth.Plain reach) (copyVariadic body) fun _ => True := by
    intro body
    unfold copyVariadic
    simp only
    split
    · refine Lowers.next (Q := (· = c)) (.read each_nil) fun c' _ => ?_
      split
      · rename_i countSlot pointerSlot _ _
        split
        · exact lays_newVReg.next fun v _ => (lays_copySlots _ _).next fun _ _ =>
            (Lowers.pure (Q := fun _ => True) trivial each_nil).next fun _ _ =>
              lays_copyVariadicPointer reach body pointerSlot _
        · exact (Lowers.pure (Q := fun _ => True) trivial each_nil).next fun _ _ =>
            lays_copyVariadicPointer reach body pointerSlot _
      · exact lays_invalid _
    · exact .pure trivial each_nil
  refine Lowers.next (Q := (· = c)) (.read each_nil) fun c' _ => ?_
  refine (lays_copyParams _).next fun _ _ => (hpointer _).next fun _ _ => ?_
  exact (hvariadic _).next fun _ _ => .pure trivial each_nil

/-- The code of a function as a walk. -/
structure Outline (r : Rules) (f : FunctionDef) (b : Binding) (s : SelectedCode)
    (es : List Entry) : Prop where
  code : s.code = es.map Prod.fst
  calls : s.calls = .ofList (callsFrom 0 es)
  walk : Walk r (fun l => r.names l ∨ .label l ∈ s.code) idle ⟨0, bodyEndsWithX b f.body⟩ es
  labels : ∀ id, .label id ∈ f.body → .label (Naming.nodeLabel f.name id) ∈ s.code
  exit : .label (Naming.exitLabel f.name) ∈ s.code

/-- The steps of a selection that has succeeded. -/
theorem selectFunction_ok {conv : Convention} {bindings : Std.TreeMap String Binding}
    {limits : Limits} {f : FunctionDef} {selected : SelectedCode} {b : Binding}
    (h : selectFunction conv bindings limits f = .ok selected)
    (hb : bindings[f.name]? = some b) :
    ∃ (temps : Std.TreeMap Temp TempInfo) (next : UInt32) (hidden : Hidden) (st₁ st₂ : State),
      copyIncoming { convention := conv, bindings, limits, function := f, binding := b, temps }
        { draft := .create conv.zeroPage.pointerLo next, nextLabel := 0 } = .ok (hidden, st₁) ∧
      (do lowerBody f.body; label (Naming.exitLabel f.name) : Lower Unit)
        { convention := conv, bindings, limits, function := f, binding := b, temps, hidden } st₁ =
          .ok ((), st₂) ∧
      frameLocals f = .ok selected.locals ∧ selected.name = f.name ∧
      selected.code = st₂.draft.code ∧ selected.calls = .ofList st₂.draft.calls := by
  unfold selectFunction at h
  simp only [hb] at h
  obtain ⟨numbering, -, h1⟩ := Computations.bind_eq_ok.mp h
  obtain ⟨⟨hidden, st₁⟩, hincoming, h2⟩ := Computations.bind_eq_ok.mp h1
  obtain ⟨⟨u, st₂⟩, hbody, h3⟩ := Computations.bind_eq_ok.mp h2
  obtain ⟨locals, hlocals, h4⟩ := Computations.bind_eq_ok.mp h3
  cases h4
  exact ⟨numbering.temps, numbering.nextVReg, hidden, st₁, st₂, hincoming, hbody, hlocals, rfl, rfl,
    rfl⟩

/-- The body of a function and its exit. -/
theorem lowers_function (hbound : Bound c.convention c.bindings)
    (hfits : Fits r c.bindings c.function c.binding) :
    Lowers Extends c (fun es => Shaped r idle ⟨0, bodyEndsWithX c.binding c.function.body⟩ es ∧
      HasLabels c.function.name c.function.body es ∧
      .label (Naming.exitLabel c.function.name) ∈ es.map Prod.fst)
      (do lowerBody c.function.body; label (Naming.exitLabel c.function.name)) fun _ => True := by
  have hexit : Step r r.names ⟨0, bodyEndsWithX c.binding c.function.body⟩
      ⟨0, bodyEndsWithX c.binding c.function.body⟩
      (.label (Naming.exitLabel c.function.name), none) := by
    refine .label _ hfits.placed fun _ hx => ?_
    rw [hfits.exitX]
    unfold bodyEndsWithX at hx
    split at hx
    · exact (Bool.and_eq_true_iff.mp hx).2
    · cases hx
  refine (forms_lowerBody hbound hfits _ fun _ hn => hn).bind
    (S := (· = [(.label (Naming.exitLabel c.function.name), none)])) (fun _ _ => ?_) ?_
  · intro st u st' hok htracks
    cases hok
    have hgrown := Grown.push st.draft (.label (Naming.exitLabel c.function.name))
    exact ⟨⟨_, ⟨hgrown.code, hgrown.calls, le_rfl, hgrown.tracks⟩, rfl⟩, trivial⟩
  · rintro es es' ⟨hshaped, hlabels⟩ rfl
    refine ⟨hshaped.append (Walk.single hexit).shaped, fun id hid => ?_, by simp⟩
    rw [List.map_append]
    exact List.mem_append_left _ (hlabels id hid)

/-- **The code of a function is a walk under any rules that allow for its body.** -/
theorem selected_outline {conv : Convention} {bindings : Std.TreeMap String Binding}
    {limits : Limits} {f : FunctionDef} {selected : SelectedCode} {b : Binding}
    (h : selectFunction conv bindings limits f = .ok selected)
    (hb : bindings[f.name]? = some b) (hbound : Bound conv bindings)
    (hfits : Fits r bindings f b) : ∃ es, Outline r f b selected es := by
  obtain ⟨temps, next, hidden, st₁, st₂, hincoming, hbody, -, -, hcode, hcalls⟩ :=
    selectFunction_ok h hb
  have htracks : TracksA (.create conv.zeroPage.pointerLo next) := fun o ho =>
    (List.not_mem_nil ho).elim
  obtain ⟨⟨es₁, hes₁, hplain⟩, -⟩ := lays_copyIncoming r.reach _ _ _ hincoming htracks
  obtain ⟨⟨es₂, hes₂, hshaped, hlabels, hexit⟩, -⟩ := lowers_function
    (c := { convention := conv, bindings, limits, function := f, binding := b, temps, hidden })
    hbound hfits _ _ _ hbody (hes₁.draft.tracks htracks)
  have hall : Extends _ st₂ (es₁ ++ es₂) := Chained.trans hes₁.toExtends hes₂
  have hcode' : selected.code = (es₁ ++ es₂).map Prod.fst := hcode.trans hall.code
  have hwalk : Shaped r idle ⟨0, bodyEndsWithX b f.body⟩ (es₁ ++ es₂) :=
    Shaped.append (Walk.ofPlain (Nat.zero_le _) hplain).shaped hshaped
  have hmem : ∀ line ∈ es₂.map Prod.fst, line ∈ selected.code := fun line hline => by
    rw [hcode', List.map_append]
    exact List.mem_append_right _ hline
  refine ⟨es₁ ++ es₂, hcode', ?_, ?_, fun id hid => hmem _ (hlabels id hid), hmem _ hexit⟩
  · rw [hcalls, hall.calls]
    rfl
  · rw [hcode']
    exact hwalk

end Codegen6502.Proofs.Selecting.Bodies
