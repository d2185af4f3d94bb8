import Codegen6502.Proofs.Selecting.FrameReach
import Codegen6502.Proofs.Selecting.Success

/-!
# The sizes that selection adds up

Selection adds up two sizes in words: the end of the furthest access to the frame (`frameTop`), and
the bytes of the variadic arguments of a call (`pushVariadic`).  Each is compared with 255 after it
has been added up.  A size that is no word is never compared: the compiler ends where the sum leaves
the word.

* `frameNeed` and `sizeOf` are the sizes themselves, and `wordOf` and `sized` what is made of a
  size;
* `FrameCounted`, `BlockCounted`: a counter is its size if that is a word, and passes its check
  exactly if the size is at most 255;
* `counters_exact`: so it is for the frame and for every block, and in a function that is selected
  both counters are their sizes, and at most 255.
-/

namespace Codegen6502.Proofs.Selecting.Counters

open Selection Places Shapes Nodes Bodies FrameReach Success

variable {c : Context} {st st' : State} {node : Node} {next : Option Node} {taken : Bool}
  {callee : String} {shape : Binding} {args : List Argument} {block : UInt16} {f : FunctionDef}

/-- What is made of a size: it is used up to 255, refused up to the largest word, and not counted
beyond. -/
def sized (n : ℕ) (tooLarge : CompileError) : Compile ℕ :=
  if n ≤ 0xFF then .ok n else if n < 0x10000 then .error tooLarge else .error (.overflow "add")

/-! ### The frame -/

/-- What the counter of the frame of a function is worth. -/
structure FrameCounted (f : FunctionDef) : Prop where
  exact : frameTop f.body = wordOf (frameNeed f.body)
  checked : (frameLocals f).map (·.toNat) =
    sized (frameNeed f.body) (.invalidProgram f.name "local frame larger than 255 bytes")

theorem frameCounted (f : FunctionDef) : FrameCounted f where
  exact := frameTop_eq f.body
  checked := by
    unfold frameLocals sized
    rw [frameTop_eq, wordOf]
    by_cases hword : frameNeed f.body < 0x10000
    · have hneed : (UInt16.ofNat (frameNeed f.body)).toNat = frameNeed f.body :=
        UInt16.toNat_ofNat_of_lt' hword
      rw [if_pos hword, if_pos hword]
      change (if UInt16.ofNat (frameNeed f.body) ≤ 0xFF then _ else _ : Compile UInt8).map _ = _
      by_cases hsmall : frameNeed f.body ≤ 0xFF
      · have hle : (UInt16.ofNat (frameNeed f.body)).toNat ≤ 0xFF := hneed.trans_le hsmall
        rw [if_pos hsmall, if_pos (UInt16.le_iff_toNat_le.mpr hle)]
        refine congrArg Except.ok ?_
        change (UInt16.ofNat (frameNeed f.body)).toUInt8.toNat = frameNeed f.body
        rw [UInt16.toNat_toUInt8, hneed]
        omega
      · rw [if_neg hsmall, if_neg fun hle => hsmall (hneed ▸ UInt16.le_iff_toNat_le.mp hle)]
        rfl
    · rw [if_neg hword, if_neg hword, if_neg (by omega)]
      rfl

/-! ### Blocks of variadic arguments -/

/-- A step gives results of a kind only. -/
def Gives {α : Type} (c : Context) (m : Lower α) (Q : α → Prop) : Prop :=
  ∀ st a st', m c st = .ok (a, st') → Q a

namespace Gives

variable {α β : Type} {m : Lower α} {g : α → Lower β} {Q : β → Prop}

theorem pure {b : β} (h : Q b) : Gives c (pure b) Q := fun _ _ _ hb => (pure_ok.mp hb).1 ▸ h

theorem behind (h : ∀ a, Gives c (g a) Q) : Gives c (m >>= g) Q := fun _ _ _ hb =>
  let ⟨a, _, _, hg⟩ := bind_ok.mp hb
  h a _ _ _ hg

end Gives

/-- Arguments with their bytes at hand. -/
def Handy (c : Context) (args : List Argument) : Prop :=
  ∀ arg ∈ args, arg.type.isScalar = true ∧ AtHand c arg.value arg.type

theorem sizeOf_replicate (n : ℕ) (arg : Argument) :
    Bodies.sizeOf (List.replicate n arg) = n * arg.type.size.toNat := by
  induction n with
  | zero => rw [Nat.zero_mul]; rfl
  | succ n ih => rw [List.replicate_succ, Bodies.sizeOf_cons, ih, Nat.succ_mul]

theorem works_pushBytes (bytes : List ByteLoc) : Works c (pushBytes bytes) fun _ => True := by
  unfold pushBytes
  induction bytes.reverse with
  | nil => exact .pure trivial
  | cons byte rest ih =>
    exact Works.next (Works.next (works_modifyDraft _) fun _ _ => works_modifyDraft _) fun _ _ => ih

theorem works_addWords {a b : UInt16} (h : a.toNat + b.toNat < 0x10000) :
    Works c (liftM (addWords a b) : Lower UInt16) (·.toNat = a.toNat + b.toNat) := fun st => by
  have hsum : (UInt16.ofNat (a.toNat + b.toNat)).toNat = a.toNat + b.toNat :=
    UInt16.toNat_ofNat_of_lt' h
  rw [addWords_eq_ok_iff.mpr hsum]
  exact ⟨_, st, rfl, hsum⟩

theorem fails_addWords {a b : UInt16} (h : 0x10000 ≤ a.toNat + b.toNat) :
    Fails c (liftM (addWords a b) : Lower UInt16) (.overflow "add") := fun st => by
  rw [addWords_eq_error_iff.mpr ⟨rfl, h⟩]
  rfl

/-- Arguments with their bytes at hand are pushed as long as their size is a word. -/
theorem works_pushVariadic : ∀ {args : List Argument}, Handy c args → Bodies.sizeOf args < 0x10000 →
    Works c (pushVariadic node args) (·.toNat = Bodies.sizeOf args)
  | [], _, _ => .pure rfl
  | arg :: rest, h, hsize => by
    obtain ⟨⟨hscalar, hvalue⟩, hrest⟩ := List.forall_mem_cons.mp h
    rw [Bodies.sizeOf_cons] at hsize ⊢
    refine (works_pushVariadic hrest (Nat.lt_of_add_right_lt hsize)).next fun above habove => ?_
    refine (works_checkScalar hscalar node).next fun _ _ => Works.next hvalue fun bytes _ => ?_
    rw [← habove] at hsize ⊢
    exact (works_pushBytes bytes).next fun _ _ => works_addWords hsize

/-- The first argument, from the back, with which the size is no word ends the compilation. -/
theorem fails_pushVariadic : ∀ {args : List Argument}, Handy c args → 0x10000 ≤ Bodies.sizeOf args →
    Fails c (pushVariadic node args) (.overflow "add")
  | [], _, hsize => absurd hsize (by decide)
  | arg :: rest, h, hsize => by
    obtain ⟨⟨hscalar, hvalue⟩, hrest⟩ := List.forall_mem_cons.mp h
    by_cases hword : Bodies.sizeOf rest < 0x10000
    · rw [Bodies.sizeOf_cons] at hsize
      refine (works_pushVariadic hrest hword).fails fun above habove => ?_
      refine (works_checkScalar hscalar node).fails fun _ _ => Works.fails hvalue fun bytes _ => ?_
      rw [← habove] at hsize
      exact (works_pushBytes bytes).fails fun _ _ => fails_addWords hsize
    · exact (fails_pushVariadic hrest (not_lt.mp hword)).next _

/-- **The counter of a block is its size**, whatever is pushed. -/
theorem toNat_block : ∀ {args : List Argument} {st st' : State} {block : UInt16},
    pushVariadic node args c st = .ok (block, st') → block.toNat = Bodies.sizeOf args
  | [], _, _, _, h => (pure_ok.mp h).1 ▸ rfl
  | arg :: rest, st, st', block, h => by
    obtain ⟨above, st₁, hrest, h⟩ := bind_ok.mp h
    obtain ⟨_, st₂, -, h⟩ := bind_ok.mp h
    obtain ⟨locs, st₃, -, h⟩ := bind_ok.mp h
    obtain ⟨_, st₄, -, h⟩ := bind_ok.mp h
    rw [addWords_eq_ok_iff.mp (lift_ok h).1, toNat_block hrest, Bodies.sizeOf_cons]

/-- The error of a block that is too large. -/
def tooMany (c : Context) (callee : String) (n : ℕ) : CompileError :=
  .invalidProgram c.function.name
    (toString n ++ " bytes of variadic arguments to '" ++ callee ++ "'")

theorem fails_passPointer (h : ¬block.toNat ≤ 0xFF) :
    Fails c (passPointer callee shape block) (tooMany c callee block.toNat) := fun st => by
  have hlarge : block > 0xFF := not_le.mp h
  unfold passPointer
  rw [if_pos hlarge]
  rfl

theorem works_passPointer (h : block.toNat ≤ 0xFF) (hcount : shape.vaCountSlot.isSome)
    (hpointer : shape.vaPtrSlot.isSome) :
    Works c (passPointer callee shape block) (· = block) := fun st => by
  obtain ⟨count, hcount⟩ := Option.isSome_iff_exists.mp hcount
  obtain ⟨pointer, hpointer⟩ := Option.isSome_iff_exists.mp hpointer
  have hsmall : ¬block > 0xFF := not_lt.mpr h
  unfold passPointer
  rw [if_neg hsmall, hcount, hpointer]
  exact ⟨block, _, rfl, rfl⟩

theorem gives_passPointer (h : block.toNat ≤ 0xFF) :
    Gives c (passPointer callee shape block) (· = block) := by
  have hsmall : ¬block > 0xFF := not_lt.mpr h
  unfold passPointer
  rw [if_neg hsmall]
  split
  · exact .behind fun _ => .behind fun _ => .behind fun _ => .behind fun _ => .behind fun _ =>
      .behind fun _ => .pure rfl
  · exact fun _ _ _ h => by cases h

/-- What passes is the block as it has been counted, and it is small. -/
theorem passed_block (h : passVariadic node callee shape args c st = .ok (block, st')) :
    block.toNat = Bodies.sizeOf args ∧ Bodies.sizeOf args ≤ 0xFF := by
  rw [passVariadic_eq] at h
  obtain ⟨pushed, st₁, hpush, hpass⟩ := bind_ok.mp h
  rw [← toNat_block hpush]
  by_cases hsmall : pushed.toNat ≤ 0xFF
  · exact ⟨congrArg UInt16.toNat (gives_passPointer hsmall _ _ _ hpass), hsmall⟩
  · rw [fails_passPointer hsmall] at hpass
    cases hpass

/-- Arguments with their bytes at hand are passed if their size is at most 255. -/
theorem works_passVariadic (hargs : Handy c args) (hsmall : Bodies.sizeOf args ≤ 0xFF)
    (hcount : shape.vaCountSlot.isSome) (hpointer : shape.vaPtrSlot.isSome) :
    Works c (passVariadic node callee shape args) (·.toNat = Bodies.sizeOf args) := by
  rw [passVariadic_eq]
  refine (works_pushVariadic hargs (by omega)).next fun block hblock => ?_
  exact (works_passPointer (hblock.trans_le hsmall) hcount hpointer).imp fun _ heq => heq ▸ hblock

/-- A larger size that is a word is refused, and the message says how large it is. -/
theorem fails_passVariadic (hargs : Handy c args) (hlarge : ¬Bodies.sizeOf args ≤ 0xFF)
    (hword : Bodies.sizeOf args < 0x10000) : Fails c (passVariadic node callee shape args)
      (tooMany c callee (Bodies.sizeOf args)) := by
  rw [passVariadic_eq]
  refine (works_pushVariadic hargs hword).fails fun block hblock => ?_
  rw [← hblock] at hlarge ⊢
  exact fails_passPointer hlarge

/-- What the counter of a block of variadic arguments is worth. -/
structure BlockCounted (c : Context) (node : Node) (args : List Argument) (st : State) : Prop where
  exact : ∀ block st', pushVariadic node args c st = .ok (block, st') →
    block.toNat = Bodies.sizeOf args
  passed : ∀ callee shape block st', passVariadic node callee shape args c st = .ok (block, st') →
    block.toNat = Bodies.sizeOf args ∧ Bodies.sizeOf args ≤ 0xFF
  /-- Where nothing else stands in the way of the arguments, the counter decides. -/
  counted : Handy c args → (pushVariadic node args c st).map (·.1) = wordOf (Bodies.sizeOf args)
  checked : Handy c args → ∀ (callee : String) (shape : Binding), shape.vaCountSlot.isSome →
    shape.vaPtrSlot.isSome → (passVariadic node callee shape args c st).map (·.1.toNat) =
      sized (Bodies.sizeOf args) (tooMany c callee (Bodies.sizeOf args))

theorem blockCounted (c : Context) (node : Node) (args : List Argument) (st : State) :
    BlockCounted c node args st where
  exact block st' := toNat_block
  passed callee shape block st' := passed_block
  counted hargs := by
    rw [wordOf]
    split
    · rename_i hword
      obtain ⟨block, st', hpush, hblock⟩ := works_pushVariadic hargs hword st
      rw [hpush, ← hblock, UInt16.ofNat_toNat]
      rfl
    · rename_i hlarge
      rw [fails_pushVariadic hargs (not_lt.mp hlarge)]
      rfl
  checked hargs callee shape hcount hpointer := by
    unfold sized
    split_ifs with hsmall hword
    · obtain ⟨block, st', hpass, hblock⟩ :=
        works_passVariadic hargs hsmall hcount hpointer st
      rw [hpass, ← hblock]
      rfl
    · rw [fails_passVariadic hargs hsmall hword st]
      rfl
    · rw [passVariadic_eq, (fails_pushVariadic hargs (not_lt.mp hword)).next _ st]
      rfl

/-! ### Calls of a function that is selected -/

theorem takesStore_false : TakesStore next false := fun h => by cases h

theorem gives_lowerByteWise {result : Temp} {op : BinaryOp} {lhs rhs : Value} {type : ValueType} :
    Gives c (lowerByteWise result op lhs rhs type next) (TakesStore next) := by
  refine .behind fun generic => ?_
  split
  · exact fun _ _ _ _ _ => ⟨_, _, _, rfl⟩
  · exact .behind fun _ => .behind fun _ => .pure takesStore_false

theorem gives_lowerBinary {result : Temp} {op : BinaryOp} {lhs rhs : Value} {type : ValueType} :
    Gives c (lowerBinary node result op lhs rhs type next) (TakesStore next) := by
  refine .behind fun _ => ?_
  split
  · refine .behind fun _ => .behind fun _ => ?_
    split
    · exact .behind fun _ => .behind fun _ => .pure takesStore_false
    · exact fun _ _ _ h => by cases h
  · cases op with
    | mul | div | mod => exact fun _ _ _ h => by cases h
    | shl | shr => exact .behind fun _ => .pure takesStore_false
    | add | sub | and | or | xor => exact gives_lowerByteWise

/-- A node takes nothing along but a store. -/
theorem gives_lowerNode : Gives c (lowerNode node next) (TakesStore next) := by
  cases node with
  | binary => exact gives_lowerBinary
  | label => exact .behind fun _ => .behind fun _ => .pure takesStore_false
  | _ => exact .behind fun _ => .pure takesStore_false

/-- **Every call of a body is lowered**: only stores are taken along by the node in front of
them. -/
theorem lowered_of_mem : ∀ {nodes : List Node} {st st' : State} {u : Unit},
    lowerBody nodes c st = .ok (u, st') → node ∈ nodes →
    (∀ value dest type, node ≠ .store value dest type) →
    ∃ next st₁ taken st₂, lowerNode node next c st₁ = .ok (taken, st₂)
  | [], _, _, _, _, hmem, _ => (List.not_mem_nil hmem).elim
  | [first], st, st', u, h, hmem, _ => by
    obtain ⟨taken, st₁, hfirst, -⟩ := bind_ok.mp h
    obtain rfl := List.mem_singleton.mp hmem
    exact ⟨_, _, _, _, hfirst⟩
  | first :: second :: rest, st, st', u, h, hmem, hstore => by
    unfold lowerBody at h
    obtain ⟨taken, st₁, hfirst, hbehind⟩ := bind_ok.mp h
    rcases List.mem_cons.mp hmem with rfl | hlater
    · exact ⟨_, _, _, _, hfirst⟩
    · split at hbehind
      · -- The second node has been taken along, so it is a store and not the node at hand.
        rename_i htrue
        obtain ⟨value, dest, type, hsecond⟩ := gives_lowerNode _ _ _ hfirst htrue
        rw [Option.some.inj hsecond] at hlater
        have hrest := (List.mem_cons.mp hlater).resolve_left (hstore value dest type)
        exact lowered_of_mem hbehind hrest hstore
      · exact lowered_of_mem hbehind hlater hstore

/-- A call that is lowered passes its variadic arguments to a callee of a known shape. -/
theorem call_lowered {result : Option Temp} {type : ValueType} {buffer : Option Place}
    (h : lowerNode (.call result callee args type buffer) next c st = .ok (taken, st')) :
    ∃ shape, shapeOf c callee args type = .ok shape ∧ (shape.variadic = true →
      ∃ st₁ block st₂, passVariadic (.call result callee args type buffer) callee shape
        (args.drop shape.params.length) c st₁ = .ok (block, st₂)) := by
  obtain ⟨_, st₁, hcall, -⟩ := bind_ok.mp h
  rw [lowerCall_eq] at hcall
  obtain ⟨c', st₂, hread, hcall⟩ := bind_ok.mp hcall
  cases hread
  obtain ⟨shape, st₃, hshape, hcall⟩ := bind_ok.mp hcall
  obtain ⟨kind, st₄, -, hcall⟩ := bind_ok.mp hcall
  obtain ⟨_, st₅, -, hcall⟩ := bind_ok.mp hcall
  obtain ⟨d, st₆, hcandidate, -⟩ := bind_ok.mp hcall
  obtain ⟨st₇, hbuild, -⟩ := candidate_ok hcandidate
  obtain ⟨block, st₈, hblock, -⟩ := bind_ok.mp hbuild
  refine ⟨shape, (lift_ok hshape).1, fun hvariadic => ?_⟩
  rw [passBlock, if_pos hvariadic] at hblock
  exact ⟨_, block, st₈, hblock⟩

/-- **The counters are exact.**  The frame of a function and the block of variadic arguments of a
call are counted right if they are smaller than 65536 bytes; otherwise the compiler ends where the
sum leaves the word.  Sizes up to 255 pass the checks, and larger words are refused.  So in a
function that is selected, both counters are the sizes, and the sizes are at most 255. -/
theorem counters_exact (conv : Convention) (bindings : Std.TreeMap String Binding)
    (limits : Limits) (f : FunctionDef) :
    FrameCounted f ∧
    (∀ (c : Context) (node : Node) (args : List Argument) (st : State), BlockCounted c node args st) ∧
    ∀ s : SelectedCode, selectFunction conv bindings limits f = .ok s →
      s.locals.toNat = frameNeed f.body ∧ frameNeed f.body ≤ 0xFF ∧
      ∀ (result : Option Temp) (callee : String) (args : List Argument) (type : ValueType)
          (buffer : Option Place), .call result callee args type buffer ∈ f.body →
        ∃ c shape, c.convention = conv ∧ c.bindings = bindings ∧ c.function = f ∧
          shapeOf c callee args type = .ok shape ∧
          (shape.variadic = true → ∃ st block st',
            passVariadic (.call result callee args type buffer) callee shape
              (args.drop shape.params.length) c st = .ok (block, st') ∧
            block.toNat = Bodies.sizeOf (args.drop shape.params.length) ∧
            Bodies.sizeOf (args.drop shape.params.length) ≤ 0xFF) := by
  refine ⟨frameCounted f, blockCounted, fun s hs => ?_⟩
  obtain ⟨b, hb⟩ : ∃ b, bindings[f.name]? = some b := by
    cases hb : bindings[f.name]? with
    | some b => exact ⟨b, rfl⟩
    | none =>
      unfold selectFunction at hs
      simp only [hb] at hs
      cases hs
  obtain ⟨temps, next, hidden, st₁, st₂, -, hbody, hlocals, -, -, -⟩ := selectFunction_ok hs hb
  obtain ⟨_, st₃, hnodes, -⟩ := bind_ok.mp hbody
  have hneed := locals_eq_need hlocals
  have hlt := s.locals.toNat_lt
  refine ⟨hneed, by omega, fun result callee args type buffer hmem => ?_⟩
  have hcall : ∀ value dest type', Node.call result callee args type buffer ≠ .store value dest type' :=
    fun _ _ _ h => by cases h
  obtain ⟨next', st₄, taken, st₅, hlowered⟩ := lowered_of_mem hnodes hmem hcall
  obtain ⟨shape, hshape, hvariadic⟩ := call_lowered hlowered
  refine ⟨_, shape, rfl, rfl, rfl, hshape, fun h => ?_⟩
  obtain ⟨st, block, st', hpass⟩ := hvariadic h
  exact ⟨st, block, st', hpass, passed_block hpass⟩

/-! ### Sizes at the limits -/

/-- A function that hands a byte of its frame to a function with a structure as its result. -/
def wideFunction (size : UInt16) : FunctionDef where
  signature := { name := "f", params := [], returnType := .void }
  body := [.call none "g" [⟨.memory (.frameByte 1), .u8⟩] (.struct size) (some (.absolute 0x2000)),
    .ret none]

/-- The program of this function and the function that it calls. -/
def wideProgram (size : UInt16) : Program where
  name := "m"
  functions := [wideFunction size,
    { signature := { name := "g", params := [.u8], returnType := .struct size }, params := [0],
      isExternal := true }]

/-- Variadic arguments of 65536 bytes. -/
def wideBlock : List Argument := List.replicate 0x8000 ⟨.constant 0, .u16⟩

/-- With a structure of 254 bytes the frame has 255 bytes, and the function is selected.  With one
of 65535 bytes the frame ends behind byte 65535: the compiler stops, and it stops at a block of
65536 bytes. -/
theorem wide_sizes_stop :
    (∃ bindings s, Compilation.bindAll plainConvention (wideProgram 254) = .ok bindings ∧
      selectFunction plainConvention bindings {} (wideFunction 254) = .ok s ∧
      s.locals.toNat = 255) ∧
    (frameNeed (wideFunction 0xFFFF).body = 0x10000 ∧
      frameTop (wideFunction 0xFFFF).body = .error (.overflow "add") ∧
      ∃ bindings, Compilation.bindAll plainConvention (wideProgram 0xFFFF) = .ok bindings ∧
        selectFunction plainConvention bindings {} (wideFunction 0xFFFF) =
          .error (.overflow "add")) ∧
    ∀ (c : Context) (node : Node) (callee : String) (shape : Binding) (st : State),
      c.limits = {} → shape.vaCountSlot.isSome → shape.vaPtrSlot.isSome →
        Bodies.sizeOf wideBlock = 0x10000 ∧
        passVariadic node callee shape wideBlock c st = .error (.overflow "add") := by
  refine ⟨?_, ?_, fun c node callee shape st hlimits hcount hpointer => ?_⟩
  · have hcheck : (Compilation.bindAll plainConvention (wideProgram 254) >>= fun bindings =>
        selectFunction plainConvention bindings {} (wideFunction 254)).toOption.any (fun _ => true) =
          true := by
      decide +kernel
    obtain ⟨s, hs, -⟩ := Computations.ok_of_any hcheck
    obtain ⟨bindings, hbind, hselect⟩ := Computations.bind_eq_ok.mp hs
    obtain ⟨-, -, hselected⟩ := counters_exact plainConvention bindings {} (wideFunction 254)
    exact ⟨bindings, s, hbind, hselect, (hselected s hselect).1⟩
  · have hneed : frameNeed (wideFunction 0xFFFF).body = 0x10000 := by decide
    have hcheck : (Compilation.bindAll plainConvention (wideProgram 0xFFFF)).toOption.any
        (fun bindings => match selectFunction plainConvention bindings {} (wideFunction 0xFFFF) with
          | .error e => decide (e = .overflow "add")
          | .ok _ => false) = true := by
      decide +kernel
    obtain ⟨bindings, hbind, hstop⟩ := Computations.ok_of_any hcheck
    obtain ⟨hframe, -, -⟩ := counters_exact plainConvention bindings {} (wideFunction 0xFFFF)
    have htop := hframe.exact
    rw [hneed] at htop
    refine ⟨hneed, htop, bindings, hbind, ?_⟩
    split at hstop
    · rename_i e he
      rw [he, of_decide_eq_true hstop]
    · cases hstop
  · have hsize : Bodies.sizeOf wideBlock = 0x10000 := sizeOf_replicate ..
    have hzero : InRange c 0 .u16 := by
      rw [InRange, hlimits]
      decide
    have hhandy : Handy c wideBlock := fun arg harg => by
      obtain rfl := List.eq_of_mem_replicate harg
      exact ⟨rfl, atHand_constant hzero⟩
    obtain ⟨-, hcounted, -⟩ := counters_exact c.convention c.bindings c.limits c.function
    have hchecked := (hcounted c node wideBlock st).checked hhandy callee shape hcount hpointer
    rw [hsize] at hchecked
    refine ⟨hsize, ?_⟩
    cases hpass : passVariadic node callee shape wideBlock c st with
    | ok passed =>
      rw [hpass] at hchecked
      cases hchecked
    | error e =>
      rw [hpass] at hchecked
      exact congrArg Except.error (Except.error.inj hchecked)

end Codegen6502.Proofs.Selecting.Counters
