import Codegen6502.Proofs.Selecting.FrameReach
import Codegen6502.Proofs.Selecting.Incoming
import Codegen6502.Proofs.Selecting.Wording

/-!
# The zero-page cells of selected code

Calls store their arguments in slots, which binding has checked to lie inside the argument area; a
capture and a jump to one store theirs in the first slots without such a check (`slotsTaken`).
Apart from slots and the scratch pointer, the only zero-page cells that lowering stores to are those
that the program names (`StoresTo`).

`worded_of_selected` is the result: under any set of cells that includes these, every line of the
code of a function is of one of the forms.  `fills_selected` is the other side: the slots of
captures and jumps are stored to, whatever the size of the argument area.
-/

namespace Codegen6502.Proofs.Selecting.CellUse

open Selection Places Growth Nodes Bodies Shapes Vocabulary Wording
open Incoming (bind_layout bindSignature_layout)
open FrameReach (reachRules fits_reachRules reached_everywhere)

variable {c : Context} {may : UInt8 → Prop} {value : Value} {type : ValueType} {result : Temp}

/-! ### Slots -/

/-- The cells of the argument area may be written. -/
def Open (may : UInt8 → Prop) (z : ZeroPage) : Prop :=
  ∀ slot : UInt8, slot < z.argSlots → may (z.arg slot)

/-- Slots inside the argument area. -/
def InArea (z : ZeroPage) (slot : UInt8) (n : ℕ) : Prop := slot.toNat + n ≤ z.argSlots.toNat

theorem Open.slot {z : ZeroPage} {slot : UInt8} {n i : ℕ} (h : Open may z) (hin : InArea z slot n)
    (hi : i < n) : may (z.arg (slot + UInt8.ofNat i)) := by
  have hslots := z.argSlots.toNat_lt
  unfold InArea at hin
  refine h _ (UInt8.lt_iff_toNat_lt.mpr ?_)
  rw [UInt8.toNat_add, UInt8.toNat_ofNat_of_lt' (by simp only [UInt8.size]; omega),
    Nat.mod_eq_of_lt (by omega)]
  omega

theorem inArea_param {z : ZeroPage} : ∀ {types : List ValueType} {first : ℕ},
    first + Convention.paramBytes types ≤ z.argSlots.toNat →
    ∀ p ∈ Convention.paramSlots first types, InArea z p.slot p.type.size.toNat
  | [], _, _, p, hp => (List.not_mem_nil hp).elim
  | type :: types, first, h, p, hp => by
    have hbytes : Convention.paramBytes (type :: types) =
        type.size.toNat + Convention.paramBytes types := totalOf_cons ..
    rw [hbytes] at h
    rcases List.mem_cons.mp hp with rfl | hp
    · have hslots := z.argSlots.toNat_lt
      change (UInt8.ofNat first).toNat + type.size.toNat ≤ _
      rw [UInt8.toNat_ofNat_of_lt' (by simp only [UInt8.size]; omega)]
      omega
    · exact inArea_param (by omega) p hp

/-- The slots of a binding are inside the argument area. -/
structure Housed (z : ZeroPage) (b : Binding) : Prop where
  params : ∀ p ∈ b.params, InArea z p.slot p.type.size.toNat
  result : ∀ slot, b.resultSlot = some slot → InArea z slot 2
  count : ∀ slot, b.vaCountSlot = some slot → InArea z slot 1
  pointer : ∀ slot, b.vaPtrSlot = some slot → InArea z slot 2

theorem housed_of_layout {z : ZeroPage} {b : Binding} {first base : ℕ} {types : List ValueType}
    (h : Incoming.Layout z b first base types) : Housed z b := by
  have hslots := z.argSlots.toNat_lt
  have hfits := h.fits
  have hbehind := h.behind
  refine ⟨?_, fun slot hslot => ?_, fun slot hslot => ?_, fun slot hslot => ?_⟩
  · rw [h.params]
    exact inArea_param (by omega)
  · rcases h.result with ⟨hnone, -⟩ | ⟨hsome, hfirst⟩
    · rw [hnone] at hslot
      cases hslot
    · rw [hsome] at hslot
      cases hslot
      change 0 + 2 ≤ _
      omega
  all_goals
    cases hv : b.variadic with
    | false =>
      obtain ⟨hcount, hpointer⟩ := h.plain hv
      simp [hcount, hpointer] at hslot
    | true =>
      obtain ⟨hcount, hpointer⟩ := h.variadic hv
      rw [if_pos hv] at hfits
      simp only [hcount, hpointer, Option.some.injEq] at hslot
      subst hslot
      unfold InArea
      rw [UInt8.toNat_ofNat_of_lt' (by simp only [UInt8.size]; omega)]
      omega

theorem housed_of_bound {conv : Convention} {bindings : Std.TreeMap String Binding}
    (hbound : Bound conv bindings) {name : String} {b : Binding} (h : bindings[name]? = some b) :
    Housed conv.zeroPage b := by
  obtain ⟨f, hf⟩ := hbound name b h
  obtain ⟨first, base, hl⟩ := bind_layout hf
  exact housed_of_layout hl

theorem housed_of_implied {conv : Convention} {name : String} {args : List Argument} {b : Binding}
    (h : conv.bindImplied name args type = .ok b) : Housed conv.zeroPage b := by
  obtain ⟨b', hb', hrest⟩ := Computations.bind_eq_ok.mp h
  obtain ⟨first, base, hl⟩ := bindSignature_layout hb'
  cases hrest
  have hhoused := housed_of_layout hl
  exact ⟨hhoused.params, hhoused.result, hhoused.count, hhoused.pointer⟩

/-! ### Passing bytes -/

section Passing

variable {slot : UInt8}

theorem speaks_argLoc (h : may (c.convention.zeroPage.arg slot)) :
    Speaks may c (argLoc slot) (Cited (Cell may)) :=
  Speaks.read.next fun _ hc' => .pure (hc' ▸ cell_zeroPage h)

theorem speaks_passByte {byte : ByteLoc} (hbyte : Cited Byte byte)
    (h : may (c.convention.zeroPage.arg slot)) :
    Speaks may c (passByte slot byte) fun _ => True :=
  (speaks_loadA hbyte).next fun _ _ => (speaks_argLoc h).next fun _ hloc => speaks_storeA hloc

theorem speaks_passBytes : ∀ (bytes : List ByteLoc) (slot : UInt8), CitedAll Byte bytes →
    (∀ i < bytes.length, may (c.convention.zeroPage.arg (slot + UInt8.ofNat i))) →
    Speaks may c (passBytes slot bytes) fun _ => True
  | [], _, _, _ => .pure trivial
  | byte :: rest, slot, hbytes, h => by
    obtain ⟨hbyte, hrest⟩ := List.forall_mem_cons.mp hbytes
    have hfirst : may (c.convention.zeroPage.arg slot) := by simpa using h 0 (by simp)
    refine (speaks_passByte hbyte hfirst).next fun _ _ => speaks_passBytes rest _ hrest fun i hi => ?_
    have hnext := h (i + 1) (by simpa using hi)
    rwa [Nat.add_comm, UInt8.ofNat_add, ← UInt8.add_assoc] at hnext

variable (hopen : Open may c.convention.zeroPage)

include hopen

theorem speaks_passIn {bytes : List ByteLoc} (hbytes : CitedAll Byte bytes)
    (hin : InArea c.convention.zeroPage slot bytes.length) :
    Speaks may c (passBytes slot bytes) fun _ => True :=
  speaks_passBytes bytes slot hbytes fun _ hi => hopen.slot hin hi

theorem speaks_passSlot {byte : ByteLoc} (hbyte : Cited Byte byte) {n i : ℕ}
    (hin : InArea c.convention.zeroPage slot n) (hi : i < n) :
    Speaks may c (passByte (slot + UInt8.ofNat i) byte) fun _ => True :=
  speaks_passByte hbyte (hopen.slot hin hi)

omit hopen

/-- The bytes of a value, with their number. -/
theorem speaks_sizedBytes (value : Value) (type : ValueType) :
    Speaks may c (valueBytes value type) fun locs =>
      CitedAll Byte locs ∧ locs.length = type.size.toNat := fun st locs st' hok hst =>
  (speaks_valueBytes value type st locs st' hok hst).imp_right fun h => ⟨h, length_valueBytes hok⟩

end Passing

/-! ### Calls -/

section Calls

theorem speaks_pushBytes {bytes : List ByteLoc} (h : CitedAll Byte bytes) :
    Speaks may c (pushBytes bytes) fun _ => True := by
  have hall : ∀ bytes : List ByteLoc, CitedAll Byte bytes →
      Speaks may c (bytes.forM fun byte => do loadA byte; bare .pha) fun _ => True := by
    intro bytes
    induction bytes with
    | nil => exact fun _ => .pure trivial
    | cons byte rest ih =>
      intro h
      obtain ⟨hbyte, hrest⟩ := List.forall_mem_cons.mp h
      exact Speaks.next ((speaks_loadA hbyte).next fun _ _ => speaks_bare rfl) fun _ _ => ih hrest
  exact hall _ fun loc hloc => h loc (List.mem_reverse.mp hloc)

theorem speaks_lift {α : Type} (x : Compile α) :
    Speaks may c (liftM x : Lower α) (x = .ok ·) := .still fun _ _ _ hok => (lift_ok hok).symm

theorem speaks_pushVariadic {node : Node} : ∀ args : List Argument,
    Speaks may c (pushVariadic node args) fun _ => True
  | [] => .pure trivial
  | arg :: rest =>
    (speaks_pushVariadic rest).next fun _ _ => (speaks_checkScalar arg.type node).next fun _ _ =>
      (speaks_valueBytes _ _).next fun _ hbytes => (speaks_pushBytes hbytes).next fun _ _ =>
        (speaks_lift _).imp fun _ _ => trivial

/-- X is moved out of the way first. -/
theorem speaks_storeWord {dst : List ByteLoc} (h : CitedAll (Cell may) dst) :
    Speaks may c (storeWord dst) fun _ => True := by
  unfold storeWord
  split
  · refine (speaks_bare rfl).next fun _ _ => (speaks_bare rfl).next fun _ _ => ?_
    refine (speaks_storeA (h _ (by simp))).next fun _ _ => (speaks_bare rfl).next fun _ _ => ?_
    exact speaks_storeA (h _ (by simp))
  · exact speaks_internal _

theorem speaks_emitCall {callee : String} {kind : Convention.CallKind} :
    Speaks may c (emitCall callee kind) fun _ => True := by
  cases kind with
  | direct => exact speaks_call
  | trampoline bank =>
    refine (speaks_read rfl (byte_immediate (.symbol callee (-1) .lo))).next fun _ _ => ?_
    refine (speaks_push (.index _ rfl)).next fun _ _ => ?_
    exact speaks_uses.next fun _ _ => speaks_call

theorem speaks_takeResult {callee : String} {shape : Binding} {result : Option Temp} :
    Speaks may c (takeResult callee shape result) fun _ => True := by
  cases result with
  | none => exact .pure trivial
  | some x =>
    refine (speaks_destination x).next fun dst hdst => ?_
    split
    · exact speaks_storeA (hdst _ (by simp))
    · exact speaks_storeWord hdst
    · exact speaks_invalid _

variable {node : Node} {callee : String} {shape : Binding} {args : List Argument}
  {buffer : Option Place}

theorem speaks_checkCall : Speaks may c (checkCall callee shape args buffer) fun _ => True := by
  unfold checkCall
  simp only
  split
  · exact Speaks.next (Q := fun _ => False) (speaks_invalid _) fun _ h => h.elim
  · split
    · exact Speaks.next (Q := fun _ => False) (speaks_invalid _) fun _ h => h.elim
    · split
      · exact speaks_invalid _
      · exact speaks_invalid _
      · exact .pure trivial

variable (hopen : Open may c.convention.zeroPage)
  (hhoused : Housed c.convention.zeroPage shape)

include hopen hhoused

theorem speaks_passPointer {block : UInt16} :
    Speaks may c (passPointer callee shape block) fun _ => True := by
  unfold passPointer
  simp only
  split
  · exact Speaks.next (Q := fun _ => False) (speaks_invalid _) fun _ h => h.elim
  · split
    · rename_i count pointer hcount hpointer
      have hin := hhoused.pointer pointer hpointer
      have hfirst : may (c.convention.zeroPage.arg pointer) := by
        simpa using hopen.slot (i := 0) hin (by omega)
      have hslot : may (c.convention.zeroPage.arg count) := by
        simpa using hopen.slot (i := 0) (hhoused.count count hcount) (by omega)
      refine (speaks_bare rfl).next fun _ _ => (speaks_bare rfl).next fun _ _ => ?_
      refine Speaks.read.next fun c' hc' => ?_
      obtain rfl := hc'
      refine (speaks_push (.storeX hfirst)).next fun _ _ => ?_
      refine (speaks_passSlot (i := 1) hopen (byte_constant _) hin (by omega)).next fun _ _ => ?_
      exact (speaks_passByte (byte_constant _) hslot).next fun _ _ => .pure trivial
    · exact speaks_internal _

theorem speaks_passBlock : Speaks may c (passBlock node callee shape args) fun _ => True := by
  unfold passBlock
  split
  · rw [passVariadic_eq]
    exact (speaks_pushVariadic _).next fun _ _ => speaks_passPointer hopen hhoused
  · exact .pure trivial

theorem speaks_passBuffer : Speaks may c (passBuffer node shape buffer) fun _ => True := by
  unfold passBuffer
  split
  · rename_i slot dest hslot
    exact (speaks_addressBytes _ _).next fun pair hpair =>
      speaks_passIn hopen hpair (hhoused.result slot hslot)
  · exact .pure trivial

omit hhoused in
theorem speaks_passArguments : ∀ pairs : List (Argument × ParamSlot),
    (∀ pair ∈ pairs, InArea c.convention.zeroPage pair.2.slot pair.2.type.size.toNat) →
    Speaks may c (passArguments pairs) fun _ => True
  | [], _ => .pure trivial
  | (arg, param) :: rest, h => by
    obtain ⟨hparam, hrest⟩ := List.forall_mem_cons.mp h
    refine (speaks_sizedBytes _ _).next fun bytes hbytes => ?_
    refine (speaks_passIn hopen hbytes.1 (hbytes.2 ▸ hparam)).next fun _ _ => ?_
    exact speaks_passArguments rest hrest

theorem speaks_callShape {result : Option Temp} {kind : Convention.CallKind} :
    Speaks may c (callShape node result callee args buffer shape kind) fun _ => True := by
  refine (speaks_passBlock hopen hhoused).next fun block _ => ?_
  refine (speaks_passBuffer hopen hhoused).next fun _ _ => ?_
  refine (speaks_passArguments hopen _ fun pair hpair => ?_).next fun _ _ => ?_
  · exact hhoused.params _ (List.of_mem_zip hpair).2
  · exact speaks_emitCall.next fun _ _ => speaks_takeResult.next fun _ _ =>
      Speaks.times _ (speaks_bare rfl)

omit hhoused in
/-- **A call** stores to slots of the argument area. -/
theorem speaks_lowerCall {result : Option Temp} (hbound : Bound c.convention c.bindings) :
    Speaks may c (lowerCall node result callee args type buffer) fun _ => True := by
  rw [lowerCall_eq]
  refine Speaks.read.next fun c' hc' => ?_
  obtain rfl := hc'
  refine (speaks_lift _).next fun shape hshape => (speaks_lift _).next fun kind _ => ?_
  refine speaks_checkCall.next fun _ _ => speaks_commitOnly (speaks_callShape hopen ?_)
  unfold shapeOf at hshape
  split at hshape
  · rename_i found hfound
    cases hshape
    exact housed_of_bound hbound hfound
  · exact housed_of_implied hshape

end Calls

/-! ### Calls of fixed addresses -/

section Fixed

/-- The byte of a register argument can be read. -/
def CitedSome (byte? : Option ByteLoc) : Prop := ∀ byte, byte? = some byte → Cited Byte byte

theorem speaks_registerByte (value? : Option Value) :
    Speaks may c (registerByte value?) CitedSome := by
  cases value? with
  | none => exact .pure fun byte hbyte => by cases hbyte
  | some value =>
    refine (speaks_valueBytes _ _).next fun bytes hbytes => ?_
    split
    · refine (speaks_materialize (hbytes _ (List.mem_cons_self ..))).next fun byte hbyte => .pure ?_
      rintro found hfound
      obtain rfl := Option.some.inj hfound
      exact hbyte
    · exact speaks_internal _

theorem speaks_loadY {y : ByteLoc} (h : Cited Byte y) : Speaks may c (loadY y) fun _ => True := by
  unfold loadY
  split
  · exact speaks_push (.index _ rfl)
  · exact (speaks_loadA h).next fun _ _ => speaks_bare rfl

theorem speaks_loadAX {a x : Option ByteLoc} (ha : CitedSome a) (hx : CitedSome x) :
    Speaks may c (loadAX a x) fun _ => True := by
  have hldx : ∀ value, Speaks may c (op .ldx (.byte value)) fun _ => True := fun value =>
    speaks_push (.index _ rfl)
  unfold loadAX
  split
  · exact .pure trivial
  · exact speaks_loadA (ha _ rfl)
  · split
    · split
      · exact (speaks_loadA (ha _ rfl)).next fun _ _ => hldx _
      · exact hldx _
    · refine (speaks_loadA (ha _ rfl)).next fun _ _ => (speaks_bare rfl).next fun _ _ => ?_
      refine (speaks_loadA (hx _ rfl)).next fun _ _ => (speaks_bare rfl).next fun _ _ => ?_
      exact speaks_bare rfl
    · exact (speaks_loadA (hx _ rfl)).next fun _ _ => speaks_bare rfl

theorem speaks_lowerAsmCall {address : UInt16} {a x y : Option Value} {clobbers : DeclaredClobbers}
    {result : Option Temp} :
    Speaks may c (lowerAsmCall address a x y clobbers result) fun _ => True := by
  refine speaks_commitOnly ((speaks_registerByte a).next fun aByte ha => ?_)
  refine (speaks_registerByte x).next fun xByte hx => (speaks_registerByte y).next fun yByte hy => ?_
  simp only
  split
  on_goal 1 => refine (speaks_loadY (hy _ rfl)).next fun _ _ => ?_
  all_goals
    refine (speaks_loadAX ha hx).next fun _ _ => speaks_callAddress.next fun _ _ => ?_
    split
    · refine (speaks_destination _).next fun dst hdst => ?_
      split
      · exact speaks_storeA (hdst _ (List.mem_cons_self ..))
      · exact speaks_internal _
    · exact .pure trivial

end Fixed

/-! ### Returns and jumps out of functions -/

theorem allSpoken_wordCandidates {base : Draft} {lo hi : ByteLoc} (hbase : Spoken may base)
    (hlo : Cited Byte lo) (hhi : Cited Byte hi) :
    AllSpoken may (returnCandidates.wordCandidates base lo hi) := by
  have hpulled : Spoken may (((((base.loadA lo).bare .pha).loadA hi).bare .tax).bare .pla) :=
    Spoken.bare (Spoken.bare (spoken_loadA (Spoken.bare (spoken_loadA hbase hlo) rfl) hhi) rfl) rfl
  refine List.forall_mem_append.mpr ⟨List.forall_mem_append.mpr ⟨?_, ?_⟩, allSpoken_single hpulled⟩
  · split
    · exact allSpoken_single ((spoken_loadA hbase hlo).push (.index _ rfl))
    · exact allSpoken_nil
  · split
    · refine allSpoken_single (Spoken.read ?_ (byte_immediate (.byte _)) rfl)
      exact Spoken.bare (spoken_loadA hbase hhi) rfl
    · exact allSpoken_nil

theorem speaks_returnCandidates {value : Option Value} :
    Speaks may c (returnCandidates value) (AllSpoken may) := by
  refine Speaks.read.next fun c' hc' => ?_
  obtain rfl := hc'
  simp only
  split
  · exact speaks_single (speaks_candidate (.pure trivial))
  · exact speaks_single (speaks_candidate (.pure trivial))
  · exact speaks_invalid _
  · exact speaks_invalid _
  · exact speaks_invalid _
  · exact speaks_invalid _
  · refine speaks_single (speaks_candidate ((speaks_valueBytes _ _).next fun bytes hbytes => ?_))
    split
    · exact speaks_loadA (hbytes _ (List.mem_cons_self ..))
    · exact speaks_internal _
  · intro st ds st' hok hst
    -- The bytes are made on a fork of the code, which is then set aside.
    obtain ⟨old, st₃, hget, h1⟩ := bind_ok.mp hok
    cases hget
    obtain ⟨u₁, st₄, hset, h2⟩ := bind_ok.mp h1
    cases hset
    obtain ⟨bytes, st₁, hbytes, h3⟩ := bind_ok.mp h2
    obtain ⟨new, st₆, hget', h4⟩ := bind_ok.mp h3
    cases hget'
    obtain ⟨new', st₇, hget'', h5⟩ := bind_ok.mp h4
    cases hget''
    obtain ⟨u₂, st₈, hset', hrest⟩ := bind_ok.mp h5
    cases hset'
    obtain ⟨hbase, hcited⟩ := speaks_valueBytes _ _ _ _ _ hbytes hst.fork
    split at hrest
    · obtain ⟨rfl, rfl⟩ := pure_ok.mp hrest
      exact ⟨hst, allSpoken_wordCandidates hbase (hcited _ (by simp)) (hcited _ (by simp))⟩
    · cases hrest

theorem speaks_lowerReturn {value : Option Value} {isLast : Bool} :
    Speaks may c (lowerReturn value isLast) fun _ => True := by
  refine speaks_returnCandidates.next fun ds hds => ?_
  split
  · exact speaks_commitCheapest hds
  · refine Speaks.read.next fun _ _ => speaks_commitCheapest fun d hd => ?_
    obtain ⟨d', hd', rfl⟩ := List.mem_map.mp hd
    exact (hds d' hd').push (.jump _)

/-- The slots in which a capture and a jump to one pass their buffer and value.  They are not
checked against the size of the argument area. -/
def slotsTaken : Node → List UInt8
  | .setJmp .. => [0, 1]
  | .longJmp .. => [0, 1, 2]
  | _ => []

theorem speaks_lowerSetJmp {node : Node} {buffer : Place}
    (h : ∀ slot ∈ ([0, 1] : List UInt8), may (c.convention.zeroPage.arg slot)) :
    Speaks may c (lowerSetJmp node result buffer) fun _ => True := by
  refine speaks_commitOnly ((speaks_addressBytes _ _).next fun pair hpair => ?_)
  refine (speaks_passBytes _ 0 hpair fun i hi => h _ ?_).next fun _ _ => ?_
  · simp only [List.length_cons, List.length_nil] at hi
    interval_cases i <;> decide
  · exact speaks_uses.next fun _ _ => speaks_call.next fun _ _ =>
      (speaks_destination result).next fun dst hdst => speaks_storeWord hdst

theorem speaks_lowerLongJmp {node : Node} {buffer : Place}
    (h : ∀ slot ∈ ([0, 1, 2] : List UInt8), may (c.convention.zeroPage.arg slot)) :
    Speaks may c (lowerLongJmp node buffer value) fun _ => True := by
  refine speaks_commitOnly ((speaks_addressBytes _ _).next fun pair hpair => ?_)
  refine (speaks_valueBytes _ _).next fun bytes hbytes => ?_
  split
  · refine (speaks_materialize (hbytes _ (List.mem_cons_self ..))).next fun byte hbyte => ?_
    refine (speaks_passBytes _ 0 ?_ fun i hi => h _ ?_).next fun _ _ => ?_
    · exact List.forall_mem_cons.mpr ⟨hpair _ (by simp), citedAll_pair (hpair _ (by simp)) hbyte⟩
    · simp only [List.length_cons, List.length_nil] at hi
      interval_cases i <;> decide
    · exact speaks_uses.next fun _ _ => speaks_push (.jump _)
  · exact speaks_internal _

/-! ### Variadic access -/

theorem speaks_lowerVaStart {cursor : Temp} : Speaks may c (lowerVaStart cursor) fun _ => True := by
  refine Speaks.read.next fun _ _ => ?_
  split
  · rename_i lo hi _
    refine (speaks_destination cursor).next fun dst hdst => speaks_commitOnly ?_
    exact speaks_copyBytes _ dst (citedAll_pair (byte_vreg lo) (byte_vreg hi)) hdst
  · exact speaks_invalid _

theorem speaks_lowerVaCount : Speaks may c (lowerVaCount result) fun _ => True := by
  refine Speaks.read.next fun _ _ => ?_
  split
  · refine (speaks_destination result).next fun dst hdst => speaks_commitOnly ?_
    refine speaks_copyBytes _ dst (fun loc hloc => ?_) hdst
    rw [List.mem_singleton.mp hloc]
    exact byte_vreg _
  · exact speaks_invalid _

theorem speaks_loadBehind {pointer : PointerPair} : ∀ (dst : List ByteLoc) (offset : UInt8),
    CitedAll (Cell may) dst → Speaks may c (loadBehind pointer offset dst) fun _ => True
  | [], _, _ => .pure trivial
  | _ :: rest, offset, h => by
    obtain ⟨hdst, hrest⟩ := List.forall_mem_cons.mp h
    exact (speaks_loadA (cited_indirect _ pointer offset)).next fun _ _ =>
      (speaks_storeA hdst).next fun _ _ => speaks_loadBehind rest (offset + 1) hrest

theorem speaks_lowerVaArg {node : Node} {cursor : Temp} :
    Speaks may c (lowerVaArg node result cursor type) fun _ => True := by
  refine (speaks_checkScalar type node).next fun _ _ => (speaks_tempInfo cursor).next fun info _ => ?_
  split
  · refine (speaks_destination result).next fun dst hdst => speaks_commitOnly ?_
    refine (speaks_loadBehind dst 0 hdst).next fun _ _ => (speaks_loadA (byte_vreg _)).next fun _ _ => ?_
    refine (speaks_bare rfl).next fun _ _ => (speaks_constant rfl).next fun _ _ => ?_
    refine (speaks_storeA (cited_vreg _)).next fun _ _ => (speaks_loadA (byte_vreg _)).next fun _ _ => ?_
    exact (speaks_constant rfl).next fun _ _ => speaks_storeA (cited_vreg _)
  · exact speaks_invalid _

/-! ### Nodes and bodies -/

/-- The zero-page cells of the places that a node stores to. -/
inductive StoresTo : Node → UInt8 → Prop
  | store {value : Value} {dest : Place} {type : ValueType} {cell : UInt8}
    (h : Covers dest type.size.toNat cell) : StoresTo (.store value dest type) cell
  | storeField {value : Value} {dest : Place} {field : BitField} {cell : UInt8}
    (h : dest.displaced field.byteOffset = .absolute cell.toUInt16) :
    StoresTo (.storeField value dest field) cell

/-- The cells that a node needs may be written. -/
structure Permits (may : UInt8 → Prop) (z : ZeroPage) (node : Node) : Prop where
  stores : ∀ cell, StoresTo node cell → may cell
  taken : ∀ slot ∈ slotsTaken node, may (z.arg slot)

section Functions

variable (hopen : Open may c.convention.zeroPage) (hbound : Bound c.convention c.bindings)

include hopen hbound

/-- **The lines of a node.** -/
theorem speaks_lowerNode {node : Node} {next : Option Node}
    (hnode : Permits may c.convention.zeroPage node)
    (hnext : ∀ n, next = some n → Permits may c.convention.zeroPage n) :
    Speaks may c (lowerNode node next) fun _ => True := by
  have hdone : ∀ {m : Lower Unit}, Speaks may c m (fun _ => True) →
      Speaks may c (do m; return false) fun _ => True := fun h => h.next fun _ _ => .pure trivial
  have hgranted : GrantedNext may next := fun value dest type heq cell hcell =>
    (hnext _ heq).stores cell (.store hcell)
  have htaken := hnode.taken
  cases node with
  | copy result value type => exact hdone speaks_lowerCopy
  | binary result op lhs rhs type => exact speaks_lowerBinary hgranted
  | store value dest type =>
    exact hdone (speaks_commitOnly (speaks_storeInto fun cell hcell => hnode.stores cell (.store hcell)))
  | call result callee args type buffer => exact hdone (speaks_lowerCall hopen hbound)
  | asmCall address a x y clobbers result => exact hdone speaks_lowerAsmCall
  | branch op lhs rhs type ifTrue ifFalse => exact hdone speaks_lowerBranch
  | jump target => exact hdone speaks_jumpTo
  | label id => exact hdone (Speaks.read.next fun _ _ => speaks_label)
  | ret value => exact hdone speaks_lowerReturn
  | setJmp result buffer => exact hdone (speaks_lowerSetJmp htaken)
  | longJmp buffer value => exact hdone (speaks_lowerLongJmp htaken)
  | vaStart cursor => exact hdone speaks_lowerVaStart
  | vaArg result cursor type => exact hdone speaks_lowerVaArg
  | vaCount result => exact hdone speaks_lowerVaCount
  | loadField result src field => exact hdone speaks_lowerLoadField
  | storeField value dest field =>
    exact hdone (speaks_lowerStoreField fun cell hcell => hnode.stores cell (.storeField hcell))

/-- **The lines of a body.** -/
theorem speaks_lowerBody : ∀ nodes : List Node,
    (∀ node ∈ nodes, Permits may c.convention.zeroPage node) →
    Speaks may c (lowerBody nodes) fun _ => True
  | [], _ => .pure trivial
  | [node], h => by
    have hnode := h node (List.mem_singleton.mpr rfl)
    exact (speaks_lowerNode hopen hbound hnode fun n hn => by cases hn).next fun _ _ => .pure trivial
  | node :: next :: rest, h => by
    obtain ⟨hnode, hrest⟩ := List.forall_mem_cons.mp h
    obtain ⟨hnext, hback⟩ := List.forall_mem_cons.mp hrest
    unfold lowerBody
    refine (speaks_lowerNode hopen hbound hnode fun n hn => ?_).next fun taken _ => ?_
    · obtain rfl := Option.some.inj hn
      exact hnext
    · split
      · exact speaks_lowerBody rest hback
      · exact speaks_lowerBody (next :: rest) hrest

end Functions

/-! ### Whole functions -/

theorem speaks_copySlots : ∀ (vregs : List VReg) (slot : UInt8),
    Speaks may c (copySlots slot vregs) fun _ => True
  | [], _ => .pure trivial
  | v :: rest, slot => by
    refine Speaks.read.next fun c' _ => ?_
    refine (speaks_read rfl (byte_zeroPage (c'.convention.zeroPage.arg slot))).next fun _ _ => ?_
    exact (speaks_push (.store (cell_virtual v))).next fun _ _ => speaks_copySlots rest (slot + 1)

theorem speaks_copyParams : ∀ params : List (Temp × ParamSlot),
    Speaks may c (copyParams params) fun _ => True
  | [] => .pure trivial
  | (t, param) :: rest => by
    refine Speaks.read.next fun c' _ => ?_
    split
    · exact (speaks_tempInfo t).next fun info _ => (speaks_copySlots info.vregs param.slot).next
        fun _ _ => speaks_copyParams rest
    · exact speaks_copyParams rest

/-- Copying two slots to a new pair of registers, if they are wanted. -/
theorem speaks_copyPair (wanted : Bool) (slot : UInt8) (count : Option VReg) : Speaks may c (do
    let pointer ←
      if wanted then do
        let (lo, hi) ← newPair
        copySlots slot [lo, hi]
        pure (some (lo, hi))
      else pure none
    return (count, pointer)) fun _ => True := by
  split
  · exact speaks_newPair.next fun pair _ => (speaks_copySlots _ _).next fun _ _ =>
      (Speaks.pure (Q := fun _ => True) trivial).next fun _ _ => .pure trivial
  · exact (Speaks.pure (Q := fun _ => True) trivial).next fun _ _ => .pure trivial

/-- **Copying what comes in** stores to virtual registers. -/
theorem speaks_copyIncoming : Speaks may c copyIncoming fun _ => True := by
  have hpointer : ∀ body, Speaks may c (copyResultPointer body) fun _ => True := by
    intro body
    unfold copyResultPointer
    split
    · refine Speaks.read.next fun c' _ => ?_
      split
      · exact speaks_newPair.next fun pair _ => (speaks_copySlots _ _).next fun _ _ => .pure trivial
      · exact speaks_invalid _
    · exact .pure trivial
  have hvariadic : ∀ body, Speaks may c (copyVariadic body) fun _ => True := by
    intro body
    unfold copyVariadic
    simp only
    split
    · refine Speaks.read.next fun c' _ => ?_
      split
      · split
        · exact speaks_newVReg.next fun v _ => (speaks_copySlots _ _).next fun _ _ =>
            (Speaks.pure (Q := fun _ => True) trivial).next fun _ _ => speaks_copyPair _ _ _
        · exact (Speaks.pure (Q := fun _ => True) trivial).next fun _ _ => speaks_copyPair _ _ _
      · exact speaks_invalid _
    · exact .pure trivial
  refine Speaks.read.next fun c' _ => (speaks_copyParams _).next fun _ _ => ?_
  exact (hpointer _).next fun _ _ => (hvariadic _).next fun _ _ => .pure trivial

/-- **The lines of selected code** are of the forms, under any set of cells that holds the scratch
pointer, the argument area and what the nodes of the function need. -/
theorem worded_of_selected {conv : Convention} {bindings : Std.TreeMap String Binding}
    {limits : Limits} {f : FunctionDef} {selected : SelectedCode} {b : Binding}
    (h : selectFunction conv bindings limits f = .ok selected)
    (hb : bindings[f.name]? = some b) (hbound : Bound conv bindings)
    (hopen : Open may conv.zeroPage) (hlo : may conv.zeroPage.pointerLo)
    (hhi : may conv.zeroPage.pointerHi)
    (hnodes : ∀ node ∈ f.body, Permits may conv.zeroPage node) :
    ∀ line ∈ selected.code, Worded may line := by
  obtain ⟨temps, next, hidden, st₁, st₂, hincoming, hbody, -, -, hcode, -⟩ := selectFunction_ok h hb
  have hstart : Spoken may (.create conv.zeroPage.pointerLo next) :=
    ⟨hlo, hhi, fun line hline => (List.not_mem_nil hline).elim⟩
  obtain ⟨hfirst, -⟩ := speaks_copyIncoming _ _ _ hincoming hstart
  obtain ⟨u, st₃, hlower, hlabel⟩ := bind_ok.mp hbody
  obtain ⟨hmiddle, -⟩ := speaks_lowerBody hopen hbound f.body hnodes _ _ _ hlower hfirst
  obtain ⟨hlast, -⟩ := speaks_label _ _ _ hlabel hmiddle
  rw [hcode]
  exact hlast.lines

/-! ### Stores that are there -/

/-- The stores to some slots are among the entries. -/
def Fills (z : ZeroPage) (slots : List UInt8) (es : List Entry) : Prop :=
  ∀ slot ∈ slots, .op .sta (.zeroPage (z.arg slot)) ∈ es.map Prod.fst

section Fills

variable {α β : Type} {slots : List UInt8} {P : List Entry → Prop} {m : Lower α} {f : α → Lower β}
  {Q : α → Prop} {Q' : β → Prop}

theorem Fills.append_left {z : ZeroPage} {es es' : List Entry} (h : Fills z slots es) :
    Fills z slots (es ++ es') := fun slot hslot => by
  rw [List.map_append]
  exact List.mem_append_left _ (h slot hslot)

theorem Fills.append_right {z : ZeroPage} {es es' : List Entry} (h : Fills z slots es') :
    Fills z slots (es ++ es') := fun slot hslot => by
  rw [List.map_append]
  exact List.mem_append_right _ (h slot hslot)

/-- Stores that come later. -/
theorem fills_behind (h : Lowers Extends c P m Q)
    (h' : ∀ a, Q a → Lowers Extends c (Fills c.convention.zeroPage slots) (f a) Q') :
    Lowers Extends c (Fills c.convention.zeroPage slots) (m >>= f) Q' :=
  h.bind h' fun _ _ _ => Fills.append_right

/-- Stores that have come before. -/
theorem fills_before (h : Lowers Extends c (Fills c.convention.zeroPage slots) m Q)
    (h' : ∀ a, Q a → Lowers Extends c P (f a) Q') :
    Lowers Extends c (Fills c.convention.zeroPage slots) (m >>= f) Q' :=
  h.bind h' fun _ _ hes _ => hes.append_left

theorem fills_passByte {slot : UInt8} {byte : ByteLoc} (h : Sited (fun _ => True) byte) :
    Lowers Extends c (Fills c.convention.zeroPage [slot]) (passByte slot byte) fun _ => True := by
  refine fills_behind (lays_loadA h).toExtends fun _ _ => ?_
  refine quiet_read.next fun c' hc' => ?_
  obtain rfl := hc'
  intro st u st' hok _
  obtain ⟨hstore, hlabel⟩ := tryDraft_ok hok
  have hgrown := Grown.op st.draft .sta (.zeroPage (c'.convention.zeroPage.arg slot))
  rw [show st.draft.op .sta (.zeroPage (c'.convention.zeroPage.arg slot)) = st'.draft from
    Except.ok.inj hstore] at hgrown
  refine ⟨⟨_, Grows.toExtends ⟨hgrown, hlabel⟩, fun other hother => ?_⟩, trivial⟩
  rw [List.mem_singleton.mp hother]
  exact List.mem_singleton.mpr rfl

/-- Passing bytes stores to as many slots. -/
theorem fills_passBytes : ∀ (bytes : List ByteLoc) (slot : UInt8), SitedAll (fun _ => True) bytes →
    Lowers Extends c (Fills c.convention.zeroPage
      ((List.range bytes.length).map fun i => slot + UInt8.ofNat i)) (passBytes slot bytes) fun _ => True
  | [], _, _ => .pure trivial fun _ h => (List.not_mem_nil h).elim
  | byte :: rest, slot, h => by
    refine (fills_passByte h.head).bind (fun _ _ => fills_passBytes rest (slot + 1) h.tail) ?_
    intro es es' hfirst hrest other hother
    obtain ⟨i, hi, rfl⟩ := List.mem_map.mp hother
    rw [List.map_append]
    cases i with
    | zero => exact List.mem_append_left _ (hfirst _ (by simp))
    | succ i =>
      refine List.mem_append_right _ (hrest _ (List.mem_map.mpr ⟨i, ?_, ?_⟩))
      · simpa using hi
      · rw [Nat.succ_eq_one_add, UInt8.ofNat_add, UInt8.add_assoc]
        rfl

theorem fills_lowerSetJmp {node : Node} {buffer : Place} :
    Lowers Extends c (Fills c.convention.zeroPage [0, 1]) (lowerSetJmp node result buffer)
      fun _ => True := by
  let rules := reachRules (fun _ => True) c.bindings c.function c.binding
  have haddress : Lays c (Growth.Plain fun _ => True) (addressBytes buffer node) _ := lays_addressBytes
  refine lowers_commitOnly (fills_behind haddress.toExtends fun pair hpair =>
    fills_before (P := Walk rules (fun _ => True) idle idle) (fills_passBytes _ _ hpair)
      fun _ _ => ?_)
  -- The call of the routine and the store of its result.
  refine (quiet_uses _).next fun _ _ => Walks.next
    (walks_call (.call 0 false true rfl (fun _ h => by cases h) fun _ => trivial)) fun _ _ => ?_
  exact (quiet_destination _ result).next fun dst hdst => walks_storeWord (Nat.zero_le _) hdst

theorem fills_lowerLongJmp {node : Node} {buffer : Place} :
    Lowers Extends c (Fills c.convention.zeroPage [0, 1, 2]) (lowerLongJmp node buffer value)
      fun _ => True := by
  have hvalue : ReachesValue (fun _ => True) value ValueType.u8.size.toNat := fun _ _ _ _ _ _ => trivial
  let rules := reachRules (fun _ => True) c.bindings c.function c.binding
  have haddress : Lays c (Growth.Plain fun _ => True) (addressBytes buffer node) _ := lays_addressBytes
  refine lowers_commitOnly (fills_behind haddress.toExtends fun pair hpair =>
    fills_behind (lays_valueBytes hvalue).toExtends fun bytes hbytes => ?_)
  split
  · refine fills_behind (lays_materialize (hbytes _ (List.mem_cons_self ..))).toExtends
      fun byte hbyte => ?_
    refine fills_before (P := Walk rules (fun _ => True) idle idle)
      (fills_passBytes _ _ fun loc hloc => ?_) fun _ _ => ?_
    · simp only [List.mem_cons, List.not_mem_nil, or_false] at hloc
      rcases hloc with rfl | rfl | rfl
      · exact hpair.head
      · exact hpair.tail.head
      · exact hbyte
    · exact (quiet_uses _).next fun _ _ => walks_push (.escape false false fun h => h.elim)
  · exact (lays_internal _).toExtends

/-- **The slots that a node takes** are stored to in its code. -/
theorem fills_lowerNode {node : Node} (next : Option Node) (hnode : node ∈ c.function.body)
    (hbound : Bound c.convention c.bindings) :
    Lowers Extends c (Fills c.convention.zeroPage (slotsTaken node)) (lowerNode node next)
      (TakesStore next) := by
  have hfits : Fits (reachRules (fun _ => True) c.bindings c.function c.binding) c.bindings
      c.function c.binding := fits_reachRules fun node _ => reached_everywhere _ node
  have hshaped : Lowers Extends c _ (lowerNode node next) _ :=
    forms_lowerNode hbound (hfits.node hnode)
  have hpure : Lowers Extends c (Fills c.convention.zeroPage []) (pure false : Lower Bool)
      (TakesStore next) := .pure (fun h => by cases h) fun _ h => (List.not_mem_nil h).elim
  cases node with
  | setJmp result buffer => exact fills_before fills_lowerSetJmp fun _ _ => hpure
  | longJmp buffer value => exact fills_before fills_lowerLongJmp fun _ _ => hpure
  | _ => exact hshaped.imp (fun _ _ _ h => (List.not_mem_nil h).elim) fun _ h => h

/-- The same of a body. -/
theorem fills_lowerBody (hbound : Bound c.convention c.bindings) : ∀ nodes : List Node,
    (∀ node ∈ nodes, node ∈ c.function.body) →
    Lowers Extends c (Fills c.convention.zeroPage (nodes.flatMap slotsTaken)) (lowerBody nodes)
      fun _ => True
  | [], _ => .pure trivial fun _ h => (List.not_mem_nil h).elim
  | [node], hnodes => by
    have hnode := fills_lowerNode none (hnodes node (List.mem_singleton.mpr rfl)) hbound
    rw [List.flatMap_singleton]
    exact fills_before hnode fun _ _ => quiet_pure trivial
  | node :: next :: rest, hnodes => by
    have hnode := fills_lowerNode (some next) (hnodes node (List.mem_cons_self ..)) hbound
    have hnext := fun n hn => hnodes n (List.mem_cons_of_mem _ hn)
    unfold lowerBody
    refine hnode.bind (S := Fills c.convention.zeroPage ((next :: rest).flatMap slotsTaken))
      (fun taken htaken => ?_) fun es es' hes hes' slot hslot => ?_
    · split
      · -- A store that goes with the node before takes no slot.
        rename_i htrue
        obtain ⟨value, dest, type, hstore⟩ := htaken htrue
        obtain rfl := Option.some.inj hstore
        exact fills_lowerBody hbound rest fun n hn => hnext n (List.mem_cons_of_mem _ hn)
      · exact fills_lowerBody hbound (next :: rest) hnext
    · rw [List.flatMap_cons] at hslot
      rcases List.mem_append.mp hslot with hmem | hmem
      · exact hes.append_left slot hmem
      · exact hes'.append_right slot hmem

end Fills

/-- **The slots that the nodes of a function take** are stored to in its code. -/
theorem fills_selected {conv : Convention} {bindings : Std.TreeMap String Binding} {limits : Limits}
    {f : FunctionDef} {selected : SelectedCode} {b : Binding}
    (h : selectFunction conv bindings limits f = .ok selected)
    (hb : bindings[f.name]? = some b) (hbound : Bound conv bindings) {node : Node}
    (hnode : node ∈ f.body) {slot : UInt8} (hslot : slot ∈ slotsTaken node) :
    .op .sta (.zeroPage (conv.zeroPage.arg slot)) ∈ selected.code := by
  obtain ⟨temps, next, hidden, st₁, st₂, hincoming, hbody, -, -, hcode, -⟩ := selectFunction_ok h hb
  have htracks : TracksA (.create conv.zeroPage.pointerLo next) := fun o ho =>
    (List.not_mem_nil ho).elim
  obtain ⟨⟨es₁, hes₁, -⟩, -⟩ := lays_copyIncoming (fun _ => True) _ _ _ hincoming htracks
  obtain ⟨u, st₃, hlower, hlabel⟩ := bind_ok.mp hbody
  obtain ⟨⟨es₂, hes₂, hfills⟩, -⟩ := fills_lowerBody
    (c := { convention := conv, bindings, limits, function := f, binding := b, temps, hidden })
    hbound f.body (fun _ hn => hn) _ _ _ hlower (hes₁.draft.tracks htracks)
  cases hlabel
  rw [hcode]
  refine List.mem_append_left _ ?_
  rw [hes₂.code]
  exact List.mem_append_right _ (hfills slot (List.mem_flatMap.mpr ⟨node, hnode, hslot⟩))

end Codegen6502.Proofs.Selecting.CellUse
