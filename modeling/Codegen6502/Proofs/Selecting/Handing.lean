import Codegen6502.Proofs.Selecting.Addresses

/-!
# What a caller hands over

The code in front of a call gives bytes to the stack and to argument slots: the block of variadic
arguments with its address and size, the address of the buffer for a structure result, and the fixed
arguments.  `handedSpots` are the bytes in the order in which they are given, `handedBytes` what
they are given, told by the store in front of all of this code (`hands_front`).
-/

namespace Codegen6502.Proofs.Selecting.Handing

open Selection Growth
open Processor.Memory Processor.LineRun Processor.Straight Processor.Stack
open Tracking Places Moves Courses Reading Computing Stacking Bodies Passing Addresses

variable {c : Context} {k : Linkage} {s t : Store} {st st' : State} {d d' d'' : Draft} {cell : UInt8}
  {n : ℕ}

/-! ### Lines that fill spots -/

/-- Lines that give bytes to spots one after the other and move the stack pointer down. -/
def Fills (k : Linkage) (m n : ℕ) (d d' : Draft) (pre : Store → Prop) (spots : Store → List Spot)
    (bytes : Store → List UInt8) (depth : ℕ) : Prop :=
  Hands k m d d' pre fun s t => Same d.pointerCell n (fill s (spots s) (bytes s)) t ∧
    t.regs.sp = s.regs.sp - UInt8.ofNat depth

section Fills

variable {m m' a b : ℕ} {pre pre' : Store → Prop} {spots spots' more : Store → List Spot}
  {bytes bytes' others : Store → List UInt8}

theorem Fills.refl (d : Draft) : Fills k 0 n d d pre (fun _ => []) (fun _ => []) 0 :=
  Hands.refl fun s _ _ => ⟨Same.refl s, (UInt8.sub_zero _).symm⟩

theorem Fills.imp (h : Fills k m n d d' pre spots bytes a) (hm : m ≤ m') (hpre : ∀ s, pre' s → pre s) :
    Fills k m' n d d' pre' spots bytes a :=
  Hands.imp h hm hpre fun _ _ _ _ h => h

/-- **One filling after the other**, told by the store in front of both. -/
theorem Fills.trans (h : Fills k m n d d' pre spots bytes a)
    (h' : Fills k m' n d' d'' pre' spots' bytes' b)
    (hkeeps : ∀ s, pre s → ∀ spot ∈ spots s ++ more s, Keeps s spot)
    (hlength : ∀ s, (spots s).length = (bytes s).length)
    (link : ∀ s t, pre s → Same d.pointerCell n (fill s (spots s) (bytes s)) t →
      t.regs.sp = s.regs.sp - UInt8.ofNat a → pre' t ∧ spots' t = more s ∧ bytes' t = others s) :
    Fills k (m + m') n d d'' pre (fun s => spots s ++ more s) (fun s => bytes s ++ others s)
      (a + b) := by
  have hcell : d'.pointerCell = d.pointerCell := Emits.cell h.toEmits
  refine (Hands.trans h h' fun s t hs ht => (link s t hs ht.1 ht.2).1).imp le_rfl (fun _ hs => hs) ?_
  rintro s u - hs ⟨t, ⟨hsame, hsp⟩, hfill, hsp'⟩
  obtain ⟨-, hmore, hothers⟩ := link s t hs hsame hsp
  rw [hcell, hmore, hothers] at hfill
  refine ⟨?_, by rw [hsp', hsp, UInt8.ofNat_add, sub_add_eq]⟩
  rw [fill_append (hlength s)]
  exact (same_fill hsame fun spot hspot =>
    keeps_fill.mpr (hkeeps s hs spot (List.mem_append_right _ hspot))).trans hfill

/-- Lines that leave the stack pointer alone. -/
theorem Fills.of_hands (h : Hands k m d d' pre fun s t =>
      Same d.pointerCell n (fill s (spots s) (bytes s)) t ∧ t.regs.sp = s.regs.sp) :
    Fills k m n d d' pre spots bytes 0 :=
  h.imp le_rfl (fun _ hs => hs) fun _ _ _ _ ht => ⟨ht.1, ht.2.trans (UInt8.sub_zero _).symm⟩

end Fills

/-! ### The parts of what is handed over -/

section Parts

variable {area : UInt16 → Prop} {shape : Binding} {args : List Argument} {buffer : Option Place}

/-- The slots of the address and the size of the block of variadic arguments. -/
def pointerSpots (z : ZeroPage) (shape : Binding) : List Spot :=
  [slotSpot z (shape.vaPtrSlot.getD 0).toNat, slotSpot z ((shape.vaPtrSlot.getD 0).toNat + 1),
    slotSpot z (shape.vaCountSlot.getD 0).toNat]

/-- The variadic arguments of a call. -/
def extra (shape : Binding) (args : List Argument) : List Argument := args.drop shape.params.length

/-- The number of bytes that a call pushes for its arguments. -/
def blockSize (shape : Binding) (args : List Argument) : ℕ :=
  if shape.variadic then Bodies.sizeOf (extra shape args) else 0

def blockSpots (z : ZeroPage) (shape : Binding) (args : List Argument) (sp : UInt8) : List Spot :=
  if shape.variadic then pushed sp (Bodies.sizeOf (extra shape args)) ++ pointerSpots z shape else []

def blockGiven (c : Context) (k : Linkage) (shape : Binding) (args : List Argument) (s : Store) :
    List UInt8 :=
  if shape.variadic then
    (blockBytes c k s (extra shape args)).reverse ++
      [s.regs.sp - UInt8.ofNat (Bodies.sizeOf (extra shape args)) + 1, 1,
        UInt8.ofNat (Bodies.sizeOf (extra shape args))]
  else []

def bufferSpots (z : ZeroPage) (shape : Binding) (buffer : Option Place) : List Spot :=
  match shape.resultSlot, buffer with
  | some slot, some _ => slotSpots z slot.toNat 2
  | _, _ => []

def bufferGiven (c : Context) (k : Linkage) (shape : Binding) (buffer : Option Place) (s : Store) :
    List UInt8 :=
  match shape.resultSlot, buffer with
  | some _, some place => bytesOfAddress (addressOf c k s place)
  | _, _ => []

theorem length_blockGiven (z : ZeroPage) :
    (blockSpots z shape args s.regs.sp).length = (blockGiven c k shape args s).length := by
  unfold blockSpots blockGiven
  split
  · simp [length_pushed, length_blockBytes, pointerSpots]
  · rfl

theorem length_bufferGiven (z : ZeroPage) :
    (bufferSpots z shape buffer).length = (bufferGiven c k shape buffer s).length := by
  unfold bufferSpots bufferGiven
  split
  · exact length_slotSpots ..
  · rfl

theorem keeps_pointerSpots (h : LowPlain s) (z : ZeroPage) :
    ∀ spot ∈ pointerSpots z shape, Keeps s spot := by
  simp only [pointerSpots, List.mem_cons, List.not_mem_nil, or_false]
  rintro spot (rfl | rfl | rfl) <;> exact keeps_slot h _ _

theorem keeps_block (h : LowPlain s) (z : ZeroPage) :
    ∀ spot ∈ blockSpots z shape args s.regs.sp, Keeps s spot := by
  unfold blockSpots
  split
  · intro spot hspot
    exact (List.mem_append.mp hspot).elim (keeps_pushed h spot) (keeps_pointerSpots h z spot)
  · exact fun spot hspot => (List.not_mem_nil hspot).elim

theorem keeps_buffer (h : LowPlain s) (z : ZeroPage) :
    ∀ spot ∈ bufferSpots z shape buffer, Keeps s spot := by
  unfold bufferSpots
  split
  · exact keeps_slots h z
  · exact fun spot hspot => (List.not_mem_nil hspot).elim

/-- **The block of variadic arguments**, its address and its size. -/
theorem fills_passBlock {node : Node} {callee : String} {block : UInt16}
    (hd : Setting c area n st.draft) (h : passBlock node callee shape args c st = .ok (block, st'))
    (hroom : st.draft.nextVReg.toNat + 2 * args.length + 2 < everything) :
    block.toNat = blockSize shape args ∧
      Fills k (2 * args.length) n st.draft st'.draft
        (fun s => LowPlain s ∧
          Inside area (blockSpots c.convention.zeroPage shape args s.regs.sp) ∧
          (shape.variadic = true →
            ∀ arg ∈ extra shape args, Misses c k area s arg.type.size.toNat arg.value))
        (fun s => blockSpots c.convention.zeroPage shape args s.regs.sp) (blockGiven c k shape args)
        (blockSize shape args) := by
  unfold passBlock at h
  unfold blockSize blockSpots blockGiven
  split at h
  · rename_i hvariadic
    simp only [hvariadic, if_true]
    rw [passVariadic_eq] at h
    obtain ⟨whole, st₁, hpush, hpointer⟩ := bind_ok.mp h
    have hlength : (extra shape args).length ≤ args.length := by simp [extra]
    change pushVariadic node (extra shape args) c st = .ok (whole, st₁) at hpush
    obtain ⟨hwhole, hpushes⟩ := hands_pushVariadic (k := k) hd hpush (by omega)
    obtain ⟨rfl, -, count, pointer, hcount, hptr, hslots⟩ := hands_passPointer (k := k) hpointer
    refine ⟨hwhole, ?_⟩
    rw [← UInt16.ofNat_toNat (x := block), hwhole, UInt16.toUInt8_ofNat'] at hslots
    have hspots : pointerSpots c.convention.zeroPage shape =
        [slotSpot c.convention.zeroPage pointer.toNat,
          slotSpot c.convention.zeroPage (pointer.toNat + 1),
          slotSpot c.convention.zeroPage count.toNat] := by
      rw [pointerSpots, hcount, hptr]
      rfl
    have hfills : Fills k 0 n st₁.draft st'.draft LowPlain
        (fun _ => pointerSpots c.convention.zeroPage shape)
        (fun s => [s.regs.sp + 1, 1, UInt8.ofNat (Bodies.sizeOf (extra shape args))]) 0 := by
      refine Fills.of_hands (hslots.imp le_rfl (fun _ hs => hs) fun s t _ _ ht => ⟨?_, ht.2⟩)
      rw [hspots]
      exact ht.1.mono hd.bounded
    have hfront : Fills k (2 * (extra shape args).length) n st.draft st₁.draft (fun s => LowPlain s ∧
        Inside area (pushed s.regs.sp (Bodies.sizeOf (extra shape args)) ++
          pointerSpots c.convention.zeroPage shape) ∧
        (True → ∀ arg ∈ extra shape args, Misses c k area s arg.type.size.toNat arg.value)) _ _ _ :=
      Fills.imp hpushes le_rfl fun s hs =>
        ⟨hs.1, fun spot hspot => hs.2.1 spot (List.mem_append_left _ hspot), hs.2.2 trivial⟩
    refine (hfront.trans hfills ?_ ?_ ?_).imp (by omega) fun _ hs => hs
    · rintro s ⟨hlow, -⟩ spot hspot
      exact (List.mem_append.mp hspot).elim (keeps_pushed hlow spot) (keeps_pointerSpots hlow _ spot)
    · intro s
      rw [length_pushed, List.length_reverse, length_blockBytes]
    · rintro s t ⟨hlow, -⟩ hsame hsp
      exact ⟨lowPlain_fill hlow hsame, rfl, by rw [hsp]⟩
  · rename_i hvariadic
    simp only [hvariadic, Bool.false_eq_true, if_false]
    obtain ⟨rfl, rfl⟩ := pure_ok.mp h
    exact ⟨rfl, (Fills.refl _).imp (Nat.zero_le _) fun _ hs => hs⟩

/-- **The address of the buffer** for a structure result. -/
theorem fills_passBuffer {node : Node} {x : Unit} (hd : Setting c area n st.draft)
    (h : passBuffer node shape buffer c st = .ok (x, st'))
    (hin : Inside area (bufferSpots c.convention.zeroPage shape buffer))
    (hroom : st.draft.nextVReg.toNat + 2 < everything) :
    Fills k 2 n st.draft st'.draft LowPlain
      (fun _ => bufferSpots c.convention.zeroPage shape buffer) (bufferGiven c k shape buffer) 0 := by
  cases hslot : shape.resultSlot with
  | none =>
    have hnone : (fun _ : Store => bufferSpots c.convention.zeroPage shape buffer) = fun _ => [] := by
      simp [bufferSpots, hslot]
    have hnothing : bufferGiven c k shape buffer = fun _ => [] := by
      funext s
      simp [bufferGiven, hslot]
    simp only [passBuffer, hslot] at h
    obtain ⟨-, rfl⟩ := pure_ok.mp h
    rw [hnone, hnothing]
    exact (Fills.refl _).imp (Nat.zero_le _) fun _ hs => hs
  | some slot =>
  cases buffer with
  | none =>
    have hnone : (fun _ : Store => bufferSpots c.convention.zeroPage shape none) = fun _ => [] := by
      simp [bufferSpots, hslot]
    have hnothing : bufferGiven c k shape none = fun _ => [] := by
      funext s
      simp [bufferGiven, hslot]
    simp only [passBuffer, hslot] at h
    obtain ⟨-, rfl⟩ := pure_ok.mp h
    rw [hnone, hnothing]
    exact (Fills.refl _).imp (Nat.zero_le _) fun _ hs => hs
  | some place =>
    have hspots : bufferSpots c.convention.zeroPage shape (some place) =
        slotSpots c.convention.zeroPage slot.toNat 2 := by simp [bufferSpots, hslot]
    have hbytes : bufferGiven c k shape (some place) =
        fun s => bytesOfAddress (addressOf c k s place) := by
      funext s
      simp [bufferGiven, hslot]
    simp only [passBuffer, hslot] at h
    obtain ⟨pair, st₁, haddress, hpass⟩ := bind_ok.mp h
    have hl := located_addressBytes (k := k) hd haddress hroom
    rw [← @UInt8.ofNat_toNat slot] at hpass
    have hpasses := Hands.of_passes (passes_passBytes (k := k) hpass hl.loadable)
    rw [hl.hands.cell] at hpasses
    rw [hspots] at hin ⊢
    rw [hbytes]
    have hlocated : Hands k 2 st.draft st₁.draft LowPlain fun s t => LowPlain s ∧ _ :=
      hl.hands.imp le_rfl (fun _ _ => trivial) fun s t _ hs ht => ⟨hs, ht⟩
    refine Fills.of_hands ((hlocated.trans hpasses ?_).imp le_rfl (fun _ hs => hs) ?_)
    · rintro s t - ⟨hlow, ⟨hsame, -⟩, -⟩
      refine ⟨hlow.same hsame, fun loc hloc a ha => absurd ha (hl.apart loc hloc t a),
        fun loc hloc hmem => ?_⟩
      obtain ⟨a, ha, -⟩ := hin _ hmem
      exact hl.apart loc hloc t a ha
    · rintro s u - hlow ⟨t, ⟨-, ⟨hsame, hworth⟩, hsp⟩, hfill, hsp'⟩
      rw [hworth] at hfill
      exact ⟨(same_fill hsame (keeps_slots hlow _)).trans (hfill.mono hd.bounded), hsp'.trans hsp⟩

/-- Where a place starts depends on registers in use only. -/
theorem start_congr (hcells : ∀ v : VReg, v.index.toNat < n → t.cells v = s.cells v)
    (hp : Pointed c n) (place : Place) : start c k t place = start c k s place := by
  have hwraps : ¬Wraps 1 (.memory place) := by
    cases place with
    | indirect base offset => exact not_lt.mpr offset.toNat_lt
    | returnSlot offset => exact not_lt.mpr offset.toNat_lt
    | _ => exact id
  have hfound : ∀ u : Store, found c k u place 0 = start c k u place := fun u =>
    (found_eq hwraps Nat.one_pos).trans (plus_zero place)
  rw [← hfound, ← hfound, found_congr hcells hp]

end Parts

/-! ### All of it -/

section Front

variable {area : UInt16 → Prop} {shape : Binding} {args : List Argument} {buffer : Option Place}

/-- The bytes that the code in front of a call gives values, in their order. -/
def handedSpots (z : ZeroPage) (shape : Binding) (args : List Argument) (buffer : Option Place)
    (sp : UInt8) : List Spot :=
  blockSpots z shape args sp ++
    (bufferSpots z shape buffer ++ argumentSpots z (args.zip shape.params))

/-- The values that they are given. -/
def handedBytes (c : Context) (k : Linkage) (shape : Binding) (args : List Argument)
    (buffer : Option Place) (s : Store) : List UInt8 :=
  blockGiven c k shape args s ++
    (bufferGiven c k shape buffer s ++ argumentBytes c k s (args.zip shape.params))

/-- A call can be made: what it writes to is memory in an area that no argument is read in. -/
structure Callable (c : Context) (k : Linkage) (area : UInt16 → Prop) (shape : Binding)
    (args : List Argument) (buffer : Option Place) (s : Store) : Prop where
  low : LowPlain s
  inside : Inside area (handedSpots c.convention.zeroPage shape args buffer s.regs.sp)
  misses : ∀ arg ∈ args, Misses c k area s arg.type.size.toNat arg.value

theorem Callable.block (h : Callable c k area shape args buffer s) :
    Inside area (blockSpots c.convention.zeroPage shape args s.regs.sp) := fun spot hspot =>
  h.inside spot (List.mem_append_left _ hspot)

theorem Callable.slots (h : Callable c k area shape args buffer s) :
    Inside area (bufferSpots c.convention.zeroPage shape buffer) ∧
      Inside area (argumentSpots c.convention.zeroPage (args.zip shape.params)) :=
  ⟨fun spot hspot => h.inside spot (List.mem_append_right _ (List.mem_append_left _ hspot)),
    fun spot hspot => h.inside spot (List.mem_append_right _ (List.mem_append_right _ hspot))⟩

theorem keeps_handed (h : LowPlain s) (z : ZeroPage) :
    ∀ spot ∈ handedSpots z shape args buffer s.regs.sp, Keeps s spot := by
  intro spot hspot
  rcases List.mem_append.mp hspot with hspot | hspot
  · exact keeps_block h z spot hspot
  · exact (List.mem_append.mp hspot).elim (keeps_buffer h z spot) (keeps_arguments h z spot)

theorem length_handedBytes (z : ZeroPage) :
    (handedSpots z shape args buffer s.regs.sp).length =
      (handedBytes c k shape args buffer s).length := by
  rw [handedSpots, handedBytes, List.length_append, List.length_append, List.length_append,
    List.length_append, length_blockGiven, length_bufferGiven, length_argumentBytes]

/-- The address of the buffer is told by registers in use. -/
theorem bufferGiven_congr (hcells : ∀ v : VReg, v.index.toNat < n → t.cells v = s.cells v)
    (hp : Pointed c n) : bufferGiven c k shape buffer t = bufferGiven c k shape buffer s := by
  unfold bufferGiven
  split
  · rw [addressOf, addressOf, start_congr hcells hp]
  · rfl

/-- **What is handed over.**  The bytes of arguments are read as they are in front of the code. -/
theorem hands_front {node : Node} {callee : String} {block : UInt16} {st₁ st₂ : State} {x y : Unit}
    (hd : Setting c area n st.draft)
    (hsizes : ∀ pair ∈ args.zip shape.params, pair.1.type.size.toNat = pair.2.type.size.toNat)
    (hblock : passBlock node callee shape args c st = .ok (block, st₁))
    (hbuffer : passBuffer node shape buffer c st₁ = .ok (x, st₂))
    (hargs : passArguments (args.zip shape.params) c st₂ = .ok (y, st'))
    (hin : Inside area (bufferSpots c.convention.zeroPage shape buffer) ∧
      Inside area (argumentSpots c.convention.zeroPage (args.zip shape.params)))
    (hroom : st.draft.nextVReg.toNat + 4 * args.length + 6 < everything) :
    block.toNat = blockSize shape args ∧
      Fills k (4 * args.length + 2) n st.draft st'.draft (Callable c k area shape args buffer)
        (fun s => handedSpots c.convention.zeroPage shape args buffer s.regs.sp)
        (handedBytes c k shape args buffer) (blockSize shape args) := by
  have hlength : (args.zip shape.params).length ≤ args.length := by simp
  obtain ⟨hsize, hone⟩ := fills_passBlock (k := k) hd hblock (by omega)
  have hb₁ := Emits.bounded hone.toEmits
  have hd₁ := hd.step hone
  have htwo := fills_passBuffer (k := k) hd₁ hbuffer hin.1 (by omega)
  have hb₂ := Emits.bounded htwo.toEmits
  have hthree := hands_passArguments (k := k) (hd₁.step htwo) hin.2 hargs (by omega)
  refine ⟨hsize, ?_⟩
  have hcell : st₁.draft.pointerCell = st.draft.pointerCell := Emits.cell hone.toEmits
  -- An argument is read behind a part of the code as in front of it, and is still not in the area.
  have hafter : ∀ {s t : Store} {spots : List Spot} {bytes : List UInt8},
      (∀ arg ∈ args, Misses c k area s arg.type.size.toNat arg.value) →
      Same st.draft.pointerCell n (fill s spots bytes) t → (∀ spot ∈ spots, Keeps s spot) →
      Inside area spots → ∀ pair ∈ args.zip shape.params,
        readOf c k t pair.2.type.size.toNat pair.1.value =
            readOf c k s pair.2.type.size.toNat pair.1.value ∧
          Misses c k area t pair.2.type.size.toNat pair.1.value :=
    fun hmiss hsame hk hinside pair hpair => by
      have hthis := hmiss pair.1 (List.of_mem_zip hpair).1
      rw [hsizes pair hpair] at hthis
      exact hthis.after hsame hk hinside hd.pointed hd.scratch
  have hbytes : ∀ {s t : Store}, (∀ pair ∈ args.zip shape.params,
      readOf c k t pair.2.type.size.toNat pair.1.value =
          readOf c k s pair.2.type.size.toNat pair.1.value ∧
        Misses c k area t pair.2.type.size.toNat pair.1.value) →
      argumentBytes c k t (args.zip shape.params) = argumentBytes c k s (args.zip shape.params) :=
    fun h => List.flatMap_congr fun pair hpair => (h pair hpair).1
  -- The buffer and the fixed arguments.
  have hslots : Fills k (2 + 2 * (args.zip shape.params).length) n st₁.draft st'.draft
      (fun s => LowPlain s ∧ ∀ arg ∈ args, Misses c k area s arg.type.size.toNat arg.value)
      (fun _ => bufferSpots c.convention.zeroPage shape buffer ++
        argumentSpots c.convention.zeroPage (args.zip shape.params))
      (fun s => bufferGiven c k shape buffer s ++ argumentBytes c k s (args.zip shape.params)) 0 := by
    refine Fills.trans (htwo.imp le_rfl fun s hs => hs.1) (Fills.of_hands hthree) ?_
      (fun s => length_bufferGiven _) ?_
    · rintro s ⟨hlow, -⟩ spot hspot
      exact (List.mem_append.mp hspot).elim (keeps_buffer hlow _ spot) (keeps_arguments hlow _ spot)
    · rintro s t ⟨hlow, hmiss⟩ hsame -
      rw [hcell] at hsame
      have hpairs := hafter hmiss hsame (keeps_buffer hlow _) hin.1
      exact ⟨⟨lowPlain_fill hlow hsame, fun pair hpair => (hpairs pair hpair).2⟩, rfl, hbytes hpairs⟩
  have hfirst : Fills k (2 * args.length) n st.draft st₁.draft (Callable c k area shape args buffer)
      (fun s => blockSpots c.convention.zeroPage shape args s.regs.sp) (blockGiven c k shape args)
      (blockSize shape args) := hone.imp le_rfl fun s hs => ⟨hs.low, hs.block, fun _ arg harg =>
    hs.misses arg (List.mem_of_mem_drop harg)⟩
  refine (hfirst.trans hslots (fun s hs => keeps_handed hs.low _) (fun s => length_blockGiven _)
    ?_).imp (by omega) fun _ hs => hs
  rintro s t hs hsame -
  have hcells : ∀ v : VReg, v.index.toNat < n → t.cells v = s.cells v := fun v hv =>
    cells_of_fill hsame (keeps_block hs.low _) hs.block hv
  refine ⟨⟨lowPlain_fill hs.low hsame, fun arg harg => ?_⟩, rfl, ?_⟩
  · exact ((hs.misses arg harg).after hsame (keeps_block hs.low _) hs.block hd.pointed hd.scratch).2
  · rw [bufferGiven_congr hcells hd.pointed,
      hbytes (hafter hs.misses hsame (keeps_block hs.low _) hs.block)]

end Front

/-! ### Around the call itself -/

/-- The lines of a call. -/
def callCode (callee : String) : Convention.CallKind → List Line
  | .direct => [.jsr callee]
  | .trampoline bank =>
    [.op .lda (.symbolByte callee (-1) .lo), .op .ldx (.symbolByte callee (-1) .hi),
      .jsr (Routine.trampoline bank).name]

/-- Nothing is known behind a call. -/
theorem emitCall_ok {callee : String} {kind : Convention.CallKind} {x : Unit}
    (h : emitCall callee kind c st = .ok (x, st')) :
    st'.draft.code = st.draft.code ++ callCode callee kind ∧ st'.draft.known = {} ∧
      st'.draft.pointerCell = st.draft.pointerCell ∧ st'.draft.nextVReg = st.draft.nextVReg := by
  cases kind with
  | direct =>
    cases h
    exact ⟨rfl, rfl, rfl, rfl⟩
  | trampoline bank =>
    cases h
    exact ⟨by simp [Draft.call, Draft.push, Draft.op, Draft.uses, callCode], rfl, rfl, rfl⟩

section Back

variable {shape : Binding} {result : Option Temp}

/-- The registers that the result of a call goes to. -/
def resultSpots (c : Context) (result : Option Temp) : List Spot :=
  match result with
  | some x => (registersOf c x).map .cell
  | none => []

/-- The bytes of a result, low byte first, as they come back. -/
def returned (kind : ReturnKind) (r : Registers) : List UInt8 :=
  match kind with
  | .byte => [r.a]
  | .word => [r.a, r.x]
  | _ => []

/-- The word in A and X goes to two registers. -/
theorem hands_storeWord {lo hi : VReg} {x : Unit} (hne : lo ≠ hi)
    (h : storeWord [.vreg lo, .vreg hi] c st = .ok (x, st')) :
    Hands k 0 st.draft st'.draft (fun _ => True) fun s t =>
      Same st.draft.pointerCell everything (fill s [.cell lo, .cell hi] [s.regs.a, s.regs.x]) t ∧
        t.regs.sp = s.regs.sp := by
  obtain ⟨_, st₁, h₁, hrest₁⟩ := bind_ok.mp h
  obtain ⟨_, st₂, h₂, hrest₂⟩ := bind_ok.mp hrest₁
  obtain ⟨_, st₃, h₃, hrest₃⟩ := bind_ok.mp hrest₂
  obtain ⟨_, st₄, h₄, h₅⟩ := bind_ok.mp hrest₃
  have hfinal : st'.draft = ((((st.draft.bare .tay).bare .txa).op .sta (.virtual hi)).bare .tya).op
      .sta (.virtual lo) := by
    rw [← Except.ok.inj (storeA_ok h₅), modifyDraft_ok h₄, ← Except.ok.inj (storeA_ok h₃),
      modifyDraft_ok h₂, modifyDraft_ok h₁]
  rw [hfinal]
  have htay := Hands.of_op (emits_transfer (k := k) st.draft (show isTransfer .tay = true from rfl))
  have htxa := Hands.of_op (emits_transfer (k := k) (st.draft.bare .tay)
    (show isTransfer .txa = true from rfl))
  have hhigh := Hands.of_passes (passes_keep (k := k) ((st.draft.bare .tay).bare .txa) hi)
  have htya := Hands.of_op (emits_transfer (k := k)
    (((st.draft.bare .tay).bare .txa).op .sta (.virtual hi)) (show isTransfer .tya = true from rfl))
  have hlow := Hands.of_passes (passes_keep (k := k)
    ((((st.draft.bare .tay).bare .txa).op .sta (.virtual hi)).bare .tya) lo)
  refine ((((htay.trans htxa fun _ _ _ _ => trivial).trans hhigh fun _ _ _ _ => trivial).trans htya
    fun _ _ _ _ => trivial).trans hlow fun _ _ _ _ => trivial).imp le_rfl (fun _ _ => trivial) ?_
  rintro s w - - ⟨v, ⟨u, ⟨t, ⟨r, rfl, rfl⟩, rfl, -⟩, rfl⟩, rfl, -⟩
  refine ⟨⟨fun spot _ => ?_, fun a => Iff.rfl⟩, rfl⟩
  cases spot with
  | cell v =>
    exact congrFun (Function.update_comm hne.symm _ _ _) v
  | _ => rfl

/-- A result is a byte or a word, and there are registers for it. -/
theorem takeResult_ok {callee : String} {y : Temp} {x : Unit}
    (h : takeResult callee shape (some y) c st = .ok (x, st')) :
    (shape.returnKind = .byte ∧ ∃ v, registersOf c y = [v] ∧ storeA (.vreg v) c st = .ok (x, st')) ∨
      (shape.returnKind = .word ∧ ∃ lo hi, registersOf c y = [lo, hi] ∧
        storeWord [.vreg lo, .vreg hi] c st = .ok (x, st')) := by
  obtain ⟨locs, st₁, hdst, hstore⟩ := bind_ok.mp h
  obtain ⟨rfl, rfl⟩ := destination_ok hdst
  rcases hregisters : registersOf c y with _ | ⟨v, _ | ⟨w, _ | ⟨_, _⟩⟩⟩ <;>
    cases hkind : shape.returnKind <;> simp only [hregisters, hkind, List.map] at hstore <;>
    first
    | exact Or.inl ⟨rfl, v, rfl, hstore⟩
    | exact Or.inr ⟨rfl, v, w, rfl, hstore⟩
    | cases hstore

/-- There are as many registers for a result as bytes come back. -/
theorem length_result {callee : String} {y : Temp} {x : Unit}
    (h : takeResult callee shape (some y) c st = .ok (x, st')) (r : Registers) :
    (registersOf c y).length = (returned shape.returnKind r).length := by
  obtain ⟨hkind, v, hv, -⟩ | ⟨hkind, lo, hi, hv, -⟩ := takeResult_ok h <;> rw [hkind, hv] <;> rfl

/-- **The result of a call** goes to its registers. -/
theorem hands_takeResult {callee : String} {x : Unit}
    (h : takeResult callee shape result c st = .ok (x, st'))
    (hnodup : ∀ y, result = some y → (registersOf c y).Nodup) :
    Hands k 0 st.draft st'.draft (fun _ => True) fun s t =>
      Same st.draft.pointerCell everything
        (fill s (resultSpots c result) (returned shape.returnKind s.regs)) t ∧
        t.regs.sp = s.regs.sp := by
  cases result with
  | none =>
    obtain ⟨-, rfl⟩ := pure_ok.mp h
    exact Hands.refl fun s _ _ => ⟨Same.refl s, rfl⟩
  | some y =>
    have hnodup := hnodup y rfl
    obtain ⟨hkind, v, hv, hstore⟩ | ⟨hkind, lo, hi, hv, hstore⟩ := takeResult_ok h
    · have hsta := Hands.of_passes (passes_keep (k := k) st.draft v)
      have hdraft : st.draft.op .sta (.virtual v) = st'.draft := Except.ok.inj (storeA_ok hstore)
      rw [hdraft] at hsta
      refine hsta.imp le_rfl (fun _ _ => trivial) ?_
      rintro s t - - ⟨rfl, hsp⟩
      rw [resultSpots, hv, hkind]
      exact ⟨Same.refl _, hsp⟩
    · rw [resultSpots, hv, hkind]
      rw [hv] at hnodup
      exact hands_storeWord (fun heq => by simp [heq] at hnodup) hstore

/-- Bytes are pulled off the stack. -/
theorem hands_pulls : ∀ {m : ℕ} {st st' : State} {x : Unit},
    times m (bare .pla) c st = .ok (x, st') → Hands k 0 st.draft st'.draft (fun _ => True) fun s t =>
      t = s.setRegs t.regs ∧ t.regs.sp = s.regs.sp + UInt8.ofNat m
  | 0, st, st', x, h => by
    obtain ⟨-, rfl⟩ := pure_ok.mp h
    exact Hands.refl fun s _ _ => ⟨rfl, (UInt8.add_zero _).symm⟩
  | m + 1, st, st', x, h => by
    obtain ⟨_, st₁, hpull, hrest⟩ := bind_ok.mp h
    cases hpull
    refine ((Hands.of_op (emits_pla (k := k) st.draft)).trans (hands_pulls hrest)
      fun _ _ _ _ => trivial).imp le_rfl (fun _ _ => trivial) ?_
    rintro s u - - ⟨t, ⟨ht, -, -, hsp⟩, hu, hsp'⟩
    refine ⟨?_, ?_⟩
    · rw [hu, ht]
      rfl
    · rw [hsp', hsp, Nat.add_comm, UInt8.ofNat_add, UInt8.add_assoc]
      rfl

/-- **The code behind a call** stores its result and pulls its arguments. -/
theorem hands_back {callee : String} {block : UInt16} {st₁ : State} {x y : Unit}
    (hnodup : ∀ z, result = some z → (registersOf c z).Nodup)
    (htake : takeResult callee shape result c st = .ok (x, st₁))
    (hpull : times block.toNat (bare .pla) c st₁ = .ok (y, st')) :
    Hands k 0 st.draft st'.draft (fun _ => True) fun s t =>
      Same st.draft.pointerCell everything
        (fill s (resultSpots c result) (returned shape.returnKind s.regs)) t ∧
        t.regs.sp = s.regs.sp + block.toUInt8 := by
  refine ((hands_takeResult (k := k) htake hnodup).trans (hands_pulls hpull)
    fun _ _ _ _ => trivial).imp le_rfl (fun _ _ => trivial) ?_
  rintro s u - - ⟨t, ⟨hsame, hsp⟩, hu, hsp'⟩
  refine ⟨hsame.trans ?_, ?_⟩
  · rw [hu]
    exact Same.setRegs t _
  · rw [hsp', hsp, UInt8.ofNat_uInt16ToNat]

end Back

/-! ### Calls -/

section Calls

variable {shape : Binding} {args : List Argument} {buffer : Option Place}

/-- What has been checked of a call: it passes an argument of the right size for every parameter,
and a buffer exactly where one is needed. -/
structure Checked (shape : Binding) (args : List Argument) (buffer : Option Place) : Prop where
  enough : shape.params.length ≤ args.length
  sizes : ∀ pair ∈ args.zip shape.params, pair.1.type.size = pair.2.size.toUInt16
  buffer : shape.resultSlot.isSome = buffer.isSome

theorem checkCall_ok {callee : String} {x : Unit}
    (h : checkCall callee shape args buffer c st = .ok (x, st')) :
    st' = st ∧ Checked shape args buffer := by
  unfold checkCall at h
  simp only at h
  split at h
  · cases h
  · rename_i hcount
    simp only [Bool.or_eq_true, decide_eq_true_eq, not_or, not_lt] at hcount
    cases hfind : (args.zip shape.params).find? checkCall.mismatched with
    | some found =>
      simp only [hfind] at h
      cases h
    | none =>
      simp only [hfind] at h
      have hsizes : ∀ pair ∈ args.zip shape.params, pair.1.type.size = pair.2.size.toUInt16 := by
        intro pair hpair
        simpa [checkCall.mismatched] using List.find?_eq_none.mp hfind pair hpair
      cases hslot : shape.resultSlot <;> cases buffer <;> simp only [hslot] at h <;>
        cases h <;> exact ⟨rfl, hcount.1, hsizes, by rw [hslot]; rfl⟩

/-- The lines of a call and what they do: those in front hand the arguments over, those behind store
the result and pull the arguments. -/
structure Lines (c : Context) (k : Linkage) (area : UInt16 → Prop) (n : ℕ) (st st' : State)
    (callee : String) (kind : Convention.CallKind) (shape : Binding) (result : Option Temp)
    (args : List Argument) (buffer : Option Place) (front back : List Line) : Prop where
  code : st'.draft.code = st.draft.code ++ (front ++ callCode callee kind ++ back)
  front_straight : ∀ line ∈ front, IsStraight line
  back_straight : ∀ line ∈ back, IsStraight line
  fits : ∀ y, result = some y → ∀ r, (registersOf c y).length = (returned shape.returnKind r).length
  front : ∀ s, Ready k st.draft s → Callable c k area shape args buffer s →
    PlainScratch st.draft.pointerCell (execAll k front s) ∧
      Same st.draft.pointerCell n (fill s
        (handedSpots c.convention.zeroPage shape args buffer s.regs.sp)
        (handedBytes c k shape args buffer s)) (execAll k front s) ∧
      (execAll k front s).regs.sp = s.regs.sp - UInt8.ofNat (blockSize shape args)
  back : ∀ s, PlainScratch st.draft.pointerCell s →
    Same st.draft.pointerCell everything
      (fill s (resultSpots c result) (returned shape.returnKind s.regs)) (execAll k back s) ∧
      (execAll k back s).regs.sp = s.regs.sp + UInt8.ofNat (blockSize shape args)

/-- **The code of a call.** -/
theorem lowerCall_lines {area : UInt16 → Prop} {node : Node} {result : Option Temp} {callee : String}
    {type : ValueType} {shape : Binding} {x : Unit} (hd : Setting c area n st.draft)
    (hshape : shapeOf c callee args type = .ok shape) (hfit : SlotsFit shape)
    (hnodup : ∀ z, result = some z → (registersOf c z).Nodup)
    (hin : Checked shape args buffer → Inside area (bufferSpots c.convention.zeroPage shape buffer) ∧
      Inside area (argumentSpots c.convention.zeroPage (args.zip shape.params)))
    (hroom : st.draft.nextVReg.toNat + 4 * args.length + 6 < everything)
    (h : lowerCall node result callee args type buffer c st = .ok (x, st')) :
    Checked shape args buffer ∧ ∃ kind front back,
      c.convention.callKind c.binding shape = .ok kind ∧
        Lines c k area n st st' callee kind shape result args buffer front back := by
  rw [lowerCall_eq] at h
  obtain ⟨c', st₀, hread, h₁⟩ := bind_ok.mp h
  cases hread
  obtain ⟨shape', st₁, hlift, h₂⟩ := bind_ok.mp h₁
  obtain ⟨hshape', rfl⟩ := Shapes.lift_ok hlift
  obtain rfl : shape = shape' := Except.ok.inj (hshape.symm.trans hshape')
  obtain ⟨kind, st₂, hlift', h₃⟩ := bind_ok.mp h₂
  obtain ⟨hkind, rfl⟩ := Shapes.lift_ok hlift'
  obtain ⟨y, st₃, hcheck, hcommit⟩ := bind_ok.mp h₃
  obtain ⟨rfl, hchecked⟩ := checkCall_ok hcheck
  obtain ⟨st₄, hbuild, hdraft⟩ := commitOnly_ok hcommit
  refine ⟨hchecked, kind, ?_⟩
  -- The steps of the candidate.
  obtain ⟨block, st₅, hblock, h₅⟩ := bind_ok.mp hbuild
  obtain ⟨_, st₆, hbuffer, h₆⟩ := bind_ok.mp h₅
  obtain ⟨_, st₇, hargs, h₇⟩ := bind_ok.mp h₆
  obtain ⟨_, st₈, hcall, h₈⟩ := bind_ok.mp h₇
  obtain ⟨_, st₉, htake, hpull⟩ := bind_ok.mp h₈
  have hd' : Setting c area n (State.mk st₃.draft.fork st₃.nextLabel).draft := hd.fork
  have hsizes : ∀ pair ∈ args.zip shape.params, pair.1.type.size.toNat = pair.2.type.size.toNat :=
    fun pair hpair => by rw [size_slot hfit hchecked.sizes pair hpair]
  obtain ⟨hsize, hfront⟩ := hands_front (k := k) hd' hsizes hblock hbuffer hargs
    (hin hchecked) hroom
  obtain ⟨hcode, hknown, hcell, -⟩ := emitCall_ok hcall
  have hback := hands_back (k := k) hnodup htake hpull
  have hcell₇ : st₇.draft.pointerCell = st₃.draft.fork.pointerCell := Emits.cell hfront.toEmits
  rw [hcell, hcell₇] at hback
  obtain ⟨front, hcode₇, hstraight, hrun⟩ := hfront.lines
  obtain ⟨back, hcode₄, hstraight', hrun'⟩ := hback.lines
  refine ⟨front, back, hkind, ?_, hstraight, hstraight', fun y hy => length_result (hy ▸ htake),
    fun s hs hcall => ?_, fun s hs => ?_⟩
  · have hfork : st₃.draft.fork.code = [] := rfl
    have hcommitted : st'.draft.code = st₃.draft.code ++ st₄.draft.code := by rw [hdraft]; rfl
    rw [hcommitted, hcode₄, hcode, hcode₇, hfork, List.nil_append]
  · obtain ⟨hready, hsame, hsp⟩ := hrun s hs hcall
    have hplain := hready.2
    rw [hcell₇] at hplain
    exact ⟨hplain, hsame, hsp⟩
  · have hready : Ready k st₈.draft s := by
      refine ⟨?_, by rw [hcell, hcell₇]; exact hs⟩
      rw [hknown]
      exact knows_nothing
    obtain ⟨-, hsame, hsp⟩ := hrun' s hready trivial
    rw [← UInt16.ofNat_toNat (x := block), hsize, UInt16.toUInt8_ofNat'] at hsp
    exact ⟨hsame, hsp⟩

end Calls

end Codegen6502.Proofs.Selecting.Handing
