import Codegen6502.Proofs.Selecting.Handing

/-!
# What a callee takes in

A callee begins with code that copies argument slots to registers: those of the parameters that it
uses, the address of the caller's result buffer, and the size and the address of the block of
variadic arguments (`passes_copyIncoming`).

The slots of a binding stand one behind the other (`Layout`), so no two of the bytes that a caller
hands over are one (`nodup_handedSpots`), and a callee finds all of them in the slots that it looks
at.
-/

namespace Codegen6502.Proofs.Selecting.Incoming

open Selection Growth Selecting.Numbering
open Processor.Memory Processor.LineRun Processor.Straight Processor.Stack
open Tracking Places Moves Courses Reading Computing Stacking Bodies Passing Addresses Handing

variable {c : Context} {k : Linkage} {s t u : Store} {st st' : State} {d d' : Draft} {cell : UInt8}
  {n : ℕ}

/-! ### Slots that are copied -/

/-- Registers hold what spots held before, and nothing else has changed. -/
structure Copies (vs : List VReg) (spots : List Spot) (s t : Store) : Prop where
  bus : t.machine.bus = s.machine.bus
  frame : t.frame = s.frame
  others : ∀ v ∉ vs, t.cells v = s.cells v
  bytes : vs.map t.cells = spots.map (get s)

theorem get_slot_of_bus (h : t.machine.bus = s.machine.bus) (z : ZeroPage) (i : ℕ) :
    get t (slotSpot z i) = get s (slotSpot z i) := by
  change t.machine.bus.read _ = s.machine.bus.read _
  rw [h]

theorem map_get_slots (h : t.machine.bus = s.machine.bus) (z : ZeroPage) (i size : ℕ) :
    (slotSpots z i size).map (get t) = (slotSpots z i size).map (get s) := by
  refine List.map_congr_left fun spot hspot => ?_
  obtain ⟨j, -, rfl⟩ := List.mem_map.mp hspot
  exact get_slot_of_bus h z j

/-- **Slots are copied** one after the other. -/
theorem passes_copySlots : ∀ {vs : List VReg} {i : ℕ} {st st' : State} {x : Unit},
    copySlots (UInt8.ofNat i) vs c st = .ok (x, st') → vs.Nodup →
    Passes k 0 st.draft st'.draft (fun _ => True)
      (Copies vs (slotSpots c.convention.zeroPage i vs.length))
  | [], i, st, st', x, h, _ => by
    obtain ⟨-, rfl⟩ := pure_ok.mp h
    exact Passes.refl fun s _ _ => ⟨rfl, rfl, fun _ _ => rfl, rfl⟩
  | v :: rest, i, st, st', x, h, hnodup => by
    obtain ⟨c', st₁, hread, h₁⟩ := bind_ok.mp h
    cases hread
    obtain ⟨_, st₂, hload, h₂⟩ := bind_ok.mp h₁
    obtain ⟨_, st₃, hstore, hrest⟩ := bind_ok.mp h₂
    have hnext : UInt8.ofNat i + 1 = UInt8.ofNat (i + 1) := (UInt8.ofNat_add i 1).symm
    rw [hnext] at hrest
    obtain ⟨hv, hnodup'⟩ := List.nodup_cons.mp hnodup
    have hlda := passes_lda (k := k) st.draft
      (show IsSimple (.zeroPage (c.convention.zeroPage.arg (UInt8.ofNat i))) from trivial)
    have hsta := passes_keep (k := k)
      (st.draft.op .lda (.zeroPage (c.convention.zeroPage.arg (UInt8.ofNat i)))) v
    have hdraft : st₃.draft = (st.draft.op .lda
        (.zeroPage (c.convention.zeroPage.arg (UInt8.ofNat i)))).op .sta (.virtual v) := by
      rw [modifyDraft_ok hstore, modifyDraft_ok hload]
    rw [← hdraft] at hsta
    refine (((hlda.trans hsta fun _ _ _ _ => trivial).trans (passes_copySlots hrest hnodup')
      fun _ _ _ _ => trivial)).imp le_rfl (fun _ _ => trivial) ?_
    rintro s w - - ⟨u, ⟨t, rfl, hkept⟩, hu⟩
    have hbus : u.machine.bus = s.machine.bus := by rw [hkept]; rfl
    refine ⟨hu.bus.trans hbus, hu.frame.trans (by rw [hkept]; rfl), fun other hother => ?_, ?_⟩
    · obtain ⟨hne, hnot⟩ := not_or.mp (List.mem_cons.not.mp hother)
      rw [hu.others other hnot, hkept]
      exact Function.update_of_ne hne _ _
    · rw [List.length_cons, slotSpots_succ, List.map_cons, List.map_cons, hu.others v hv, hu.bytes,
        map_get_slots hbus, hkept]
      exact congrArg (· :: _) (Function.update_self ..)

/-! ### Parameters -/

/-- The parameters that are used and that no later parameter replaces have the bytes of their slots,
and nothing but registers of parameters has changed. -/
structure TakesIn (c : Context) (params : List (Temp × ParamSlot)) (s t : Store) : Prop where
  bus : t.machine.bus = s.machine.bus
  frame : t.frame = s.frame
  others : ∀ v, (∀ p ∈ params, v ∉ registersOf c p.1) → t.cells v = s.cells v
  bytes : ∀ front p back, params = front ++ p :: back → usesOf c.function p.1 ≠ 0 →
    (∀ q ∈ back, q.1 ≠ p.1) → (registersOf c p.1).map t.cells =
      (slotSpots c.convention.zeroPage p.2.slot.toNat (registersOf c p.1).length).map (get s)

theorem registersOf_eq {x : Temp} {info : TempInfo} (h : c.temps[x]? = some info) :
    registersOf c x = info.vregs := by
  rw [registersOf, h]

theorem registers_apart {next : ℕ} (hnum : Numbered c.temps next) {x y : Temp} (hne : x ≠ y) :
    ∀ v ∈ registersOf c x, v ∉ registersOf c y := by
  intro v hx hy
  cases hxinfo : c.temps[x]? with
  | none => simp [registersOf, hxinfo] at hx
  | some xinfo =>
  cases hyinfo : c.temps[y]? with
  | none => simp [registersOf, hyinfo] at hy
  | some yinfo =>
    rw [registersOf_eq hxinfo] at hx
    rw [registersOf_eq hyinfo] at hy
    exact hnum.apart x y xinfo yinfo hxinfo hyinfo hne v hx hy

theorem registers_below {next : ℕ} (hnum : Numbered c.temps next) {x : Temp} :
    ∀ v ∈ registersOf c x, v.index.toNat < next := by
  intro v hv
  cases hinfo : c.temps[x]? with
  | none => simp [registersOf, hinfo] at hv
  | some info => exact hnum.below x info hinfo v (registersOf_eq hinfo ▸ hv)

/-- **The parameters are copied** out of their slots. -/
theorem passes_copyParams {next : ℕ} (hnum : Numbered c.temps next) :
    ∀ {params : List (Temp × ParamSlot)} {st st' : State} {x : Unit},
      copyParams params c st = .ok (x, st') →
      Passes k 0 st.draft st'.draft (fun _ => True) (TakesIn c params)
  | [], st, st', x, h => by
    obtain ⟨-, rfl⟩ := pure_ok.mp h
    exact Passes.refl fun s _ _ =>
      ⟨rfl, rfl, fun _ _ => rfl, fun front p back hparams => by simp at hparams⟩
  | (y, param) :: rest, st, st', x, h => by
    obtain ⟨c', st₁, hread, h₁⟩ := bind_ok.mp h
    cases hread
    -- The registers of the first parameter are written if it is used.
    have hfirst : ∃ st₂, (∃ u, copyParams rest c st₂ = .ok (u, st')) ∧
        Passes k 0 st.draft st₂.draft (fun _ => True) fun s t =>
          t.machine.bus = s.machine.bus ∧ t.frame = s.frame ∧
            (∀ v ∉ registersOf c y, t.cells v = s.cells v) ∧ (usesOf c.function y ≠ 0 →
              (registersOf c y).map t.cells = (slotSpots c.convention.zeroPage param.slot.toNat
                (registersOf c y).length).map (get s)) := by
      split at h₁
      · rename_i hused
        obtain ⟨info, st₃, hinfo, h₂⟩ := bind_ok.mp h₁
        obtain ⟨rfl, hget⟩ := tempInfo_ok hinfo
        obtain ⟨_, st₂, hslots, hrest⟩ := bind_ok.mp h₂
        rw [← @UInt8.ofNat_toNat param.slot, ← registersOf_eq hget] at hslots
        have hnodup : (registersOf c y).Nodup := registersOf_eq hget ▸ hnum.nodup y info hget
        exact ⟨st₂, ⟨_, hrest⟩, (passes_copySlots hslots hnodup).imp le_rfl (fun _ h => h)
          fun s t _ _ ht => ⟨ht.bus, ht.frame, ht.others, fun _ => ht.bytes⟩⟩
      · rename_i hunused
        exact ⟨st, ⟨_, h₁⟩, Passes.refl fun s _ _ =>
          ⟨rfl, rfl, fun _ _ => rfl, fun hused => absurd hused hunused⟩⟩
    obtain ⟨st₂, ⟨u, hrest⟩, hone⟩ := hfirst
    refine (hone.trans (passes_copyParams hnum hrest) fun _ _ _ _ => trivial).imp le_rfl
      (fun _ _ => trivial) ?_
    rintro s w - - ⟨t, ⟨hbus, hframe, hothers, hbytes⟩, hw⟩
    refine ⟨hw.bus.trans hbus, hw.frame.trans hframe, fun v hv => ?_,
      fun front p back hparams hused hlast => ?_⟩
    · rw [hw.others v fun p hp => hv p (List.mem_cons_of_mem _ hp)]
      exact hothers v (hv _ (List.mem_cons_self ..))
    · rcases List.cons_eq_append_iff.mp hparams with ⟨rfl, hp⟩ | ⟨front', rfl, hrest'⟩
      · obtain ⟨rfl, rfl⟩ := List.cons_eq_cons.mp hp
        -- No later parameter has one of its registers.
        rw [← hbytes hused]
        exact List.map_congr_left fun v hv => hw.others v fun q hq =>
          registers_apart hnum (hlast q hq).symm v hv
      · rw [hw.bytes front' p back hrest' hused hlast, map_get_slots hbus]

/-! ### Hidden values -/

/-- Nothing but registers from a number on has changed. -/
structure Beyond (n : ℕ) (s t : Store) : Prop where
  bus : t.machine.bus = s.machine.bus
  frame : t.frame = s.frame
  cells : ∀ v : VReg, v.index.toNat < n → t.cells v = s.cells v

theorem Beyond.refl (n : ℕ) (s : Store) : Beyond n s s := ⟨rfl, rfl, fun _ _ => rfl⟩

theorem Beyond.trans {m : ℕ} (h : Beyond n s t) (h' : Beyond m t u) (hle : n ≤ m) : Beyond n s u :=
  ⟨h'.bus.trans h.bus, h'.frame.trans h.frame, fun v hv =>
    (h'.cells v (lt_of_lt_of_le hv hle)).trans (h.cells v hv)⟩

theorem Beyond.mono {m : ℕ} (h : Beyond n s t) (hle : m ≤ n) : Beyond m s t :=
  ⟨h.bus, h.frame, fun v hv => h.cells v (lt_of_lt_of_le hv hle)⟩

theorem Copies.beyond {vs : List VReg} {spots : List Spot} (h : Copies vs spots s t)
    (hvs : ∀ v ∈ vs, n ≤ v.index.toNat) : Beyond n s t :=
  ⟨h.bus, h.frame, fun v hv => h.others v fun hmem => absurd (hvs v hmem) (not_le.mpr hv)⟩

/-- A pointer that is taken from slots, if it is taken at all. -/
def PointsAs (z : ZeroPage) (slot : Option UInt8) (s t : Store) (pointer : Option PointerPair) :
    Prop :=
  ∀ lo hi, pointer = some (lo, hi) → ∃ i, slot = some i ∧
    [t.cells lo, t.cells hi] = (slotSpots z i.toNat 2).map (get s)

/-- A pointer that has been taken is below the numbers of new registers. -/
def Taken (n : ℕ) (pointer : Option PointerPair) : Prop :=
  ∀ lo hi, pointer = some (lo, hi) → lo.index.toNat < n ∧ hi.index.toNat < n

theorem taken_none : Taken n none := fun _ _ h => nomatch h

theorem pointsAs_none {z : ZeroPage} {slot : Option UInt8} : PointsAs z slot s t none :=
  fun _ _ h => nomatch h

theorem PointsAs.beyond {z : ZeroPage} {slot : Option UInt8} {pointer : Option PointerPair}
    (h : PointsAs z slot s t pointer) (hn : Taken n pointer) (hu : Beyond n t u) :
    PointsAs z slot s u pointer := by
  intro lo hi hpointer
  obtain ⟨i, hi', hcells⟩ := h lo hi hpointer
  obtain ⟨hlo, hhi⟩ := hn lo hi hpointer
  exact ⟨i, hi', by rw [hu.cells lo hlo, hu.cells hi hhi, hcells]⟩

/-- Slots hold the same as long as memory is as it was. -/
theorem PointsAs.of_bus {z : ZeroPage} {slot : Option UInt8} {pointer : Option PointerPair}
    (h : PointsAs z slot t u pointer) (hbus : t.machine.bus = s.machine.bus) :
    PointsAs z slot s u pointer := by
  intro lo hi hpointer
  obtain ⟨i, hi', hcells⟩ := h lo hi hpointer
  exact ⟨i, hi', by rw [hcells, map_get_slots hbus]⟩

/-- Two slots are copied to new registers. -/
theorem passes_copyPair {slot : UInt8} {lo hi : VReg} {st₁ : State} {x : Unit}
    (hpair : newPair c st = .ok ((lo, hi), st₁)) (hcopy : copySlots slot [lo, hi] c st₁ = .ok (x, st'))
    (hroom : st.draft.nextVReg.toNat + 2 < everything) :
    Taken st'.draft.nextVReg.toNat (some (lo, hi)) ∧
      Passes k 2 st.draft st'.draft (fun _ => True) fun s t =>
        Beyond st.draft.nextVReg.toNat s t ∧
          [t.cells lo, t.cells hi] = (slotSpots c.convention.zeroPage slot.toNat 2).map (get s) := by
  obtain ⟨hlo, hhi, hnext, hnew⟩ : lo.index.toNat = _ ∧ hi.index.toNat = _ ∧ _ ∧ _ :=
    newPair_ok (k := k) hpair hroom
  have hne : lo ≠ hi := fun heq => by
    rw [heq] at hlo
    omega
  rw [← @UInt8.ofNat_toNat slot] at hcopy
  have hslots := passes_copySlots (k := k) hcopy (by simpa using hne)
  have hgrows := hslots.toEmits.grows
  refine ⟨fun lo' hi' heq => ?_, (hnew.trans hslots fun _ _ _ _ => trivial).imp le_rfl (fun _ h => h) ?_⟩
  · cases heq
    omega
  · rintro s u - - ⟨t, rfl, hu⟩
    refine ⟨hu.beyond fun v hv => ?_, hu.bytes⟩
    simp only [List.mem_cons, List.not_mem_nil, or_false] at hv
    rcases hv with rfl | rfl <;> omega

/-- **The result pointer** is taken if the body goes through it. -/
theorem passes_copyResultPointer {body : List Node} {pointer : Option PointerPair}
    (h : copyResultPointer body c st = .ok (pointer, st'))
    (hroom : st.draft.nextVReg.toNat + 2 < everything) :
    (pointer.isSome = body.any fun node => (placesIn node).any isReturnSlot) ∧
      Taken st'.draft.nextVReg.toNat pointer ∧
      Passes k 2 st.draft st'.draft (fun _ => True) fun s t => Beyond st.draft.nextVReg.toNat s t ∧
        PointsAs c.convention.zeroPage c.binding.resultSlot s t pointer := by
  unfold copyResultPointer at h
  split at h
  · rename_i hbody
    obtain ⟨c', st₁, hread, h₁⟩ := bind_ok.mp h
    cases hread
    cases hslot : c.binding.resultSlot with
    | none =>
      simp only [hslot] at h₁
      cases h₁
    | some slot =>
      simp only [hslot] at h₁
      obtain ⟨⟨lo, hi⟩, st₂, hpair, h₂⟩ := bind_ok.mp h₁
      obtain ⟨_, st₃, hcopy, hpure⟩ := bind_ok.mp h₂
      obtain ⟨rfl, rfl⟩ := pure_ok.mp hpure
      obtain ⟨htaken, hpasses⟩ := passes_copyPair (k := k) hpair hcopy hroom
      refine ⟨by rw [hbody]; rfl, htaken, hpasses.imp le_rfl (fun _ h => h) fun s t _ _ ht =>
        ⟨ht.1, fun lo' hi' heq => ?_⟩⟩
      cases heq
      exact ⟨slot, rfl, ht.2⟩
  · rename_i hbody
    obtain ⟨rfl, rfl⟩ := pure_ok.mp h
    exact ⟨by simpa using hbody, taken_none, (Passes.refl fun s _ _ => ⟨Beyond.refl _ s,
      pointsAs_none⟩).imp (Nat.zero_le _) (fun _ h => h) fun _ _ _ _ h => h⟩

/-- A count that is taken from a slot, if it is taken at all. -/
def CountsAs (z : ZeroPage) (slot : Option UInt8) (s t : Store) (count : Option VReg) : Prop :=
  ∀ v, count = some v → ∃ i, slot = some i ∧ t.cells v = get s (slotSpot z i.toNat)

theorem countsAs_none {z : ZeroPage} {slot : Option UInt8} : CountsAs z slot s t none :=
  fun _ h => nomatch h

theorem CountsAs.beyond {z : ZeroPage} {slot : Option UInt8} {count : Option VReg}
    (h : CountsAs z slot s t count) (hn : ∀ v, count = some v → v.index.toNat < n)
    (hu : Beyond n t u) : CountsAs z slot s u count := by
  intro v hv
  obtain ⟨i, hi, hcell⟩ := h v hv
  exact ⟨i, hi, (hu.cells v (hn v hv)).trans hcell⟩

theorem CountsAs.of_bus {z : ZeroPage} {slot : Option UInt8} {count : Option VReg}
    (h : CountsAs z slot t u count) (hbus : t.machine.bus = s.machine.bus) :
    CountsAs z slot s u count := by
  intro v hv
  obtain ⟨i, hi, hcell⟩ := h v hv
  exact ⟨i, hi, hcell.trans (get_slot_of_bus hbus z _)⟩

/-- The step that takes the pointer to the block. -/
def takeCursor (wants : Bool) (slot : UInt8) : Lower (Option PointerPair) :=
  if wants then do
    let (lo, hi) ← newPair
    copySlots slot [lo, hi]
    pure (some (lo, hi))
  else pure none

/-- The step that takes the size of the block. -/
def takeCount (wants : Bool) (slot : UInt8) : Lower (Option VReg) :=
  if wants then do
    let v ← newVReg
    copySlots slot [v]
    pure (some v)
  else pure none

/-- The steps for a function that asks for its variadic arguments. -/
def takeVariadic (body : List Node) : Lower (Option VReg × Option PointerPair) := do
  match (← read).binding.vaCountSlot, (← read).binding.vaPtrSlot with
  | some countSlot, some pointerSlot =>
    let count ← takeCount (body.any isVaCount) countSlot
    let pointer ← takeCursor (body.any isVaStart) pointerSlot
    return (count, pointer)
  | _, _ => invalid "variadic access in a function that is not variadic"

theorem copyVariadic_eq (body : List Node) : copyVariadic body =
    if body.any isVaCount || body.any isVaStart then takeVariadic body else pure (none, none) := by
  unfold copyVariadic takeVariadic takeCount takeCursor
  cases body.any isVaCount <;> cases body.any isVaStart <;> rfl

theorem passes_takeCursor {wants : Bool} {slot : UInt8} {pointer : Option PointerPair}
    (h : takeCursor wants slot c st = .ok (pointer, st'))
    (hroom : st.draft.nextVReg.toNat + 2 < everything) :
    pointer.isSome = wants ∧ Taken st'.draft.nextVReg.toNat pointer ∧
      Passes k 2 st.draft st'.draft (fun _ => True) fun s t => Beyond st.draft.nextVReg.toNat s t ∧
        PointsAs c.convention.zeroPage (some slot) s t pointer := by
  cases wants with
  | true =>
    obtain ⟨⟨lo, hi⟩, st₂, hpair, h₂⟩ := bind_ok.mp h
    obtain ⟨_, st₃, hcopy, hpure⟩ := bind_ok.mp h₂
    obtain ⟨rfl, rfl⟩ := pure_ok.mp hpure
    obtain ⟨htaken, hpasses⟩ := passes_copyPair (k := k) hpair hcopy hroom
    refine ⟨rfl, htaken, hpasses.imp le_rfl (fun _ h => h) fun s t _ _ ht =>
      ⟨ht.1, fun lo' hi' heq => ?_⟩⟩
    cases heq
    exact ⟨slot, rfl, ht.2⟩
  | false =>
    obtain ⟨rfl, rfl⟩ := pure_ok.mp h
    exact ⟨rfl, taken_none, (Passes.refl fun s _ _ => ⟨Beyond.refl _ s, pointsAs_none⟩).imp
      (Nat.zero_le _) (fun _ h => h) fun _ _ _ _ h => h⟩

theorem passes_takeCount {wants : Bool} {slot : UInt8} {count : Option VReg}
    (h : takeCount wants slot c st = .ok (count, st'))
    (hroom : st.draft.nextVReg.toNat + 1 < everything) :
    count.isSome = wants ∧ (∀ v, count = some v → v.index.toNat < st'.draft.nextVReg.toNat) ∧
      Passes k 1 st.draft st'.draft (fun _ => True) fun s t => Beyond st.draft.nextVReg.toNat s t ∧
        CountsAs c.convention.zeroPage (some slot) s t count := by
  cases wants with
  | true =>
    obtain ⟨v, st₂, hnew, h₂⟩ := bind_ok.mp h
    obtain ⟨_, st₃, hcopy, hpure⟩ := bind_ok.mp h₂
    obtain ⟨rfl, rfl⟩ := pure_ok.mp hpure
    obtain ⟨rfl, hd⟩ := newVReg_ok hnew
    have hpasses := passes_newVReg (k := k) (d := st.draft) hroom
    rw [← hd] at hpasses
    have hnext : st₂.draft.nextVReg.toNat = st.draft.nextVReg.toNat + 1 := by
      rw [hd]
      exact nextVReg_newVReg hroom
    rw [← @UInt8.ofNat_toNat slot] at hcopy
    have hslots := passes_copySlots (k := k) hcopy (List.nodup_singleton _)
    have hgrows := hslots.toEmits.grows
    refine ⟨rfl, fun v hv => ?_, (hpasses.trans hslots fun _ _ _ _ => trivial).imp le_rfl
      (fun _ h => h) ?_⟩
    · cases hv
      change st.draft.nextVReg.toNat < _
      omega
    · rintro s u - - ⟨t, rfl, hu⟩
      refine ⟨hu.beyond fun v hv => ?_, fun v hv => ?_⟩
      · rw [List.mem_singleton.mp hv]
        exact le_rfl
      · cases hv
        exact ⟨slot, rfl, by simpa [slotSpots] using hu.bytes⟩
  | false =>
    obtain ⟨rfl, rfl⟩ := pure_ok.mp h
    refine ⟨rfl, fun _ hv => (Option.some_ne_none _ hv.symm).elim, (Passes.refl fun s _ _ =>
      ⟨Beyond.refl _ s, countsAs_none⟩).imp (Nat.zero_le _) (fun _ h => h) fun _ _ _ _ h => h⟩

/-- **The size and the address of the block** of variadic arguments are taken if the body asks for
them. -/
theorem passes_copyVariadic {body : List Node} {hidden : Option VReg × Option PointerPair}
    (h : copyVariadic body c st = .ok (hidden, st'))
    (hroom : st.draft.nextVReg.toNat + 3 < everything) :
    hidden.1.isSome = body.any isVaCount ∧ hidden.2.isSome = body.any isVaStart ∧
      Passes k 3 st.draft st'.draft (fun _ => True) fun s t => Beyond st.draft.nextVReg.toNat s t ∧
        CountsAs c.convention.zeroPage c.binding.vaCountSlot s t hidden.1 ∧
        PointsAs c.convention.zeroPage c.binding.vaPtrSlot s t hidden.2 := by
  rw [copyVariadic_eq] at h
  split at h
  · obtain ⟨c', st₁, hread, h₁⟩ := bind_ok.mp h
    cases hread
    obtain ⟨c', st₁, hread, h₂⟩ := bind_ok.mp h₁
    cases hread
    cases hcount : c.binding.vaCountSlot with
    | none =>
      simp only [hcount] at h₂
      cases h₂
    | some countSlot =>
    cases hpointer : c.binding.vaPtrSlot with
    | none =>
      simp only [hcount, hpointer] at h₂
      cases h₂
    | some pointerSlot =>
      simp only [hcount, hpointer] at h₂
      obtain ⟨count, st₂, hfirst, h₃⟩ := bind_ok.mp h₂
      obtain ⟨pointer, st₃, hsecond, hpure⟩ := bind_ok.mp h₃
      obtain ⟨rfl, rfl⟩ := pure_ok.mp hpure
      obtain ⟨hsome, hbelow, hone⟩ := passes_takeCount (k := k) hfirst (by omega)
      have hbounded := hone.toEmits.bounded
      obtain ⟨hsome', -, htwo⟩ := passes_takeCursor (k := k) hsecond (by omega)
      refine ⟨hsome, hsome', (hone.trans htwo fun _ _ _ _ => trivial).imp le_rfl (fun _ h => h) ?_⟩
      rintro s u - - ⟨t, ⟨ht, hcounts⟩, hu, hpoints⟩
      exact ⟨ht.trans hu hone.toEmits.grows, hcounts.beyond hbelow hu, hpoints.of_bus ht.bus⟩
  · rename_i hwants
    simp only [Bool.or_eq_true, not_or, Bool.not_eq_true] at hwants
    obtain ⟨rfl, rfl⟩ := pure_ok.mp h
    exact ⟨hwants.1.symm, hwants.2.symm, (Passes.refl fun s _ _ => ⟨Beyond.refl _ s,
      countsAs_none, pointsAs_none⟩).imp (Nat.zero_le _) (fun _ h => h) fun _ _ _ _ h => h⟩

/-! ### All of it -/

/-- What a callee has taken in. -/
structure Received (c : Context) (hidden : Hidden) (s t : Store) : Prop where
  params : ∀ front p back, c.function.params.zip c.binding.params = front ++ p :: back →
    usesOf c.function p.1 ≠ 0 → (∀ q ∈ back, q.1 ≠ p.1) → (registersOf c p.1).map t.cells =
      (slotSpots c.convention.zeroPage p.2.slot.toNat (registersOf c p.1).length).map (get s)
  result : PointsAs c.convention.zeroPage c.binding.resultSlot s t hidden.resultPointer
  count : CountsAs c.convention.zeroPage c.binding.vaCountSlot s t hidden.vaCount
  pointer : PointsAs c.convention.zeroPage c.binding.vaPtrSlot s t hidden.vaPointer

/-- The hidden values are taken where the body asks for them. -/
structure Asked (body : List Node) (hidden : Hidden) : Prop where
  result : hidden.resultPointer.isSome = body.any fun node => (placesIn node).any isReturnSlot
  count : hidden.vaCount.isSome = body.any isVaCount
  pointer : hidden.vaPointer.isSome = body.any isVaStart

/-- **Everything that comes in is copied** to the registers of the callee. -/
theorem passes_copyIncoming {hidden : Hidden} (h : copyIncoming c st = .ok (hidden, st'))
    (hnum : Numbered c.temps st.draft.nextVReg.toNat)
    (hroom : st.draft.nextVReg.toNat + 5 < everything) :
    Asked c.function.body hidden ∧ Passes k 5 st.draft st'.draft (fun _ => True) fun s t =>
      t.machine.bus = s.machine.bus ∧ t.frame = s.frame ∧ Received c hidden s t := by
  obtain ⟨c', st₀, hread, h₀⟩ := bind_ok.mp h
  cases hread
  obtain ⟨_, st₁, hparams, h₁⟩ := bind_ok.mp h₀
  obtain ⟨result, st₂, hresult, h₂⟩ := bind_ok.mp h₁
  obtain ⟨⟨count, pointer⟩, st₃, hvariadic, hpure⟩ := bind_ok.mp h₂
  obtain ⟨rfl, rfl⟩ := pure_ok.mp hpure
  have hone := passes_copyParams (k := k) hnum hparams
  have hgrows := hone.toEmits.grows
  have hb₁ := hone.toEmits.bounded
  obtain ⟨hsome, htaken, htwo⟩ := passes_copyResultPointer (k := k) hresult (by omega)
  have hb₂ := htwo.toEmits.bounded
  obtain ⟨hsome', hsome'', hthree⟩ := passes_copyVariadic (k := k) hvariadic (by omega)
  refine ⟨⟨hsome, hsome', hsome''⟩, ((hone.trans htwo fun _ _ _ _ => trivial).trans hthree
    fun _ _ _ _ => trivial).imp (by omega) (fun _ _ => trivial) ?_⟩
  rintro s w - - ⟨u, ⟨t, ht, hu, hpoints⟩, hw, hcounts, hpoints'⟩
  have hlast : Beyond st.draft.nextVReg.toNat t w := hu.trans hw htwo.toEmits.grows |>.mono hgrows
  refine ⟨hlast.bus.trans ht.bus, hlast.frame.trans ht.frame, ?_, ?_, ?_, ?_⟩
  · intro front p back hall hused hlater
    rw [← ht.bytes front p back hall hused hlater]
    exact List.map_congr_left fun v hv => hlast.cells v (registers_below hnum v hv)
  · exact (hpoints.beyond htaken hw).of_bus ht.bus
  · exact hcounts.of_bus (hu.bus.trans ht.bus)
  · exact hpoints'.of_bus (hu.bus.trans ht.bus)

/-! ### The slots of a binding -/

/-- The slots of a binding, from slot 0 on: the result pointer, the parameters from slot `first` on,
and from slot `base` on what belongs to variadic arguments. -/
structure Layout (z : ZeroPage) (b : Binding) (first base : ℕ) (types : List ValueType) : Prop where
  params : b.params = Convention.paramSlots first types
  result : b.resultSlot = none ∧ first = 0 ∨ b.resultSlot = some 0 ∧ first = 2
  behind : base = first + Convention.paramBytes types
  variadic : b.variadic = true →
    b.vaCountSlot = some (UInt8.ofNat base) ∧ b.vaPtrSlot = some (UInt8.ofNat (base + 1))
  plain : b.variadic = false → b.vaCountSlot = none ∧ b.vaPtrSlot = none
  fits : base + (if b.variadic then 3 else 0) ≤ z.argSlots.toNat

/-- What a check that has been passed says. -/
theorem not_of_guard {α : Type} {p : Prop} [Decidable p] {e : CompileError} {x : Compile α} {a : α}
    (h : (if p then (throw e : Compile PUnit) >>= fun _ => x else x) = .ok a) : ¬p := by
  split at h
  · cases h
  · assumption

theorem bindSignature_layout {conv : Convention} {sig : Signature} {b : Binding}
    (h : conv.bindSignature sig = .ok b) : ∃ first base, Layout conv.zeroPage b first base sig.params := by
  unfold Convention.bindSignature at h
  simp only at h
  split at h
  · cases h
  · split at h
    · split at h
      · cases h
      · have hfits := not_of_guard h
        replace h := ok_of_guard h
        cases h
        refine ⟨_, _, rfl, ?_, rfl, ?_, ?_, ?_⟩
        · cases sig.returnType.isStruct
          · exact Or.inl ⟨rfl, rfl⟩
          · exact Or.inr ⟨rfl, rfl⟩
        · intro hvariadic
          simp only at hvariadic
          simp [hvariadic]
        · intro hvariadic
          simp only at hvariadic
          simp [hvariadic]
        · refine le_trans (le_of_eq ?_) (not_lt.mp hfits)
          cases sig.variadic <;> rfl
    · cases h

/-- **The slots of a bound function** stand one behind the other. -/
theorem bind_layout {conv : Convention} {f : FunctionDef} {b : Binding} (h : conv.bind f = .ok b) :
    ∃ first base, Layout conv.zeroPage b first base f.signature.params := by
  obtain ⟨b', hb', hrest⟩ := Computations.bind_eq_ok.mp h
  obtain ⟨first, base, hl⟩ := bindSignature_layout hb'
  simp only at hrest
  split at hrest
  · cases hrest
  · cases hrest
    exact ⟨first, base, hl.params, hl.result, hl.behind, hl.variadic, hl.plain, hl.fits⟩

section Layout

variable {z : ZeroPage} {b : Binding} {first base : ℕ} {types : List ValueType} {i j size : ℕ}

theorem slotSpot_toNat (z : ZeroPage) (i : ℕ) : slotSpot z (UInt8.ofNat i).toNat = slotSpot z i := by
  rw [slotSpot, UInt8.ofNat_toNat, slotSpot]

theorem slotSpots_toNat (z : ZeroPage) (i size : ℕ) :
    slotSpots z (UInt8.ofNat i).toNat size = slotSpots z i size := by
  unfold slotSpots
  rw [List.range'_eq_map_range, List.range'_eq_map_range, List.map_map, List.map_map]
  refine List.map_congr_left fun j _ => ?_
  simp only [Function.comp_apply, slotSpot, UInt8.ofNat_add, UInt8.ofNat_toNat]

/-- Slots are distinct bytes. -/
theorem slotSpot_inj (hi : i < 256) (hj : j < 256) : slotSpot z i = slotSpot z j ↔ i = j := by
  refine ⟨fun h => ?_, fun h => h ▸ rfl⟩
  have hcell : z.arg (UInt8.ofNat i) = z.arg (UInt8.ofNat j) := by
    rw [slotSpot, slotSpot] at h
    exact UInt8.toUInt16_inj.mp (Spot.memory.inj h)
  have hslot : UInt8.ofNat i = UInt8.ofNat j := (UInt8.add_right_inj z.argBase).mp hcell
  have := congrArg UInt8.toNat hslot
  rwa [UInt8.toNat_ofNat_of_lt' hi, UInt8.toNat_ofNat_of_lt' hj] at this

theorem nodup_slots {is : List ℕ} (h : is.Nodup) (hlt : ∀ i ∈ is, i < 256) :
    (is.map (slotSpot z)).Nodup :=
  h.map_on fun i hi j hj heq => (slotSpot_inj (hlt i hi) (hlt j hj)).mp heq

/-- The parameters take up all slots from the first one on. -/
theorem argumentSpots_eq : ∀ {types : List ValueType} {args : List Argument} {first : ℕ},
    types.length ≤ args.length → argumentSpots z (args.zip (Convention.paramSlots first types)) =
      slotSpots z first (Convention.paramBytes types)
  | [], args, first, _ => by
    simp [Convention.paramSlots, argumentSpots, Convention.paramBytes, totalOf, slotSpots]
  | type :: types, [], first, h => absurd h (by simp)
  | type :: types, arg :: args, first, h => by
    have ih : argumentSpots z (args.zip (Convention.paramSlots (first + type.size.toNat) types)) = _ :=
      argumentSpots_eq (by simpa using h)
    have hbytes : Convention.paramBytes (type :: types) =
        type.size.toNat + Convention.paramBytes types := totalOf_cons _ _ _
    rw [Convention.paramSlots, List.zip_cons_cons, argumentSpots, List.flatMap_cons, hbytes]
    rw [argumentSpots] at ih
    rw [ih, slotSpots_toNat, slotSpots, slotSpots, slotSpots, ← List.map_append, List.range'_append_1]

/-- The numbers of the slots that a caller writes to, in the order of `handedSpots`. -/
def handedSlots (b : Binding) (buffer : Option Place) (first base : ℕ) : List ℕ :=
  (if b.variadic then [base + 1, base + 2, base] else []) ++
    ((if b.resultSlot.isSome && buffer.isSome then [0, 1] else []) ++ List.range' first (base - first))

/-- The bytes that a caller pushes. -/
def pushedSpots (b : Binding) (args : List Argument) (sp : UInt8) : List Spot :=
  if b.variadic then pushed sp (Bodies.sizeOf (extra b args)) else []

variable {args : List Argument} {buffer : Option Place}

theorem length_paramSlots : ∀ (types : List ValueType) (next : ℕ),
    (Convention.paramSlots next types).length = types.length
  | [], _ => rfl
  | _ :: rest, _ => congrArg (· + 1) (length_paramSlots rest _)

theorem handedSpots_eq (hl : Layout z b first base types) (henough : b.params.length ≤ args.length)
    (sp : UInt8) : handedSpots z b args buffer sp =
      pushedSpots b args sp ++ (handedSlots b buffer first base).map (slotSpot z) := by
  have hcount : types.length ≤ args.length := by
    rwa [hl.params, length_paramSlots] at henough
  have hblock : blockSpots z b args sp = pushedSpots b args sp ++
      (if b.variadic then [base + 1, base + 2, base] else []).map (slotSpot z) := by
    unfold blockSpots pushedSpots
    split
    · rename_i hv
      obtain ⟨hcount, hptr⟩ := hl.variadic hv
      refine congrArg _ ?_
      rw [pointerSpots, hcount, hptr]
      simp only [Option.getD_some, slotSpot_toNat, List.map_cons, List.map_nil, List.cons.injEq, and_true,
        true_and]
      simp only [slotSpot, UInt8.ofNat_add, UInt8.ofNat_toNat, UInt8.add_assoc]
      rfl
    · rfl
  have hbuffer : bufferSpots z b buffer =
      (if b.resultSlot.isSome && buffer.isSome then [0, 1] else []).map (slotSpot z) := by
    obtain ⟨hresult, -⟩ | ⟨hresult, -⟩ := hl.result <;> cases buffer <;>
      simp [bufferSpots, hresult, slotSpots, List.range']
  have hbytes : Convention.paramBytes types = base - first := by
    have := hl.behind
    omega
  rw [handedSpots, hblock, hbuffer, hl.params, argumentSpots_eq hcount, hbytes, handedSlots,
    List.map_append, List.map_append, List.append_assoc, slotSpots]

theorem handedSlots_lt (hl : Layout z b first base types) :
    ∀ i ∈ handedSlots b buffer first base, i < z.argSlots.toNat := by
  have hfits := hl.fits
  have hbehind := hl.behind
  have hresult := hl.result
  intro i hi
  unfold handedSlots at hi
  rcases List.mem_append.mp hi with hi | hi
  · split at hi
    · rename_i hv
      simp only [hv, if_true] at hfits
      simp only [List.mem_cons, List.not_mem_nil, or_false] at hi
      omega
    · cases hi
  · rcases List.mem_append.mp hi with hi | hi
    · split at hi
      · rename_i hsome
        obtain ⟨hnone, -⟩ | ⟨-, htwo⟩ := hresult
        · simp [hnone] at hsome
        · simp only [List.mem_cons, List.not_mem_nil, or_false] at hi
          omega
      · cases hi
    · have := List.mem_range'_1.mp hi
      omega

theorem nodup_handedSlots (hl : Layout z b first base types) :
    (handedSlots b buffer first base).Nodup := by
  have hbehind := hl.behind
  have hslots : ((if b.resultSlot.isSome && buffer.isSome then [0, 1] else []) ++
      List.range' first (base - first)).Nodup := by
    refine List.nodup_append.mpr ⟨by split <;> simp, List.nodup_range' .., ?_⟩
    intro i hi j hj heq
    subst heq
    split at hi
    · rename_i hsome
      obtain ⟨hnone, -⟩ | ⟨-, htwo⟩ := hl.result
      · simp [hnone] at hsome
      · simp only [List.mem_cons, List.not_mem_nil, or_false] at hi
        have := List.mem_range'_1.mp hj
        omega
    · cases hi
  refine List.nodup_append.mpr ⟨by split <;> simp, hslots, ?_⟩
  intro i hi j hj heq
  subst heq
  split at hi
  · simp only [List.mem_cons, List.not_mem_nil, or_false] at hi
    rcases List.mem_append.mp hj with hj | hj
    · split at hj
      · rename_i hsome
        obtain ⟨hnone, -⟩ | ⟨-, htwo⟩ := hl.result
        · simp [hnone] at hsome
        · simp only [List.mem_cons, List.not_mem_nil, or_false] at hj
          omega
      · cases hj
    · have := List.mem_range'_1.mp hj
      omega
  · cases hi

/-! ### What has been handed over -/

/-- No argument slot is the scratch pointer or the copy of the bank register. -/
def SlotsApart (z : ZeroPage) : Prop :=
  ∀ i < z.argSlots.toNat, z.arg (UInt8.ofNat i) ∉ [z.pointerLo, z.pointerHi, z.bankShadow]

instance (z : ZeroPage) : Decidable (SlotsApart z) := by unfold SlotsApart; infer_instance

theorem visible_slot (h : SlotsApart z) (hi : i < z.argSlots.toNat) :
    Visible z.pointerLo n (slotSpot z i) := by
  have hnot := h i hi
  simp only [List.mem_cons, List.not_mem_nil, or_false, not_or] at hnot
  rintro (heq | heq)
  · exact hnot.1 (UInt8.toUInt16_inj.mp heq)
  · exact hnot.2.1 (UInt8.toUInt16_inj.mp heq)

theorem visible_pushed {sp : UInt8} : ∀ spot ∈ pushed sp size, Visible cell n spot := by
  intro spot hspot
  obtain ⟨i, -, rfl⟩ := List.mem_map.mp hspot
  rintro (heq | heq) <;> exact cell_ne_stack _ _ heq.symm

theorem nodup_pushed (sp : UInt8) (h : size ≤ 256) : (pushed sp size).Nodup := by
  refine List.nodup_range.map_on fun i hi j hj heq => ?_
  have hi' := List.mem_range.mp hi
  have hj' := List.mem_range.mp hj
  have hstack := stackAddress_inj.mp (Spot.memory.inj heq)
  have hoffset : UInt8.ofNat i = UInt8.ofNat j := by grind
  have := congrArg UInt8.toNat hoffset
  rwa [UInt8.toNat_ofNat_of_lt' (lt_of_lt_of_le hi' h),
    UInt8.toNat_ofNat_of_lt' (lt_of_lt_of_le hj' h)] at this

/-- **No two of the bytes that a caller hands over are one.** -/
theorem nodup_handedSpots (hl : Layout z b first base types)
    (henough : b.params.length ≤ args.length) (hsize : blockSize b args ≤ 256) (sp : UInt8) :
    (handedSpots z b args buffer sp).Nodup := by
  rw [handedSpots_eq hl henough]
  have hslots : ((handedSlots b buffer first base).map (slotSpot z)).Nodup :=
    nodup_slots (nodup_handedSlots hl) fun i hi =>
      lt_of_lt_of_le (handedSlots_lt hl i hi) z.argSlots.toNat_lt.le
  refine List.nodup_append.mpr ⟨?_, hslots, fun spot hspot other hother heq => ?_⟩
  · unfold pushedSpots
    unfold blockSize at hsize
    split
    · rename_i hv
      rw [if_pos hv] at hsize
      exact nodup_pushed sp hsize
    · exact List.nodup_nil
  · unfold pushedSpots at hspot
    split at hspot
    · obtain ⟨i, -, rfl⟩ := List.mem_map.mp hspot
      obtain ⟨j, -, rfl⟩ := List.mem_map.mp hother
      exact cell_ne_stack _ _ (Spot.memory.inj heq).symm
    · cases hspot

theorem visible_handedSpots (hl : Layout z b first base types)
    (henough : b.params.length ≤ args.length) (hapart : SlotsApart z) (sp : UInt8) :
    ∀ spot ∈ handedSpots z b args buffer sp, Visible z.pointerLo n spot := by
  intro spot hspot
  rw [handedSpots_eq hl henough] at hspot
  rcases List.mem_append.mp hspot with hspot | hspot
  · unfold pushedSpots at hspot
    split at hspot
    · exact visible_pushed spot hspot
    · cases hspot
  · obtain ⟨i, hi, rfl⟩ := List.mem_map.mp hspot
    exact visible_slot hapart (handedSlots_lt hl i hi)

end Layout

/-- What a caller hands over stands where its callee looks for it. -/
structure Delivered (c : Context) (k : Linkage) (b : Binding) (args : List Argument)
    (buffer : Option Place) (s t : Store) : Prop where
  arguments : ∀ pair ∈ args.zip b.params,
    (slotSpots c.convention.zeroPage pair.2.slot.toNat pair.2.type.size.toNat).map (get t) =
      readOf c k s pair.2.type.size.toNat pair.1.value
  buffer : ∀ slot place, b.resultSlot = some slot → buffer = some place →
    (slotSpots c.convention.zeroPage slot.toNat 2).map (get t) =
      bytesOfAddress (addressOf c k s place)
  block : b.variadic = true →
    (pushed s.regs.sp (Bodies.sizeOf (extra b args))).map (get t) =
        (blockBytes c k s (extra b args)).reverse ∧
      (pointerSpots c.convention.zeroPage b).map (get t) =
        [s.regs.sp - UInt8.ofNat (Bodies.sizeOf (extra b args)) + 1, 1,
          UInt8.ofNat (Bodies.sizeOf (extra b args))]

/-- Lists of bytes that have been put together are the same part by part. -/
theorem eq_of_flatMap_eq {α β γ : Type} {f : α → List β} {g : α → List γ} {read : β → γ} :
    ∀ {as : List α}, (as.flatMap f).map read = as.flatMap g →
      (∀ a ∈ as, (f a).length = (g a).length) → ∀ a ∈ as, (f a).map read = g a
  | [], _, _, a, ha => by cases ha
  | b :: as, h, hlength, a, ha => by
    rw [List.flatMap_cons, List.flatMap_cons, List.map_append] at h
    obtain ⟨hfirst, hrest⟩ := List.append_inj h
      (by rw [List.length_map]; exact hlength b (List.mem_cons_self ..))
    rcases List.mem_cons.mp ha with rfl | ha
    · exact hfirst
    · exact eq_of_flatMap_eq hrest (fun a ha => hlength a (List.mem_cons_of_mem _ ha)) a ha

section Delivering

variable {b : Binding} {first base : ℕ} {types : List ValueType} {args : List Argument}
  {buffer : Option Place}

/-- The bytes that are handed over have the values that they are given. -/
theorem map_handedSpots (hl : Layout c.convention.zeroPage b first base types)
    (henough : b.params.length ≤ args.length) (hapart : SlotsApart c.convention.zeroPage)
    (hsize : blockSize b args ≤ 256) (hlow : LowPlain s)
    (hsame : Same c.convention.zeroPage.pointerLo n
      (fill s (handedSpots c.convention.zeroPage b args buffer s.regs.sp)
        (handedBytes c k b args buffer s)) t) :
    (handedSpots c.convention.zeroPage b args buffer s.regs.sp).map (get t) =
      handedBytes c k b args buffer s :=
  map_get_of_fill (nodup_handedSpots hl henough hsize s.regs.sp) hsame (keeps_handed hlow _)
    (visible_handedSpots hl henough hapart _) (length_handedBytes _).symm

/-- **What has been handed over** is found where it has been put. -/
theorem delivered (hall : (handedSpots c.convention.zeroPage b args buffer s.regs.sp).map (get t) =
    handedBytes c k b args buffer s) : Delivered c k b args buffer s t := by
  unfold handedSpots handedBytes at hall
  rw [List.map_append, List.map_append] at hall
  obtain ⟨hblock, hrest⟩ := List.append_inj hall (by rw [List.length_map, length_blockGiven])
  obtain ⟨hbuffer, hargs⟩ := List.append_inj hrest (by rw [List.length_map, length_bufferGiven])
  refine ⟨eq_of_flatMap_eq hargs fun pair _ => by rw [length_slotSpots, length_readOf],
    fun slot place hslot hplace => ?_, fun hv => ?_⟩
  · simpa [bufferSpots, bufferGiven, hslot, hplace] using hbuffer
  · rw [blockSpots, if_pos hv, blockGiven, if_pos hv, List.map_append] at hblock
    exact List.append_inj hblock
      (by rw [List.length_map, length_pushed, List.length_reverse, length_blockBytes])

end Delivering

end Codegen6502.Proofs.Selecting.Incoming
