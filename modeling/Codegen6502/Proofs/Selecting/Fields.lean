import Codegen6502.Proofs.Platform.Packing
import Codegen6502.Proofs.Selecting.Displacement
import Codegen6502.Proofs.Selecting.Shifting

/-!
# Bit-fields in memory

A field is read by loading its byte, moving it down and cutting off what lies above it, and written
by putting its new bits between those of the byte that are kept.  `emits_extract` and
`emits_rewrite` say that the code does what `BitField.extract` and `BitField.insert` do.

The byte is the one that is found for the place displaced by the offset of the field (`fieldSpot`).
It is the byte that far above the place where the offset fits (`Fits`); then fields that lie one
behind the other do not disturb each other (`Stored.kept`).  Behind a pointer, byte 256 is byte 0
again (`far_field_aliased`).
-/

namespace Codegen6502.Proofs.Selecting.Fields

open Selection
open Platform.Packing
open Processor.Memory Processor.LineRun Processor.Straight Processor.Arithmetic Processor.Shifts
open Tracking Places Moves Growth Courses Reading Computing Operations Shifting Displacement

variable {c : Context} {k : Linkage} {s t u : Store} {st st' : State} {d d' : Draft} {f g : BitField}
  {loc : ByteLoc} {cell : UInt8} {n : ℕ} {byte value : UInt8} {place : Place}

/-! ### Bytes -/

/-- Moved down, a field at the end of its byte has nothing above it. -/
theorem shifted_and_mask (h : Inside f) (hend : 8 ≤ f.bitOffset.toNat + f.width.toNat) :
    byte >>> f.bitOffset = f.extract byte := by
  have hreach := h.reach
  have hwidth := h.width
  refine UInt8.toNat_inj.mp (Nat.eq_of_testBit_eq fun i => ?_)
  rw [testBit_extract h, toNat_shiftRight (by omega), Nat.testBit_shiftRight]
  by_cases hi : i < f.width.toNat
  · simp [hi]
  · simp [hi, testBit_of_le (show 8 ≤ f.bitOffset.toNat + i by omega)]

theorem shifted_and_maskInPlace (f : BitField) (value : UInt8) :
    (value <<< f.bitOffset) &&& f.maskInPlace = (value &&& f.mask) <<< f.bitOffset := by
  rw [BitField.maskInPlace, UInt8.shiftLeft_and]

/-! ### Code that works on A -/

/-- Only registers change, and A holds what `g` makes of it. -/
def Turns (g : Store → UInt8) (s t : Store) : Prop := t = s.setRegs t.regs ∧ t.regs.a = g s

theorem Turns.same {g : Store → UInt8} (h : Turns g s t) : Same cell n s t := by
  rw [h.1]
  exact Same.setRegs s _

theorem Turns.trans {g h i : Store → UInt8} (hg : Turns g s t) (hh : Turns h t u)
    (hi : t.regs.a = g s → h t = i s) : Turns i s u := by
  refine ⟨?_, hh.2.trans (hi hg.2)⟩
  rw [hh.1, hg.1]
  rfl

/-- A byte moved by bits. -/
def slid (left : Bool) (byte count : UInt8) : UInt8 := if left then byte <<< count else byte >>> count

theorem slid_of_isShift {left : Bool} {count a b : UInt8} (hcount : count.toNat < 8)
    (h : IsShift left false count.toNat [a] [b]) : b = slid left a count := by
  have hshifted := h.shifted
  refine UInt8.toNat_inj.mp ?_
  cases left with
  | true =>
    simp only [if_true, natural_one, List.length_singleton, pow_one] at hshifted
    rw [slid, if_pos rfl, UInt8.toNat_shiftLeft, Nat.mod_eq_of_lt hcount, Nat.shiftLeft_eq]
    exact hshifted
  | false =>
    simp only [Bool.false_eq_true, if_false, number_unsigned, natural_one] at hshifted
    rw [slid, if_neg (by simp), toNat_shiftRight hcount, Nat.shiftRight_eq_div_pow]
    exact_mod_cast hshifted

theorem emits_slide (left : Bool) {count : UInt8} (hcount : count.toNat < 8) {v : Unit}
    (h : times count.toNat (Selection.bare (if left then .asl else .lsr)) c st = .ok (v, st')) :
    Emits k 0 st.draft st'.draft (fun _ => True) (Turns fun s => slid left s.regs.a count) := by
  have hshift : times count.toNat (shiftA left false) c st = .ok (v, st') := h
  refine (emits_shiftsA (k := k) (by simp) hshift).imp le_rfl (fun _ hs => hs) ?_
  rintro s t - - ⟨r, rfl, hr⟩
  exact ⟨rfl, slid_of_isShift hcount hr⟩

theorem emits_and (d : Draft) (byte : UInt8) :
    Emits k 0 d (d.op .and (.byte byte)) (fun _ => True) (Turns fun s => s.regs.a &&& byte) := by
  have hand : Passes k 0 d (d.op .and (.byte byte)) (fun _ => True) _ := passes_alu d rfl rfl trivial
  refine hand.toEmits.imp le_rfl (fun _ hs => hs) ?_
  rintro s t - - rfl
  exact ⟨rfl, rfl⟩

theorem emits_ora (d : Draft) {operand : Operand} (h : IsSimple operand)
    (hwithin : Within anywhere operand) :
    Emits k 0 d (d.op .ora operand) (fun _ => True)
      (Turns fun s => s.regs.a ||| get s (operandSpot k operand)) := by
  have hora : Passes k 0 d (d.op .ora operand) (fun _ => True) _ :=
    passes_alu d rfl (isSome_encode_alu rfl h) hwithin
  refine hora.toEmits.imp le_rfl (fun _ hs => hs) ?_
  rintro s t - - rfl
  exact ⟨rfl, congrArg (s.regs.a ||| ·) (value_eq h)⟩

/-! ### Reading a field -/

/-- Moves the field in A down to bit 0. -/
def takeOut (f : BitField) : Lower Unit := do
  times f.bitOffset.toNat (Selection.bare .lsr)
  if f.bitOffset.toNat + f.width.toNat < 8 then Selection.op .and (.byte f.mask)

theorem emits_takeOut (h : Inside f) {v : Unit} (hout : takeOut f c st = .ok (v, st')) :
    Emits k 0 st.draft st'.draft (fun _ => True) (Turns fun s => f.extract s.regs.a) := by
  have hreach := h.reach
  have hwidth := h.width
  obtain ⟨_, st₁, hdown, hcut⟩ := bind_ok.mp hout
  have hslid := emits_slide (k := k) false (by omega) hdown
  split at hcut
  · have hand := emits_and (k := k) st₁.draft f.mask
    rw [← show st'.draft = st₁.draft.op .and (.byte f.mask) from modifyDraft_ok hcut] at hand
    refine (hslid.trans hand fun _ _ _ _ => trivial).imp le_rfl (fun _ hs => hs) ?_
    rintro s u - - ⟨t, ht, hu⟩
    exact ht.trans hu fun ha => congrArg (· &&& f.mask) ha
  · obtain ⟨-, rfl⟩ := pure_ok.mp hcut
    refine hslid.imp le_rfl (fun _ hs => hs) ?_
    rintro s t - - ⟨ht, ha⟩
    exact ⟨ht, ha.trans (shifted_and_mask h (by omega))⟩

/-- **Reading a field** leaves its value in a register. -/
theorem emits_extract (h : Inside f) (hloc : IsByte loc) {v : VReg} {u u' u'' : Unit} {st₁ st₂ : State}
    (hload : Selection.loadA loc c st = .ok (u, st₁)) (hout : takeOut f c st₁ = .ok (u', st₂))
    (hstore : Selection.storeA (.vreg v) c st₂ = .ok (u'', st')) :
    Emits k 0 st.draft st'.draft (fun s => Outside st.draft.pointerCell (spotOf k s loc)) fun s t =>
      Same st.draft.pointerCell everything (put s (.cell v) (f.extract (held k s loc))) t := by
  have hloaded := emits_loadA (k := k) st.draft hloc
  rw [← modifyDraft_ok hload] at hloaded
  have hkeep := (passes_keep (k := k) st₂.draft v).toEmits
  rw [show st₂.draft.op .sta (.virtual v) = st'.draft from Except.ok.inj (storeA_ok hstore)] at hkeep
  refine ((hloaded.trans (emits_takeOut h hout) fun _ _ _ _ => trivial).trans hkeep
    fun _ _ _ _ => trivial).imp le_rfl (fun _ hs => hs) ?_
  rintro s w - - ⟨u, ⟨t, ⟨hsame, ha⟩, hturns⟩, rfl⟩
  have hbyte : u.regs.a = f.extract (held k s loc) := hturns.2.trans (congrArg f.extract ha)
  rw [hbyte]
  exact (hsame.trans hturns.same).put (show Keeps s (.cell v) from trivial) _

/-! ### Writing a field -/

/-- A is combined with the byte's bits that are kept and those that are new. -/
def Merges (keep : UInt8) (new : Spot) : Store → Store → Prop :=
  Turns fun s => (s.regs.a &&& keep) ||| get s new

theorem emits_merge {keep : UInt8} {operand : Operand} (h : IsSimple operand)
    (hwithin : Within anywhere operand) {u u' : Unit} {st₁ : State}
    (hand : Selection.op .and (.byte keep) c st = .ok (u, st₁))
    (hora : Selection.op .ora operand c st₁ = .ok (u', st')) :
    Emits k 0 st.draft st'.draft (fun _ => True) (Merges keep (operandSpot k operand)) := by
  have hkept := emits_and (k := k) st.draft keep
  rw [← show st₁.draft = st.draft.op .and (.byte keep) from modifyDraft_ok hand] at hkept
  have hmerged := emits_ora (k := k) st₁.draft h hwithin
  rw [← show st'.draft = st₁.draft.op .ora operand from modifyDraft_ok hora] at hmerged
  refine (hkept.trans hmerged fun _ _ _ _ => trivial).imp le_rfl (fun _ hs => hs) ?_
  rintro s u - - ⟨t, ht, hu⟩
  refine ht.trans hu fun ha => ?_
  rw [ha, ht.1, get_setRegs]

/-- **A byte is written anew**: loaded, merged with new bits, and stored where it was. -/
theorem emits_rewrite {keep : UInt8} {new : Spot} (hnew : ∀ cell, Visible cell everything new)
    (hloc : IsMoved n loc) (hn : n ≤ st.draft.nextVReg.toNat)
    (hroom : st.draft.nextVReg.toNat + 1 < everything) {u v : Unit} {st₁ st₂ : State}
    (hload : Selection.loadA loc c st = .ok (u, st₁))
    (hmerge : Emits k 0 st₁.draft st₂.draft (fun _ => True) (Merges keep new))
    (hstore : Selection.storeA loc c st₂ = .ok (v, st')) :
    Emits k 1 st.draft st'.draft (fun s => Writable k st.draft.pointerCell s loc) fun s t =>
      Same st.draft.pointerCell n
        (put s (spotOf k s loc) ((held k s loc &&& keep) ||| get s new)) t := by
  have hloaded := emits_loadA (k := k) st.draft hloc.1
  rw [← modifyDraft_ok hload] at hloaded
  have hfront := hloaded.trans hmerge fun _ _ _ _ => trivial
  have hgrows := hfront.grows
  have hbounded := hfront.bounded
  have hstored := emits_storeA (k := k) hloc.1 (n := n) (by omega) (by omega) hloc.2 (storeA_ok hstore)
  rw [hfront.cell] at hstored
  have hsame : ∀ {s u}, (∃ t, (Same st.draft.pointerCell everything s t ∧
      t.regs.a = get s (spotOf k s loc)) ∧ Merges keep new t u) →
      Same st.draft.pointerCell everything s u ∧ spotOf k u loc = spotOf k s loc ∧
        u.regs.a = (held k s loc &&& keep) ||| get s new := by
    rintro s u ⟨t, ⟨ht, ha⟩, hturns⟩
    refine ⟨ht.trans hturns.same, (ht.trans hturns.same).spotOf (below_everything loc),
      hturns.2.trans ?_⟩
    change (t.regs.a &&& keep) ||| get t new = _
    rw [ha, ht.get new (hnew _)]
  refine (hfront.imp le_rfl (fun s (hs : Writable k st.draft.pointerCell s loc) => hs.1)
    fun _ _ _ _ ht => ht).trans hstored (fun s u hs hu => ?_) |>.imp le_rfl (fun _ hs => hs) ?_
  · obtain ⟨hu, hspot, -⟩ := hsame hu
    rw [hspot, hu.keeps]
    exact ⟨hs.2, hs.1⟩
  · rintro s w - hs ⟨u, hu, hw⟩
    obtain ⟨hu, hspot, ha⟩ := hsame hu
    rw [hspot, ha] at hw
    exact ((hu.mono (hn.trans st.draft.nextVReg.toNat_lt.le)).put hs.2 _).trans hw

/-- **The new bits of a field** are left in a register of their own. -/
theorem emits_newBits (h : Inside f) {src : ByteLoc} (hsrc : IsByte src) {v : VReg}
    {u₁ u₂ u₃ u₄ : Unit} {st₁ st₂ st₃ : State} (hload : Selection.loadA src c st = .ok (u₁, st₁))
    (hup : times f.bitOffset.toNat (Selection.bare .asl) c st₁ = .ok (u₂, st₂))
    (hand : Selection.op .and (.byte f.maskInPlace) c st₂ = .ok (u₃, st₃))
    (hstore : Selection.storeA (.vreg v) c st₃ = .ok (u₄, st')) :
    Emits k 0 st.draft st'.draft (fun s => Outside st.draft.pointerCell (spotOf k s src)) fun s t =>
      Same st.draft.pointerCell everything
        (put s (.cell v) ((held k s src &&& f.mask) <<< f.bitOffset)) t := by
  have hreach := h.reach
  have hwidth := h.width
  have hloaded := emits_loadA (k := k) st.draft hsrc
  rw [← modifyDraft_ok hload] at hloaded
  have hslid := emits_slide (k := k) true (by omega) hup
  have hcut := emits_and (k := k) st₂.draft f.maskInPlace
  rw [← show st₃.draft = st₂.draft.op .and (.byte f.maskInPlace) from modifyDraft_ok hand] at hcut
  have hkeep := (passes_keep (k := k) st₃.draft v).toEmits
  rw [show st₃.draft.op .sta (.virtual v) = st'.draft from Except.ok.inj (storeA_ok hstore)] at hkeep
  refine (((hloaded.trans hslid fun _ _ _ _ => trivial).trans hcut fun _ _ _ _ => trivial).trans hkeep
    fun _ _ _ _ => trivial).imp le_rfl (fun _ hs => hs) ?_
  rintro s x - - ⟨w, ⟨u, ⟨t, ⟨hsame, ha⟩, hu⟩, hw⟩, rfl⟩
  have hbits : w.regs.a = (held k s src &&& f.mask) <<< f.bitOffset := by
    have hslide : u.regs.a = held k s src <<< f.bitOffset :=
      hu.2.trans (congrArg (slid true · f.bitOffset) ha)
    exact (hw.2.trans (congrArg (· &&& f.maskInPlace) hslide)).trans (shifted_and_maskInPlace f _)
  rw [hbits]
  exact ((hsame.trans hu.same).trans hw.same).put (show Keeps s (.cell v) from trivial) _

/-- Gives a register the new bits of a field. -/
def newBits (value : Value) (f : BitField) : Lower VReg := do
  match ← operandBytes value .u8 with
  | v :: _ =>
    let shifted ← Selection.newVReg
    Selection.loadA v
    times f.bitOffset.toNat (Selection.bare .asl)
    Selection.op .and (.byte f.maskInPlace)
    Selection.storeA (.vreg shifted)
    return shifted
  | [] => internal "value without bytes"

/-- Writes a value to the field of a byte. -/
def putIn (value : Value) (loc : ByteLoc) (f : BitField) : Lower Unit := do
  match value.constant? with
  | some c =>
    checkConstant c .u8
    let bits := (constByte c 0 &&& f.mask) <<< f.bitOffset
    Selection.loadA loc
    Selection.op .and (.byte (~~~f.maskInPlace))
    if bits ≠ 0 then Selection.op .ora (.byte bits)
    Selection.storeA loc
  | none =>
    let shifted ← newBits value f
    Selection.loadA loc
    Selection.op .and (.byte (~~~f.maskInPlace))
    Selection.op .ora (.virtual shifted)
    Selection.storeA loc

theorem lowerStoreField_eq (node : Node) (value : Value) (dest : Place) (f : BitField) :
    lowerStoreField node value dest f = (do
      checkField node f
      commitOnly do putIn value (← placeLoc (dest.displaced f.byteOffset)) f) := by
  unfold lowerStoreField putIn newBits
  refine congrArg _ (funext fun _ => congrArg _ (congrArg _ (funext fun loc => ?_)))
  rcases value.constant? with _ | constant
  · simp only [bind_assoc]
    refine congrArg _ (funext fun locs => ?_)
    split
    · simp only [bind_assoc, pure_bind]
    · rfl
  · rfl

theorem lowerLoadField_eq (node : Node) (result : Temp) (src : Place) (f : BitField) :
    lowerLoadField node result src f = (do
      checkField node f
      commitOnly do
        let loc ← placeLoc (src.displaced f.byteOffset)
        match ← destination result with
        | dst :: _ =>
          Selection.loadA loc
          takeOut f
          Selection.storeA dst
        | [] => internal "temporary without registers") := by
  unfold lowerLoadField takeOut
  refine congrArg _ (funext fun _ => congrArg _ (congrArg _ (funext fun loc =>
    congrArg _ (funext fun dsts => ?_))))
  split
  · simp only [bind_assoc]
    refine congrArg _ (funext fun _ => congrArg _ (funext fun _ => ?_))
    split <;> simp only [pure_bind]
  · rfl

section Writing

variable (hst : Settled c st.draft)
include hst

/-- **The new bits of an operand** are left in a register of their own. -/
theorem emits_operandBits (h : Inside f) {value : Value} {v : VReg}
    (hbits : newBits value f c st = .ok (v, st')) :
    Emits k 4 st.draft st'.draft (fun s => Readable c k st.draft.pointerCell s 1 value) fun s t =>
      Same st.draft.pointerCell st.draft.nextVReg.toNat s t ∧
        t.cells v = (lowOf c k s value &&& f.mask) <<< f.bitOffset := by
  have hroom := hst.room
  have hone : ValueType.u8.size.toNat = 1 := rfl
  obtain ⟨locs, st₁, hlocs, hrest⟩ := bind_ok.mp hbits
  obtain ⟨hsupplied, -⟩ := supplied_operandBytes (k := k) hlocs hst.pointed hst.tracks (by omega)
  obtain ⟨src, rfl⟩ := List.length_eq_one_iff.mp hsupplied.length
  obtain ⟨_, st₂, hnew, hrest⟩ := bind_ok.mp hrest
  obtain ⟨_, st₃, hload, hrest⟩ := bind_ok.mp hrest
  obtain ⟨_, st₄, hup, hrest⟩ := bind_ok.mp hrest
  obtain ⟨_, st₅, hand, hrest⟩ := bind_ok.mp hrest
  obtain ⟨_, st₆, hkeep, hpure⟩ := bind_ok.mp hrest
  obtain ⟨rfl, rfl⟩ := pure_ok.mp hpure
  obtain ⟨rfl, hdraft⟩ := newVReg_ok hnew
  have hgrows := hsupplied.passes.grows
  have hbounded := hsupplied.passes.bounded
  have hfresh := emits_newVReg (k := k) (d := st₁.draft) (by omega)
  rw [← hdraft] at hfresh
  have hshifted := emits_newBits (k := k) h (hsupplied.moved src (by simp)).1 hload hup hand hkeep
  rw [hfresh.cell, hsupplied.passes.cell] at hshifted
  refine ((hsupplied.passes.toEmits.trans hfresh fun _ _ _ _ => trivial).trans hshifted ?_).imp
    le_rfl (fun _ hs => hs) ?_
  · rintro s t - ⟨u, hu, rfl⟩
    exact hu.2.outside src (by simp)
  · rintro s w - - ⟨t, ⟨u, ⟨hu, hpresents⟩, rfl⟩, hw⟩
    have hbyte : [held k t src] = [lowOf c k s value] := by
      rw [← readOf_low]
      exact hpresents.map_eq
    rw [(List.cons.inj hbyte).1] at hw
    have hkeeps : Keeps t (.cell st₁.draft.newVReg.1) := trivial
    have hhidden : ¬ Visible st.draft.pointerCell st.draft.nextVReg.toNat
        (.cell st₁.draft.newVReg.1) := Nat.not_lt.mpr hgrows
    refine ⟨(hu.trans (Same.put_hidden hkeeps hhidden _)).trans
      (hw.mono st.draft.nextVReg.toNat_lt.le), ?_⟩
    have hcell := hw.get (.cell st₁.draft.newVReg.1) st₁.draft.newVReg.1.index.toNat_lt
    rw [Processor.Straight.get_put hkeeps, if_pos rfl] at hcell
    exact hcell

variable (hloc : IsMoved st.draft.nextVReg.toNat loc)
include hloc

theorem emits_putConstant {value : Int64} {u : Unit}
    (hput : putIn (.constant value) loc f c st = .ok (u, st')) :
    Emits k 1 st.draft st'.draft (fun s => Writable k st.draft.pointerCell s loc) fun s t =>
      Same st.draft.pointerCell st.draft.nextVReg.toNat
        (put s (spotOf k s loc) (f.insert (held k s loc) (lowOf c k s (.constant value)))) t := by
  have hroom := hst.room
  obtain ⟨_, st₁, hcheck, hrest⟩ := bind_ok.mp hput
  obtain ⟨rfl, -⟩ := checkConstant_ok hcheck
  obtain ⟨_, st₂, hload, hrest⟩ := bind_ok.mp hrest
  obtain ⟨_, st₃, hand, hrest⟩ := bind_ok.mp hrest
  obtain ⟨_, st₄, hmerge, hstore⟩ : ∃ u st₄,
      (if (constByte value 0 &&& f.mask) <<< f.bitOffset ≠ 0 then
        Selection.op .ora (.byte ((constByte value 0 &&& f.mask) <<< f.bitOffset)) else pure ()) c st₃ =
        .ok (u, st₄) ∧ Selection.storeA loc c st₄ = .ok ((), st') := by
    by_cases hbits : (constByte value 0 &&& f.mask) <<< f.bitOffset ≠ 0
    · rw [if_pos hbits] at hrest ⊢
      exact bind_ok.mp hrest
    · rw [if_neg hbits] at hrest ⊢
      exact bind_ok.mp hrest
  have hemits : Emits k 0 st₂.draft st₄.draft (fun _ => True)
      (Merges (~~~f.maskInPlace) (.constant ((constByte value 0 &&& f.mask) <<< f.bitOffset))) := by
    split at hmerge
    · exact emits_merge (show IsSimple (.byte _) from trivial) trivial hand hmerge
    · -- Nothing is left of the value, so there is nothing to be merged.
      rename_i hzero
      obtain ⟨-, rfl⟩ := pure_ok.mp hmerge
      have hkept := emits_and (k := k) st₂.draft (~~~f.maskInPlace)
      rw [← show st₄.draft = _ from modifyDraft_ok hand] at hkept
      refine hkept.imp le_rfl (fun _ hs => hs) fun s t _ _ ht => ⟨ht.1, ht.2.trans ?_⟩
      rw [not_not.mp hzero]
      exact UInt8.or_zero.symm
  have hnew (cell : UInt8) :
      Visible cell everything (.constant ((constByte value 0 &&& f.mask) <<< f.bitOffset)) := trivial
  exact emits_rewrite hnew hloc le_rfl (by omega) hload hemits hstore

theorem emits_putOperand (h : Inside f) {value : Value} (hvalue : value.constant? = none) {u : Unit}
    (hput : putIn value loc f c st = .ok (u, st')) :
    Emits k 5 st.draft st'.draft (fun s => Readable c k st.draft.pointerCell s 1 value ∧
        Writable k st.draft.pointerCell s loc) fun s t =>
      Same st.draft.pointerCell st.draft.nextVReg.toNat
        (put s (spotOf k s loc) (f.insert (held k s loc) (lowOf c k s value))) t := by
  have hroom := hst.room
  unfold putIn at hput
  simp only [hvalue] at hput
  obtain ⟨v, st₁, hbits, hrest⟩ := bind_ok.mp hput
  obtain ⟨_, st₂, hload, hrest⟩ := bind_ok.mp hrest
  obtain ⟨_, st₃, hand, hrest⟩ := bind_ok.mp hrest
  obtain ⟨_, st₄, hora, hstore⟩ := bind_ok.mp hrest
  have hfront := emits_operandBits (k := k) hst h hbits
  have hgrows := hfront.grows
  have hbounded := hfront.bounded
  have hnew : ∀ cell, Visible cell everything (.cell v) := fun _ => v.index.toNat_lt
  have hmerge : Emits k 0 st₂.draft st₄.draft (fun _ => True) (Merges (~~~f.maskInPlace) (.cell v)) :=
    emits_merge (show IsSimple (.virtual v) from trivial) trivial hand hora
  have hrewrite := emits_rewrite hnew hloc hgrows (by omega) hload hmerge hstore
  rw [hfront.cell] at hrewrite
  -- The register is new, so the byte of the field is where it was and what it was.
  refine (hfront.imp le_rfl (fun s (hs : Readable c k st.draft.pointerCell s 1 value ∧
    Writable k st.draft.pointerCell s loc) => hs.1) fun _ _ _ _ ht => ht).trans hrewrite
    (fun s t hs ht => ?_) |>.imp le_rfl (fun _ hs => hs) ?_
  · change Outside _ (spotOf k t loc) ∧ Keeps t (spotOf k t loc)
    rw [ht.1.spotOf hloc.2, ht.1.keeps]
    exact hs.2
  · rintro s w - hs ⟨t, ⟨hsame, hcell⟩, hw⟩
    have hspot := hsame.spotOf (k := k) hloc.2
    have hheld : held k t loc = held k s loc := by
      rw [held, hspot, hsame.get _ (visible_of_clear hloc hs.2.1)]
    rw [hheld, hspot, show get t (.cell v) = t.cells v from rfl, hcell] at hw
    exact (hsame.put hs.2.2 _).trans hw

/-- **Writing a field** puts the low byte of the value in it. -/
theorem emits_putIn (h : Inside f) {value : Value} {u : Unit}
    (hput : putIn value loc f c st = .ok (u, st')) :
    Emits k 5 st.draft st'.draft (fun s => Readable c k st.draft.pointerCell s 1 value ∧
        Writable k st.draft.pointerCell s loc) fun s t =>
      Same st.draft.pointerCell st.draft.nextVReg.toNat
        (put s (spotOf k s loc) (f.insert (held k s loc) (lowOf c k s value))) t := by
  cases value with
  | constant value =>
    exact (emits_putConstant hst hloc hput).imp (by decide) (fun _ hs => hs.2) fun _ _ _ _ ht => ht
  | _ => exact emits_putOperand hst hloc h rfl hput

end Writing

/-! ### Fields of a place -/

/-- The byte of a field, as it is found. -/
def fieldSpot (c : Context) (k : Linkage) (s : Store) (place : Place) (f : BitField) : Spot :=
  found c k s place f.byteOffset.toNat

/-- What a field of a place reads. -/
def fieldOf (c : Context) (k : Linkage) (s : Store) (place : Place) (f : BitField) : UInt8 :=
  f.extract (get s (fieldSpot c k s place f))

theorem fieldSpot_cases : (∃ a, fieldSpot c k s place f = .memory a) ∨
    ∃ o, fieldSpot c k s place f = .frame o := by
  cases place <;> first | exact Or.inl ⟨_, rfl⟩ | exact Or.inr ⟨_, rfl⟩

theorem visible_fieldSpot (h : Outside cell (fieldSpot c k s place f)) :
    Visible cell n (fieldSpot c k s place f) := visible_found h

theorem fieldSpot_eq (h : Locates c n (place.displaced f.byteOffset) loc) :
    spotOf k s loc = fieldSpot c k s place f := by
  rw [← UInt16.ofNat_toNat (x := f.byteOffset)] at h
  exact spotOf_located h

/-- A place whose displaced place is found has an address. -/
theorem addressed_of_displaced {delta : UInt16} (h : Locates c n (place.displaced delta) loc)
    (channel : UInt8) (field : IocbField) (hplace : place = .iocb channel field) :
    (field.address? channel).isSome := by
  subst hplace
  cases haddress : field.address? channel with
  | some address => rfl
  | none =>
    have hsome := h.addressed channel field (by simp [Place.displaced, haddress])
    rwa [haddress] at hsome

/-- **The byte of a field** is the byte that far above the place exactly if the offset fits. -/
theorem fieldSpot_above_iff (h : Locates c n (place.displaced f.byteOffset) loc) :
    Above f.byteOffset.toNat (start c k s place) (fieldSpot c k s place f) ↔
      Fits f.byteOffset.toNat place :=
  above_found_iff (addressed_of_displaced h) _

theorem above_inj {p q : Spot} {i j : ℕ} (h : Above i p q) (h' : Above j p q) (hi : i < 2 ^ 16)
    (hj : j < 2 ^ 16) : i = j := by
  cases p <;> cases q <;> try exact h.elim
  · rename_i o o'
    have h₁ : o'.toNat = o.toNat + i := h
    have h₂ : o'.toNat = o.toNat + j := h'
    omega
  · rename_i a a'
    have h₁ : a' = a + UInt16.ofNat i := h
    have h₂ : a' = a + UInt16.ofNat j := h'
    have heq := congrArg UInt16.toNat ((UInt16.add_right_inj a).mp (h₁.symm.trans h₂))
    rwa [UInt16.toNat_ofNat', UInt16.toNat_ofNat', Nat.mod_eq_of_lt hi, Nat.mod_eq_of_lt hj] at heq

/-- Fields of different bytes are found in different bytes if their offsets fit. -/
theorem fieldSpot_ne (haddressed : ∀ channel field, place = .iocb channel field →
    (field.address? channel).isSome) (hf : Fits f.byteOffset.toNat place)
    (hg : Fits g.byteOffset.toNat place) (hne : f.byteOffset ≠ g.byteOffset) :
    fieldSpot c k s place f ≠ fieldSpot c k s place g := by
  intro heq
  have hf' := (above_found_iff (c := c) (k := k) (s := s) haddressed _).mpr hf
  have hg' := (above_found_iff (c := c) (k := k) (s := s) haddressed _).mpr hg
  rw [show found c k s place g.byteOffset.toNat = found c k s place f.byteOffset.toNat from heq.symm]
    at hg'
  exact hne (UInt16.toNat_inj.mp (above_inj hf' hg' f.byteOffset.toNat_lt g.byteOffset.toNat_lt))

/-- The byte of a field has the value put in it, and nothing else in use has changed. -/
structure Stored (c : Context) (k : Linkage) (place : Place) (f : BitField) (value cell : UInt8) (n : ℕ)
    (s t : Store) : Prop where
  holds : get t (fieldSpot c k s place f) = f.insert (get s (fieldSpot c k s place f)) value
  others : ∀ spot, Visible cell n spot → spot ≠ fieldSpot c k s place f → get t spot = get s spot

section Stored

variable (hp : Pointed c n) (hstored : Stored c k place f value cell n s t)
include hp hstored

/-- The place is where it was. -/
theorem Stored.spot_eq (g : BitField) : fieldSpot c k t place g = fieldSpot c k s place g := by
  refine found_congr (n := n) (fun v hv => hstored.others (.cell v) hv fun heq => ?_) hp place _
  have hcases : (∃ a, fieldSpot c k s place f = .memory a) ∨ ∃ o, fieldSpot c k s place f = .frame o :=
    fieldSpot_cases
  rcases hcases with ⟨a, ha⟩ | ⟨o, ho⟩
  · rw [ha] at heq
    cases heq
  · rw [ho] at heq
    cases heq

/-- **A field that is stored reads back as the value cut to its width.** -/
theorem Stored.reads_back (h : Inside f) :
    (fieldOf c k t place f).toNat = value.toNat % 2 ^ f.width.toNat := by
  rw [fieldOf, hstored.spot_eq hp, hstored.holds]
  exact extract_insert h _ _

/-- **A field in front of or behind the one that is stored reads as before**, where the offsets
fit. -/
theorem Stored.kept (haddressed : ∀ channel field, place = .iocb channel field →
    (field.address? channel).isSome) (hf : Inside f) (hg : Inside g)
    (hfits : Fits f.byteOffset.toNat place) (hfits' : Fits g.byteOffset.toNat place)
    (horder : Before f g ∨ Before g f) (hout : Outside cell (fieldSpot c k s place g)) :
    fieldOf c k t place g = fieldOf c k s place g := by
  rw [fieldOf, fieldOf, hstored.spot_eq hp]
  by_cases hbyte : f.byteOffset = g.byteOffset
  · have hspot : fieldSpot c k s place g = fieldSpot c k s place f := by
      rw [fieldSpot, fieldSpot, hbyte]
    rw [hspot, hstored.holds]
    exact extract_insert_apart hf hg
      (horder.imp (fun h => h.apart hbyte) fun h => h.apart hbyte.symm) _ _
  · have hne := (fieldSpot_ne (c := c) (k := k) (s := s) haddressed hfits hfits' hbyte).symm
    rw [hstored.others _ (visible_fieldSpot hout) hne]

end Stored

/-! ### The nodes -/

theorem checkField_ok {node : Node} {u : Unit} (h : checkField node f c st = .ok (u, st')) :
    Inside f ∧ st' = st := by
  unfold checkField at h
  split at h
  · cases h
  · rename_i hfield
    simp only [Bool.or_eq_true, decide_eq_true_eq, not_or] at hfield
    obtain ⟨-, rfl⟩ := pure_ok.mp h
    exact ⟨⟨Nat.pos_of_ne_zero fun hzero => hfield.1 (UInt8.toNat_inj.mp hzero), by omega⟩, rfl⟩

variable {result : Temp} {node : Node} {next : Option Node} {taken : Bool}

theorem lowerNode_loadField (hst : Prepared c st) (hnode : .loadField result place f ∈ c.function.body)
    (h : lowerNode (.loadField result place f) next c st = .ok (taken, st')) :
    Inside f ∧ ∃ loc d v, Locates c st.draft.nextVReg.toNat (place.displaced f.byteOffset) loc ∧
      st'.draft = st.draft.commit d ∧ registersOf c result = [v] ∧
      v.index.toNat < st.draft.nextVReg.toNat ∧
      ∀ k, Emits k 0 st.draft.fork d (fun s => Outside st.draft.pointerCell (fieldSpot c k s place f))
        fun s t => Same st.draft.pointerCell everything (put s (.cell v) (fieldOf c k s place f)) t := by
  obtain ⟨_, st₁, hlower, hpure⟩ := bind_ok.mp h
  obtain ⟨-, rfl⟩ := pure_ok.mp hpure
  rw [lowerLoadField_eq] at hlower
  obtain ⟨_, st₂, hcheck, hcommit⟩ := bind_ok.mp hlower
  obtain ⟨hinside, rfl⟩ := checkField_ok hcheck
  obtain ⟨st₃, hbuild, hdraft⟩ := commitOnly_ok hcommit
  obtain ⟨loc, st₄, hloc, hrest⟩ := bind_ok.mp hbuild
  obtain ⟨rfl, hlocates⟩ := placeLoc_spec hst.facts.2.1 hloc
  obtain ⟨dsts, st₅, hdsts, hrest⟩ := bind_ok.mp hrest
  obtain ⟨rfl, rfl⟩ := destination_ok hdsts
  have hhoused := housed_of_prepared hst hnode rfl
  obtain ⟨v, hv⟩ := List.length_eq_one_iff.mp (hhoused.length.trans (by rfl))
  rw [hv] at hrest
  obtain ⟨_, st₆, hload, hrest⟩ := bind_ok.mp hrest
  obtain ⟨_, st₇, hout, hstore⟩ := bind_ok.mp hrest
  refine ⟨hinside, loc, st₃.draft, v, hlocates, hdraft, hv, hhoused.below v (by simp [hv]), fun k => ?_⟩
  refine (emits_extract (k := k) hinside hlocates.isByte hload hout hstore).imp le_rfl
    (fun s hs => ?_) fun s t _ _ ht => ?_
  · rw [fieldSpot_eq hlocates]
    exact hs
  · rw [held, fieldSpot_eq hlocates] at ht
    exact ht

theorem lowerNode_storeField {value : Value} (hst : Prepared c st) (htracks : TracksA st.draft)
    (hroom : st.draft.nextVReg.toNat + 16 < 2 ^ 32)
    (h : lowerNode (.storeField value place f) next c st = .ok (taken, st')) :
    Inside f ∧ ∃ loc d, Locates c st.draft.nextVReg.toNat (place.displaced f.byteOffset) loc ∧
      st'.draft = st.draft.commit d ∧
      ∀ k, Emits k 5 st.draft.fork d (fun s => Readable c k st.draft.pointerCell s 1 value ∧
          Outside st.draft.pointerCell (fieldSpot c k s place f) ∧ Keeps s (fieldSpot c k s place f))
        fun s t => Stored c k place f (lowOf c k s value) st.draft.pointerCell
          st.draft.nextVReg.toNat s t := by
  obtain ⟨_, st₁, hlower, hpure⟩ := bind_ok.mp h
  obtain ⟨-, rfl⟩ := pure_ok.mp hpure
  rw [lowerStoreField_eq] at hlower
  obtain ⟨_, st₂, hcheck, hcommit⟩ := bind_ok.mp hlower
  obtain ⟨hinside, rfl⟩ := checkField_ok hcheck
  obtain ⟨st₃, hbuild, hdraft⟩ := commitOnly_ok hcommit
  obtain ⟨loc, st₄, hloc, hput⟩ := bind_ok.mp hbuild
  obtain ⟨rfl, hlocates⟩ := placeLoc_spec hst.facts.2.1 hloc
  have hsettled : Settled c st₂.draft := ⟨hst.facts.2.1, htracks, hroom⟩
  refine ⟨hinside, loc, st₃.draft, hlocates, hdraft, fun k => ?_⟩
  have hforked : Settled c ({ st₂ with draft := st₂.draft.fork } : State).draft := hsettled.fork
  refine (emits_putIn (k := k) hforked ⟨hlocates.isByte, hlocates.below⟩ hinside hput).imp le_rfl
    (fun s hs => ?_) fun s t _ hs ht => ?_
  · rw [Writable, fieldSpot_eq hlocates]
    exact hs
  · rw [held, fieldSpot_eq hlocates] at ht
    refine ⟨?_, fun spot hvisible hne => ?_⟩
    · rw [ht.get _ (visible_fieldSpot hs.2.1), Processor.Straight.get_put hs.2.2, if_pos rfl]
    · rw [ht.get spot hvisible, Processor.Straight.get_put hs.2.2, if_neg hne.symm]

/-- **Fields are accessed as they are told, in the byte that is found for them.**  A node that is
accepted has a field inside its byte.  Reading leaves in the result what `BitField.extract` makes of
the byte, and writing leaves the byte as `BitField.insert` makes it of what was there and the low
byte of the value; nothing else in use changes.  The byte is the one that far above the place
exactly if its offset fits.

The fields of a layout lie inside their bytes, one behind the other.  One that is written reads back
as the value cut to its width, and where the offsets fit every other one reads as before. -/
theorem fields_accessed (hst : Prepared c st) (htracks : TracksA st.draft)
    (hroom : st.draft.nextVReg.toNat + 16 < 2 ^ 32) (hnode : node ∈ c.function.body)
    (h : lowerNode node next c st = .ok (taken, st')) :
    (∀ result place f, node = .loadField result place f → Inside f ∧
      ∃ d v, st'.draft = st.draft.commit d ∧ registersOf c result = [v] ∧
      ∀ (e : Environment) (calls : Std.TreeMap ℕ CallTarget) (front back : List Line) (x : Config),
        x.line = front.length → Ready e.linkage st.draft x.store →
        Outside st.draft.pointerCell (fieldSpot c e.linkage x.store place f) →
        (∃ y, run e (front ++ d.code ++ back) calls d.code.length x = some y ∧
          y.line = front.length + d.code.length ∧
          Computed [.cell v] [] [fieldOf c e.linkage x.store place f] st.draft.pointerCell
            st.draft.nextVReg.toNat x.store y.store) ∧
        (Above f.byteOffset.toNat (start c e.linkage x.store place)
          (fieldSpot c e.linkage x.store place f) ↔ Fits f.byteOffset.toNat place)) ∧
    (∀ value place f, node = .storeField value place f → Inside f ∧
      ∃ d, st'.draft = st.draft.commit d ∧
      ∀ (e : Environment) (calls : Std.TreeMap ℕ CallTarget) (front back : List Line) (x : Config),
        x.line = front.length → Ready e.linkage st.draft x.store →
        Readable c e.linkage st.draft.pointerCell x.store 1 value →
        Outside st.draft.pointerCell (fieldSpot c e.linkage x.store place f) →
        Keeps x.store (fieldSpot c e.linkage x.store place f) →
        (∃ y, run e (front ++ d.code ++ back) calls d.code.length x = some y ∧
          y.line = front.length + d.code.length ∧
          Stored c e.linkage place f (lowOf c e.linkage x.store value) st.draft.pointerCell
            st.draft.nextVReg.toNat x.store y.store ∧
          ∀ widths fields, BitField.layout widths = .ok fields → f ∈ fields →
            (fieldOf c e.linkage y.store place f).toNat =
              (lowOf c e.linkage x.store value).toNat % 2 ^ f.width.toNat ∧
            ∀ g ∈ fields, g ≠ f → Fits f.byteOffset.toNat place → Fits g.byteOffset.toNat place →
              Outside st.draft.pointerCell (fieldSpot c e.linkage x.store place g) →
              fieldOf c e.linkage y.store place g = fieldOf c e.linkage x.store place g) ∧
        (Above f.byteOffset.toNat (start c e.linkage x.store place)
          (fieldSpot c e.linkage x.store place f) ↔ Fits f.byteOffset.toNat place)) ∧
    ∀ widths fields, BitField.layout widths = .ok fields →
      fields.map BitField.width = widths.filter (· ≠ 0) ∧ (∀ f ∈ fields, Inside f) ∧
        fields.Pairwise Before := by
  refine ⟨?_, ?_, fun widths fields => packed_layout⟩
  · rintro result place f rfl
    obtain ⟨hinside, loc, d, v, hlocates, hdraft, hv, hbelow, hemits⟩ := lowerNode_loadField hst hnode h
    refine ⟨hinside, d, v, hdraft, hv, fun e calls front back x hx hs hout =>
      ⟨?_, fieldSpot_above_iff hlocates⟩⟩
    obtain ⟨y, hrun, hline, hsame⟩ := (hemits e.linkage).run calls hx hs hout
    refine ⟨y, hrun, hline, computed_fill (List.nodup_singleton _) ?_ ?_ rfl
      (hsame.mono st.draft.nextVReg.toNat_lt.le)⟩
    · exact fun spot hspot => List.mem_singleton.mp hspot ▸ trivial
    · exact fun spot hspot => List.mem_singleton.mp hspot ▸ hbelow
  · rintro value place f rfl
    obtain ⟨hinside, loc, d, hlocates, hdraft, hemits⟩ := lowerNode_storeField hst htracks hroom h
    refine ⟨hinside, d, hdraft, fun e calls front back x hx hs hreadable hout hkeeps =>
      ⟨?_, fieldSpot_above_iff hlocates⟩⟩
    obtain ⟨y, hrun, hline, hstored⟩ :=
      (hemits e.linkage).run calls hx hs ⟨hreadable, hout, hkeeps⟩
    refine ⟨y, hrun, hline, hstored, fun widths fields hlayout hf =>
      ⟨hstored.reads_back hst.facts.2.1 hinside, fun g hg hne hfits hfits' hout' => ?_⟩⟩
    obtain ⟨-, hfields, hordered⟩ := packed_layout hlayout
    have horder := before_or_of_mem hordered hf hg hne.symm
    exact hstored.kept hst.facts.2.1 (addressed_of_displaced hlocates) hinside (hfields g hg) hfits hfits'
      horder hout'

/-! #### A field in byte 256 behind a pointer -/

/-- The first byte of a storage unit, as a field. -/
def nearField : BitField := ⟨0, 0, 8⟩

/-- Byte 256 of a storage unit, as a field. -/
def farField : BitField := ⟨256, 0, 8⟩

/-- Puts 7 in the far field behind a pointer. -/
def farPut : Node := .storeField (.constant 7) (.indirect 0 0) farField

theorem layout_far : ∃ fields, BitField.layout (List.replicate 257 8) = .ok fields ∧
    nearField ∈ fields ∧ farField ∈ fields := by
  refine ⟨(List.range 257).map fun i => ⟨UInt16.ofNat i, 0, 8⟩, by decide +kernel, ?_, ?_⟩
  · exact List.mem_map.mpr ⟨0, by simp, rfl⟩
  · exact List.mem_map.mpr ⟨256, by simp, rfl⟩

/-- **Putting 7 in the far field puts it in the near one**, though both are fields of one layout:
the byte of the far field, at `$3100`, is left as it was. -/
theorem far_field_aliased : (∃ fields, BitField.layout (List.replicate 257 8) = .ok fields ∧
      nearField ∈ fields ∧ farField ∈ fields) ∧
    ∃ st' d, lowerNode farPut none (farContext [farPut]) followState = .ok (false, st') ∧
      st'.draft = followState.draft.commit d ∧
    ∀ (e : Environment) (calls : Std.TreeMap ℕ CallTarget), e.linkage = plainLinkage →
      ∃ y, run e d.code calls d.code.length { line := 0, store := farStore } = some y ∧
        fieldOf (farContext [farPut]) plainLinkage farStore (.indirect 0 0) nearField = 0 ∧
        fieldOf (farContext [farPut]) plainLinkage y.store (.indirect 0 0) nearField = 7 ∧
        y.store.machine.bus.read 0x3100 = 5 := by
  obtain ⟨st', hok⟩ : ∃ st', lowerNode farPut none (farContext [farPut]) followState = .ok (false, st') :=
    ⟨_, rfl⟩
  have hprepared : Prepared (farContext [farPut]) followState := by
    refine ⟨⟨⟨(farContext [farPut]).temps, 2⟩, rfl, rfl, by decide⟩, fun v hv => ?_, by decide, by decide⟩
    cases hv
  obtain ⟨-, hput, -⟩ := fields_accessed hprepared (fun _ h => (List.not_mem_nil h).elim) (by decide)
    (List.mem_cons_of_mem _ (List.mem_singleton.mpr rfl)) hok
  obtain ⟨-, d, hdraft, hall⟩ := hput _ _ _ rfl
  refine ⟨layout_far, st', d, hok, hdraft, fun e calls he => ?_⟩
  have hspot : ∀ g, g = nearField ∨ g = farField →
      fieldSpot (farContext [farPut]) plainLinkage farStore (.indirect 0 0) g = .memory 0x3000 := by
    rintro g (rfl | rfl) <;> rfl
  have hout : Outside followState.draft.pointerCell (.memory 0x3000) := by
    rintro a ha
    obtain rfl := Spot.memory.inj ha
    decide
  have hready : Ready e.linkage followState.draft farStore :=
    ⟨knows_nothing, plain_farStore (by decide), plain_farStore (by decide)⟩
  obtain ⟨⟨y, hrun, -, hstored, -⟩, -⟩ := hall e calls [] [] { line := 0, store := farStore } rfl hready
    (fun place hplace => by cases hplace) (by rw [he, hspot _ (.inr rfl)]; exact hout)
    (by rw [he, hspot _ (.inr rfl)]; exact plain_farStore (by decide))
  rw [List.nil_append, List.append_nil] at hrun
  rw [he] at hstored
  refine ⟨y, hrun, ?_, ?_, ?_⟩
  · rw [fieldOf, hspot _ (.inl rfl)]
    change nearField.extract (farStore.machine.bus.read 0x3000) = 0
    rw [read_farStore]
    decide
  · rw [fieldOf, hstored.spot_eq hprepared.facts.2.1, hspot _ (.inl rfl), ← hspot farField (.inr rfl),
      hstored.holds, hspot farField (.inr rfl)]
    change nearField.extract (farField.insert (farStore.machine.bus.read 0x3000) 7) = 7
    rw [read_farStore]
    decide
  · have hread := hstored.others (.memory 0x3100) (by change ¬ IsScratch _ _; decide) (by
      rw [hspot _ (.inr rfl)]; decide)
    refine hread.trans ?_
    change farStore.machine.bus.read 0x3100 = 5
    rw [read_farStore]
    rfl

end Codegen6502.Proofs.Selecting.Fields
