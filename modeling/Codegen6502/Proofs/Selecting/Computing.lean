import Codegen6502.Proofs.Processor.Chains
import Codegen6502.Proofs.Selecting.Deciding

/-!
# Code that computes

What the lines of an operation do to the bytes of its result: `passes_byteWise` for an operation
byte by byte, `passes_copyBytes` for a copy of bytes that stay as they are, `leads_stepBytes` for a
step by one in place.  Each is told by the bytes that spots are given one after the other (`fill`).
-/

namespace Codegen6502.Proofs.Selecting.Computing

open Selection Growth Shapes
open Processor.Memory Processor.LineRun Processor.Straight Processor.Arithmetic Processor.Passages
open Processor.Chains
open Tracking Places Moves Courses Reading Constants Deciding

variable {c : Context} {k : Linkage} {s t : Store} {st st' : State} {d d' d'' : Draft}
  {cell : UInt8} {n : ℕ}

/-! ### Spots that are given bytes -/

/-- The store after spots have been given bytes, one after the other. -/
def fill (s : Store) : List Spot → List UInt8 → Store
  | spot :: spots, byte :: bytes => fill (put s spot byte) spots bytes
  | _, _ => s

section Fill

variable {spot : Spot} {spots : List Spot} {bytes : List UInt8}

theorem fill_cons (byte : UInt8) : fill s (spot :: spots) (byte :: bytes) =
    fill (put s spot byte) spots bytes := rfl

theorem keeps_put_all (h : ∀ other ∈ spot :: spots, Keeps s other) (byte : UInt8) :
    ∀ other ∈ spots, Keeps (put s spot byte) other := fun other hother =>
  (keeps_put spot other byte).mpr (h other (List.mem_cons_of_mem _ hother))

theorem keeps_fill {other : Spot} : ∀ {spots : List Spot} {bytes : List UInt8} {s : Store},
    Keeps (fill s spots bytes) other ↔ Keeps s other
  | [], _, _ => Iff.rfl
  | _ :: _, [], _ => Iff.rfl
  | _ :: spots, _ :: bytes, _ => by
    rw [fill_cons]
    exact (@keeps_fill other spots bytes _).trans (keeps_put _ _ _)

theorem get_fill_of_notMem {other : Spot} (hother : other ∉ spots) :
    ∀ {bytes : List UInt8} {s : Store}, (∀ spot ∈ spots, Keeps s spot) →
      get (fill s spots bytes) other = get s other := by
  induction spots with
  | nil => exact fun _ => rfl
  | cons spot spots ih =>
    intro bytes s hk
    cases bytes with
    | nil => rfl
    | cons byte bytes =>
      have hne : spot ≠ other := fun heq => hother (heq ▸ List.mem_cons_self ..)
      rw [fill_cons, ih (fun hmem => hother (List.mem_cons_of_mem _ hmem)) (keeps_put_all hk byte),
        get_put (hk spot (List.mem_cons_self ..)), if_neg hne]

/-- Distinct spots hold what they have been given. -/
theorem map_get_fill (hnodup : spots.Nodup) : ∀ {bytes : List UInt8} {s : Store},
    (∀ spot ∈ spots, Keeps s spot) → bytes.length = spots.length →
      spots.map (get (fill s spots bytes)) = bytes := by
  induction spots with
  | nil => exact fun _ hlength => (List.eq_nil_of_length_eq_zero hlength).symm
  | cons spot spots ih =>
    intro bytes s hk hlength
    obtain ⟨byte, bytes, rfl⟩ := List.exists_cons_of_length_eq_add_one hlength
    obtain ⟨hnot, hnodup⟩ := List.nodup_cons.mp hnodup
    rw [List.map_cons, fill_cons, ih hnodup (keeps_put_all hk byte) (by simpa using hlength),
      get_fill_of_notMem hnot (keeps_put_all hk byte), get_put (hk spot (List.mem_cons_self ..)),
      if_pos rfl]

theorem same_fill : ∀ {spots : List Spot} {bytes : List UInt8} {s t : Store}, Same cell n s t →
    (∀ spot ∈ spots, Keeps s spot) → Same cell n (fill s spots bytes) (fill t spots bytes)
  | [], _, _, _, h, _ => h
  | _ :: _, [], _, _, h, _ => h
  | spot :: spots, byte :: bytes, s, t, h, hk => by
    rw [fill_cons, fill_cons]
    exact same_fill (h.put (hk spot (List.mem_cons_self ..)) byte) (keeps_put_all hk byte)

theorem keeps_cells {vs : List VReg} : ∀ spot ∈ vs.map Spot.cell, Keeps s spot := by
  intro spot hspot
  obtain ⟨v, -, rfl⟩ := List.mem_map.mp hspot
  trivial

end Fill

/-! ### Byte by byte -/

/-- A byte is not read where a register is, nor through it. -/
def Spares (v : VReg) : ByteLoc → Prop
  | .direct operand => operand ≠ .virtual v
  | .indirect pointer _ => pointer.1 ≠ v ∧ pointer.2 ≠ v

section Spares

variable {v : VReg} {loc : ByteLoc}

theorem Spares.spotOf (h : Spares v loc) (byte : UInt8) :
    spotOf k (put s (.cell v) byte) loc = spotOf k s loc := by
  cases loc with
  | direct operand => rfl
  | indirect pointer offset =>
    have hlo : (put s (.cell v) byte).cells pointer.1 = s.cells pointer.1 :=
      Function.update_of_ne h.1 _ _
    have hhi : (put s (.cell v) byte).cells pointer.2 = s.cells pointer.2 :=
      Function.update_of_ne h.2 _ _
    simp only [Tracking.spotOf, hlo, hhi]

theorem operandSpot_eq_cell {operand : Operand} (h : operandSpot k operand = .cell v) :
    operand = .virtual v := by
  cases operand with
  | virtual w => cases h; rfl
  | immediate i => cases i <;> cases h
  | _ => cases h

theorem Spares.held (h : Spares v loc) (byte : UInt8) :
    held k (put s (.cell v) byte) loc = held k s loc := by
  have hne : Spot.cell v ≠ Tracking.spotOf k s loc := by
    cases loc with
    | direct operand => exact fun heq => h (operandSpot_eq_cell heq.symm)
    | indirect pointer offset => exact fun heq => by cases heq
  rw [Courses.held, h.spotOf, get_put (show Keeps s (.cell v) from trivial), if_neg hne]

end Spares

/-- No register is written before a byte of a higher index that is read where it is. -/
def Sequenced (vs : List VReg) (ls rs : List ByteLoc) : Prop :=
  ∀ (i j : ℕ) (v : VReg) (loc : ByteLoc), i < j → vs[i]? = some v →
    ls[j]? = some loc ∨ rs[j]? = some loc → Spares v loc

section Sequenced

variable {v : VReg} {vs : List VReg} {l r : ByteLoc} {ls rs : List ByteLoc}

theorem Sequenced.head (h : Sequenced (v :: vs) (l :: ls) (r :: rs)) :
    ∀ loc ∈ ls ++ rs, Spares v loc := by
  intro loc hloc
  rcases List.mem_append.mp hloc with hloc | hloc
  · obtain ⟨j, hj⟩ := List.mem_iff_getElem?.mp hloc
    exact h 0 (j + 1) v loc (Nat.succ_pos j) rfl (Or.inl hj)
  · obtain ⟨j, hj⟩ := List.mem_iff_getElem?.mp hloc
    exact h 0 (j + 1) v loc (Nat.succ_pos j) rfl (Or.inr hj)

theorem Sequenced.tail (h : Sequenced (v :: vs) (l :: ls) (r :: rs)) : Sequenced vs ls rs :=
  fun i j w loc hij hw hloc => h (i + 1) (j + 1) w loc (Nat.succ_lt_succ hij) hw hloc

end Sequenced

/-- **Computing byte by byte**: the registers are given the chain of the bytes read before. -/
theorem passes_computeBytes {op : Opcode} (hop : isAlu op = true) :
    ∀ {vs : List VReg} {ls rs : List ByteLoc} {st st' : State} {u : Unit},
      computeBytes op (vs.map .vreg) ls rs c st = .ok (u, st') → (∀ loc ∈ ls ++ rs, IsByte loc) →
      Sequenced vs ls rs → vs.length = ls.length → ls.length = rs.length →
      st'.nextLabel = st.nextLabel ∧ Passes k 0 st.draft st'.draft
        (fun s => Away k st.draft.pointerCell s (ls ++ rs)) fun s t =>
        Same st.draft.pointerCell everything (fill s (vs.map .cell)
          (chain op (s.regs.flag .c) (heldAll k s ls) (heldAll k s rs))) t
  | [], [], [], st, st', u, h, _, _, _, _ => by
    obtain ⟨-, rfl⟩ := pure_ok.mp h
    exact ⟨rfl, Passes.refl fun s _ _ => Same.refl s⟩
  | v :: vs, l :: ls, r :: rs, st, st', u, h, hbytes, hseq, hvs, hls => by
    obtain ⟨d₁, hcombine, h₁⟩ := combine_ok h
    obtain ⟨_, st₂, hstore, h₂⟩ := bind_ok.mp h₁
    obtain ⟨hstored, hlabel⟩ := tryDraft_ok hstore
    have hd₂ : d₁.op .sta (.virtual v) = st₂.draft := Except.ok.inj hstored
    obtain ⟨hlabel', hrest⟩ := passes_computeBytes hop h₂
      (fun loc hloc => hbytes loc (by simp only [List.mem_append, List.mem_cons] at hloc ⊢; grind))
      hseq.tail (by simpa using hvs) (by simpa using hls)
    refine ⟨hlabel'.trans hlabel, ?_⟩
    have hfirst : Passes k 0 st.draft d₁
        (fun s => Away k st.draft.pointerCell s (l :: ls ++ r :: rs)) _ :=
      (passes_combine hop (hbytes l (by simp)) (hbytes r (by simp)) hcombine).imp le_rfl
        (fun s hs => away_mono hs (by simp)) fun _ _ _ _ h => h
    have hkeep := passes_keep (k := k) d₁ v
    rw [hd₂] at hkeep
    have hboth := hfirst.trans hkeep fun _ _ _ _ => trivial
    have hcell : st₂.draft.pointerCell = st.draft.pointerCell := hboth.cell
    rw [hcell] at hrest
    -- The later bytes are read from a store in which only the register has changed.
    have hsub : ∀ loc ∈ ls ++ rs, loc ∈ l :: ls ++ r :: rs := fun loc hloc => by
      simp only [List.mem_append, List.mem_cons] at hloc ⊢
      grind
    have hheld : ∀ {s t : Store} {byte : UInt8}, Away k st.draft.pointerCell s (l :: ls ++ r :: rs) →
        Same st.draft.pointerCell everything s t → ∀ loc ∈ ls ++ rs,
          held k (put t (.cell v) byte) loc = held k s loc := fun hs hsame loc hloc => by
      rw [(hseq.head loc hloc).held]
      exact Same.held hsame (hbytes loc (hsub loc hloc)) (hs loc (hsub loc hloc))
    refine (hboth.trans hrest ?_).imp le_rfl (fun _ hs => hs) ?_
    · rintro s w hs ⟨t, ⟨hsame, -⟩, rfl⟩ loc hloc
      rw [(hseq.head loc hloc).spotOf]
      exact (hs.same hsame) loc (hsub loc hloc)
    · rintro s w - hs ⟨t', ⟨t, ⟨hsame, q, hq, hc, hregs⟩, rfl⟩, hw⟩
      have hload : q.flag .c = (loaded (s.regs.flag .c) (held k s l)).flag .c :=
        hc.trans (flag_loaded _ _).symm
      obtain ⟨ha, hcarry⟩ := alu_congr hop hq hload (held k s r)
      have hls' : heldAll k (put t (.cell v) t.regs.a) ls = heldAll k s ls :=
        List.map_congr_left fun loc hloc => hheld hs hsame loc (List.mem_append_left _ hloc)
      have hrs' : heldAll k (put t (.cell v) t.regs.a) rs = heldAll k s rs :=
        List.map_congr_left fun loc hloc => hheld hs hsame loc (List.mem_append_right _ hloc)
      rw [regs_put, hls', hrs', hregs, ha, hcarry] at hw
      refine (same_fill (hsame.put (show Keeps s (.cell v) from trivial) _) keeps_cells).trans hw
  | [], _ :: _, _, _, _, _, _, _, _, hvs, _ => by cases hvs
  | _ :: _, [], _, _, _, _, _, _, _, hvs, _ => by cases hvs
  | _, [], _ :: _, _, _, _, _, _, _, _, hls => by cases hls
  | _, _ :: _, [], _, _, _, _, _, _, _, hls => by cases hls

/-! ### Operations -/

/-- The registers of the result of an operation: as many as the type has bytes, and no other
temporary has one of them. -/
structure Housed (c : Context) (n : ℕ) (result : Temp) (type : ValueType) : Prop where
  length : (registersOf c result).length = type.size.toNat
  nodup : (registersOf c result).Nodup
  below : ∀ v ∈ registersOf c result, v.index.toNat < n
  apart : ∀ (x : Temp) (i j : ℕ) (v : VReg), (registersOf c x)[i]? = some v →
    (registersOf c result)[j]? = some v → i = j

variable {result : Temp} {type : ValueType} {op : BinaryOp} {lhs rhs : Value}

/-- No byte is read too late if none is read through a pointer in the registers of the result. -/
theorem Housed.sequenced (h : Housed c n result type) {lb rb : List ByteLoc} (hl : Ranked c n lb)
    (hr : Ranked c n rb) (hthrough : ∀ loc ∈ lb ++ rb,
      readsThrough ((registersOf c result).map .vreg) loc = false) :
    Sequenced (registersOf c result) lb rb := by
  intro i j v loc hij hv hloc
  have hmem : v ∈ registersOf c result := List.mem_of_getElem? hv
  have hranked : ∀ w, loc = .vreg w → (∃ x, (registersOf c x)[j]? = some w) ∨ n ≤ w.index.toNat := by
    rintro w rfl
    exact hloc.elim (hl j w) (hr j w)
  cases loc with
  | direct operand =>
    rintro rfl
    rcases hranked v rfl with ⟨x, hx⟩ | hle
    · exact absurd (h.apart x j i v hx hv) (by omega)
    · exact absurd (h.below v hmem) (by omega)
  | indirect pointer offset =>
    have hnot := hthrough (.indirect pointer offset)
      (List.mem_append.mpr (hloc.imp List.mem_of_getElem? List.mem_of_getElem?))
    have hcontains : ((registersOf c result).map ByteLoc.vreg).contains (.vreg v) = true :=
      List.contains_iff_mem.mpr (List.mem_map_of_mem hmem)
    simp only [readsThrough, Bool.or_eq_false_iff] at hnot
    refine ⟨fun heq => ?_, fun heq => ?_⟩
    · rw [heq, hcontains] at hnot
      cases hnot.1
    · rw [heq, hcontains] at hnot
      cases hnot.2

/-- The bytes of the result of an operation on what is read for its operands. -/
def resultBytes (c : Context) (k : Linkage) (op : BinaryOp) (lhs rhs : Value) (type : ValueType)
    (s : Store) : List UInt8 :=
  chain (opcodeOf op) (op = .sub) (readOf c k s type.size.toNat lhs) (readOf c k s type.size.toNat rhs)

theorem length_resultBytes (s : Store) :
    (resultBytes c k op lhs rhs type s).length = type.size.toNat := by
  rw [resultBytes, length_chain (by rw [length_readOf, length_readOf]), length_readOf]

/-- The bytes of the left operand, set apart if one is read through the registers of the result. -/
theorem setApart_spec {dst lb lb' : List ByteLoc} (h : Nodes.setApart dst lb c st = .ok (lb', st'))
    (hmoved : ∀ loc ∈ lb, IsMoved st.draft.nextVReg.toNat loc) (hranked : Ranked c n lb)
    (hn : n ≤ st.draft.nextVReg.toNat) (hroom : st.draft.nextVReg.toNat + lb.length < everything) :
    lb'.length = lb.length ∧ st'.nextLabel = st.nextLabel ∧
      (∀ loc ∈ lb', IsMoved st'.draft.nextVReg.toNat loc ∧ readsThrough dst loc = false) ∧
      Ranked c n lb' ∧ Passes k lb.length st.draft st'.draft
        (fun s => Away k st.draft.pointerCell s lb) fun s t =>
        Same st.draft.pointerCell st.draft.nextVReg.toNat s t ∧
          Presents k st.draft.pointerCell t lb' (heldAll k s lb) := by
  unfold Nodes.setApart at h
  split at h
  · have hc := copiedOut_mapM (k := k) h hmoved hroom
    refine ⟨hc.length, hc.label, fun loc hloc => ⟨hc.moved loc hloc, ?_⟩, hc.ranked hranked hn, hc.passes⟩
    have hdirect := hc.direct loc hloc
    cases loc with
    | direct operand => rfl
    | indirect pointer offset => cases hdirect
  · rename_i hany
    obtain ⟨rfl, rfl⟩ := pure_ok.mp h
    refine ⟨rfl, rfl, fun loc hloc => ⟨hmoved loc hloc, ?_⟩, hranked,
      (Passes.refl fun s _ hs => ⟨Same.refl s, presents_map hs⟩).imp (Nat.zero_le _) (fun _ hs => hs)
        fun _ _ _ _ h => h⟩
    exact Bool.eq_false_iff.mpr fun htrue => hany (List.any_eq_true.mpr ⟨loc, hloc, htrue⟩)

/-- The instruction of a chain, and the carry that it begins with. -/
theorem startChain_spec {opcode : Opcode} (hop : isByteWise op = true)
    (h : Nodes.startChain op c st = .ok (opcode, st')) :
    opcode = opcodeOf op ∧ st'.nextLabel = st.nextLabel ∧
      Passes k 0 st.draft st'.draft (fun _ => True) fun s t =>
        t = s.setRegs t.regs ∧ (op = .add → t.regs.flag .c = false) ∧
          (op = .sub → t.regs.flag .c = true) := by
  have hset : ∀ {code : Opcode}, code = .clc ∨ code = .sec →
      Passes k 0 st.draft (st.draft.bare code) (fun _ => True) fun s t =>
        t = s.setRegs t.regs ∧ t.regs.flag .c = decide (code = .sec) := by
    intro code hcode
    refine (passes_setCarry st.draft hcode).imp le_rfl (fun _ hs => hs) ?_
    rintro s t - - rfl
    exact ⟨rfl, by rw [regs_setRegs, flag_setFlag, if_pos rfl]⟩
  have hnone : Passes k 0 st.draft st.draft (fun _ => True) fun s t => t = s.setRegs t.regs :=
    Passes.refl fun s _ _ => rfl
  cases op with
  | add =>
    cases h
    refine ⟨rfl, rfl, (hset (Or.inl rfl)).imp le_rfl (fun _ hs => hs) ?_⟩
    exact fun s t _ _ ht => ⟨ht.1, fun _ => ht.2, fun heq => by cases heq⟩
  | sub =>
    cases h
    refine ⟨rfl, rfl, (hset (Or.inr rfl)).imp le_rfl (fun _ hs => hs) ?_⟩
    exact fun s t _ _ ht => ⟨ht.1, (fun heq => by cases heq), fun _ => ht.2⟩
  | and | or | xor =>
    cases h
    refine ⟨rfl, rfl, hnone.imp le_rfl (fun _ hs => hs) ?_⟩
    exact fun s t _ _ ht => ⟨ht, (fun heq => by cases heq), fun heq => by cases heq⟩
  | _ => cases hop

theorem isAlu_opcodeOf (hop : isByteWise op = true) : isAlu (opcodeOf op) = true := by
  cases op <;> first | rfl | cases hop

/-- **An operation byte by byte** gives the registers of the result its bytes. -/
theorem passes_byteWise {u : Unit} (hst : Settled c st.draft) (hscalar : type.isScalar = true)
    (hop : isByteWise op = true) (hresult : Housed c st.draft.nextVReg.toNat result type)
    (h : byteWise op lhs rhs type result c st = .ok (u, st')) :
    st'.nextLabel = st.nextLabel ∧ Passes k 8 st.draft st'.draft
      (Legible c k st.draft type lhs rhs) fun s t =>
      Same st.draft.pointerCell st.draft.nextVReg.toNat
        (fill s ((registersOf c result).map .cell) (resultBytes c k op lhs rhs type s)) t := by
  have hsize := size_le_two hscalar
  have hroom := hst.room
  rw [Nodes.byteWise_eq] at h
  obtain ⟨dst, st₁, hdst, h₁⟩ := bind_ok.mp h
  obtain ⟨rfl, rfl⟩ := destination_ok hdst
  obtain ⟨lb, st₂, hlb, h₂⟩ := bind_ok.mp h₁
  obtain ⟨rb, st₃, hrb, h₃⟩ := bind_ok.mp h₂
  obtain ⟨lb', st₄, hlb', h₄⟩ := bind_ok.mp h₃
  obtain ⟨opcode, st₅, hopcode, h₅⟩ := bind_ok.mp h₄
  have hp := paired_bytes (k := k) hst hlb hrb hsize
  have hgrows := hp.passes.grows
  have hbounded := hp.passes.bounded
  have hleft := hp.left
  have hright := hp.right
  obtain ⟨hlength, hlabel₄, hmoved₄, hranked₄, hpasses₄⟩ := setApart_spec (k := k) hlb'
    (fun loc hloc => hp.moved loc (List.mem_append_left _ hloc)) hp.rankedLeft hgrows (by omega)
  obtain ⟨rfl, hlabel₅, hpasses₅⟩ := startChain_spec (k := k) hop hopcode
  have hmoved : ∀ loc ∈ lb' ++ rb, IsMoved st₄.draft.nextVReg.toNat loc := fun loc hloc =>
    (List.mem_append.mp hloc).elim (fun hloc => (hmoved₄ loc hloc).1) fun hloc =>
      (hp.moved loc (List.mem_append_right _ hloc)).mono hpasses₄.grows
  have hseq : Sequenced (registersOf c result) lb' rb := by
    refine hresult.sequenced hranked₄ hp.rankedRight fun loc hloc => ?_
    rcases List.mem_append.mp hloc with hloc | hloc
    · exact (hmoved₄ loc hloc).2
    · have hdirect := hp.direct loc hloc
      cases loc with
      | direct operand => rfl
      | indirect pointer offset => cases hdirect
  obtain ⟨hlabel₆, hpasses₆⟩ := passes_computeBytes (k := k) (isAlu_opcodeOf hop) h₅
    (fun loc hloc => (hmoved loc hloc).1) hseq (by rw [hresult.length]; omega) (by omega)
  refine ⟨hlabel₆.trans (hlabel₅.trans (hlabel₄.trans hp.label)), ?_⟩
  have hcell₃ : st₃.draft.pointerCell = st₁.draft.pointerCell := hp.passes.cell
  have hcell₄ : st₄.draft.pointerCell = st₁.draft.pointerCell := hpasses₄.cell.trans hcell₃
  have hcell₅ : st₅.draft.pointerCell = st₁.draft.pointerCell := hpasses₅.cell.trans hcell₄
  rw [hcell₃] at hpasses₄
  rw [hcell₅] at hpasses₆
  have hplaced : Passes k (4 + type.size.toNat + lb.length) st₁.draft st₄.draft
      (Legible c k st₁.draft type lhs rhs) fun s u =>
      Same st₁.draft.pointerCell st₁.draft.nextVReg.toNat s u ∧
        Presents k st₁.draft.pointerCell u (lb' ++ rb)
          (readOf c k s type.size.toNat lhs ++ readOf c k s type.size.toNat rhs) := by
    refine (hp.passes.trans hpasses₄ fun s t _ ht => away_mono ht.2.outside fun loc hloc =>
      List.mem_append_left _ hloc).imp le_rfl (fun _ hs => hs) ?_
    rintro s u - - ⟨t, ⟨hsame, hpresents⟩, hsame', hpresents'⟩
    obtain ⟨hl, hr⟩ := hpresents.split (by rw [hleft, length_readOf])
    rw [show heldAll k t lb = _ from hl.map_eq] at hpresents'
    exact ⟨hsame.trans (hsame'.mono hgrows), List.rel_append hpresents'
      (hr.same hsame' fun loc hloc => hp.moved loc (List.mem_append_right _ hloc))⟩
  refine ((hplaced.trans hpasses₅ fun _ _ _ _ => trivial).trans hpasses₆ ?_).imp (by omega)
    (fun _ hs => hs) ?_
  · rintro s u' - ⟨u, ⟨-, hpresents⟩, hu', -⟩
    exact (hpresents.same (hu' ▸ Same.setRegs u _) hmoved).outside
  · rintro s w - - ⟨u', ⟨u, ⟨hsame, hpresents⟩, hu', hadd, hsub⟩, hw⟩
    have hsame' : Same st₁.draft.pointerCell st₁.draft.nextVReg.toNat s u' :=
      hsame.trans (hu' ▸ Same.setRegs u _)
    obtain ⟨hl, hr⟩ := (hpresents.same (hu' ▸ Same.setRegs u _) hmoved).split
      (by rw [hlength, hleft, length_readOf])
    rw [show heldAll k u' lb' = _ from hl.map_eq, show heldAll k u' rb = _ from hr.map_eq,
      chain_carry hop hadd hsub] at hw
    exact (same_fill hsame' keeps_cells).trans (hw.mono st₁.draft.nextVReg.toNat_lt.le)

/-! ### Copies -/

/-- A constant, or a register that is not among destinations. -/
def Stays (dsts : List ByteLoc) (src : ByteLoc) : Prop :=
  (∃ byte, src = .byte byte) ∨ ∃ v, src = .vreg v ∧ .vreg v ∉ dsts

section Copies

variable {src dst : ByteLoc} {srcs dsts : List ByteLoc}

theorem spotOf_direct (h : dst.isIndirect = false) (s t : Store) : spotOf k t dst = spotOf k s dst := by
  cases dst with
  | direct operand => rfl
  | indirect pointer offset => cases h

theorem Stays.held (h : Stays dsts src) (hdst : dst ∈ dsts) (hdirect : dst.isIndirect = false)
    (byte : UInt8) : held k (put s (spotOf k s dst) byte) src = held k s src := by
  obtain ⟨b, rfl⟩ | ⟨v, rfl, hv⟩ := h
  · rfl
  · cases dst with
    | indirect pointer offset => cases hdirect
    | direct operand =>
      have hne : spotOf k s (.direct operand) ≠ operandSpot k (.virtual v) := fun heq =>
        hv (by rw [ByteLoc.vreg, ← operandSpot_eq_cell heq]; exact hdst)
      exact value_put rfl hne byte

theorem Stays.tail (h : Stays (dst :: dsts) src) : Stays dsts src :=
  h.imp id fun ⟨v, hv, hnot⟩ => ⟨v, hv, fun hmem => hnot (List.mem_cons_of_mem _ hmem)⟩

/-- Moving bytes that stay as they are comes to giving them. -/
theorem transfer_eq_fill : ∀ {srcs dsts : List ByteLoc} {s : Store},
    (∀ src ∈ srcs, Stays dsts src) → (∀ dst ∈ dsts, dst.isIndirect = false) →
    transfer k s (srcs.zip dsts) = fill s (dsts.map (spotOf k s)) (heldAll k s srcs)
  | [], dsts, s, _, _ => by cases dsts <;> rfl
  | _ :: _, [], _, _, _ => rfl
  | src :: srcs, dst :: dsts, s, hsrcs, hdsts => by
    have hdst := hdsts dst (List.mem_cons_self ..)
    have htail : ∀ d ∈ dsts, d.isIndirect = false := fun d hd => hdsts d (List.mem_cons_of_mem _ hd)
    have hspots : dsts.map (spotOf k (put s (spotOf k s dst) (held k s src))) = dsts.map (spotOf k s) :=
      List.map_congr_left fun d hd => spotOf_direct (htail d hd) s _
    have hheld : heldAll k (put s (spotOf k s dst) (held k s src)) srcs = heldAll k s srcs :=
      List.map_congr_left fun l hl => (hsrcs l (List.mem_cons_of_mem _ hl)).held
        (List.mem_cons_self ..) hdst _
    rw [List.zip_cons_cons, transfer, transfer_eq_fill
      (fun l hl => (hsrcs l (List.mem_cons_of_mem _ hl)).tail) htail, hspots, hheld]
    rfl

/-- A byte that can be written. -/
def Writable (k : Linkage) (cell : UInt8) (s : Store) (dst : ByteLoc) : Prop :=
  Outside cell (spotOf k s dst) ∧ Keeps s (spotOf k s dst)

theorem clear_of_writable : ∀ {srcs dsts : List ByteLoc} {s : Store},
    (∀ src ∈ srcs, Stays dsts src) → (∀ dst ∈ dsts, dst.isIndirect = false) →
    (∀ dst ∈ dsts, Writable k cell s dst) → Clear cell k s (srcs.zip dsts)
  | [], dsts, _, _, _, _ => by cases dsts <;> trivial
  | _ :: _, [], _, _, _, _ => trivial
  | src :: srcs, dst :: dsts, s, hsrcs, hdsts, hwrite => by
    have htail : ∀ d ∈ dsts, d.isIndirect = false := fun d hd => hdsts d (List.mem_cons_of_mem _ hd)
    obtain ⟨hout, hkeeps⟩ := hwrite dst (List.mem_cons_self ..)
    refine ⟨fun a ha => ?_, hout, hkeeps, clear_of_writable
      (fun l hl => (hsrcs l (List.mem_cons_of_mem _ hl)).tail) htail fun d hd => ?_⟩
    · obtain ⟨b, rfl⟩ | ⟨v, rfl, -⟩ := hsrcs src (List.mem_cons_self ..) <;> cases ha
    · rw [Writable, spotOf_direct (htail d hd) s, keeps_put]
      exact hwrite d (List.mem_cons_of_mem _ hd)

/-- **Copying constants and registers** to other places. -/
theorem passes_copyBytes {u : Unit} (h : copyBytes srcs dsts c st = .ok (u, st'))
    (htracks : TracksA st.draft) (hsrcs : ∀ src ∈ srcs, IsMoved n src ∧ Stays dsts src)
    (hdsts : ∀ dst ∈ dsts, IsMoved n dst ∧ dst.isIndirect = false)
    (hn : n ≤ st.draft.nextVReg.toNat) (hroom : st.draft.nextVReg.toNat + dsts.length < everything) :
    st'.nextLabel = st.nextLabel ∧ Passes k dsts.length st.draft st'.draft
      (fun s => ∀ dst ∈ dsts, Writable k st.draft.pointerCell s dst) fun s t =>
      Same st.draft.pointerCell n (fill s (dsts.map (spotOf k s)) (heldAll k s srcs)) t := by
  have hlays : Lays c (Moving anywhere) (copyBytes srcs dsts) fun _ => True :=
    lays_copyBytes srcs dsts (fun l hl => sited_of_isByte (hsrcs l hl).1.1)
      fun l hl => sited_of_isByte (hdsts l hl).1.1
  obtain ⟨⟨es, hes, hmoving⟩, -⟩ := hlays _ _ _ h htracks
  have hemits := emits_copyBytes (k := k) srcs dsts h (fun l hl => (hsrcs l hl).1)
    (fun l hl => (hdsts l hl).1) hn hroom
  refine ⟨hes.label, ⟨hemits.imp le_rfl ?_ ?_, es, hes.draft, hmoving.imp fun _ => plain_of_moving⟩⟩
  · exact fun s hs => clear_of_writable (fun l hl => (hsrcs l hl).2) (fun l hl => (hdsts l hl).2) hs
  · rintro s t - - ht
    rwa [transfer_eq_fill (fun l hl => (hsrcs l hl).2) fun l hl => (hdsts l hl).2] at ht

end Copies

/-! ### Steps by one -/

/-- A byte stepped by one. -/
def bumped (up : Bool) (byte : UInt8) : UInt8 := if up then byte + 1 else byte - 1

/-- A spot has been given a byte, and nothing else has changed. -/
structure Gives (spot : Spot) (byte : UInt8) (s t : Store) : Prop where
  get : ∀ other, get t other = if other = spot then byte else get s other
  plain : ∀ a, Processor.Memory.Plain t.machine.bus a ↔ Processor.Memory.Plain s.machine.bus a

theorem gives_put {spot : Spot} (h : Keeps s spot) (byte : UInt8) :
    Gives spot byte s (put s spot byte) := by
  refine ⟨fun other => ?_, plain_put spot byte⟩
  rw [get_put h]
  simp only [eq_comm]

theorem get_setRegs (r : Registers) (spot : Spot) : get (s.setRegs r) spot = get s spot := by
  cases spot <;> rfl

theorem Gives.setRegs {spot : Spot} {byte : UInt8} (h : Gives spot byte s t) (r : Registers) :
    Gives spot byte s (t.setRegs r) :=
  ⟨fun other => (get_setRegs r other).trans (h.get other), h.plain⟩

theorem Gives.keeps {spot other : Spot} {byte : UInt8} (h : Gives spot byte s t) :
    Keeps t other ↔ Keeps s other := by
  cases other with
  | memory a => exact h.plain a
  | _ => rfl

/-- The operands that can be stepped. -/
def IsCell (operand : Operand) : Prop := IsSimple operand ∧ operand.isMemory = true

section Steps

variable {operand lo hi : Operand} {skip : String}

theorem exec_bump (up : Bool) (h : IsCell operand) : s.exec k (if up then .inc else .dec) operand =
    (put s (operandSpot k operand) (bumped up (get s (operandSpot k operand)))).setRegs
      (s.regs.setNZ (bumped up (get s (operandSpot k operand)))) := by
  obtain ⟨v, rfl⟩ | ⟨o, rfl⟩ | ⟨z, rfl⟩ | ⟨a, rfl⟩ := writable_cases h.1 h.2
  · cases up <;>
      simp only [Store.exec, cellOp_inc, cellOp_dec, Bool.false_eq_true, if_true, if_false] <;> rfl
  · cases up <;>
      simp only [Store.exec, cellOp_inc, cellOp_dec, Bool.false_eq_true, if_true, if_false] <;> rfl
  · cases up <;> rfl
  · cases up <;> rfl

/-- Stepping a byte. -/
theorem passes_bump (d : Draft) (up : Bool) (h : IsCell operand) :
    Passes k 0 d (d.op (if up then .inc else .dec) operand)
      (fun s => Writable k d.pointerCell s (.direct operand)) fun s t =>
      Gives (operandSpot k operand) (bumped up (get s (operandSpot k operand))) s t ∧
        t.regs.flag .z = decide (bumped up (get s (operandSpot k operand)) = 0) := by
  have hafter : ∃ nz, d.known.after d.pointerCell (.op (if up then .inc else .dec) operand) =
      { d.known.afterWrite d.pointerCell operand with nz } := by
    cases up
    all_goals
      simp only [Knowledge.after, Knowledge.afterRegisters, h.2]
      exact ⟨_, rfl⟩
  obtain ⟨nz, hafter⟩ := hafter
  refine ⟨Emits.op d ?_ ?_ fun s hr hwritable => ?_, .op d ?_
    (sited_of_isByte (show IsByte (.direct operand) from h.1)) ?_⟩
  · cases up <;> rfl
  · obtain ⟨v, rfl⟩ | ⟨o, rfl⟩ | ⟨z, rfl⟩ | ⟨a, rfl⟩ := writable_cases h.1 h.2 <;> cases up <;> rfl
  · obtain ⟨hout, hkeeps⟩ := hwritable
    rw [hafter, exec_bump up h]
    have hput := knows_put hr.1 hr.2 h.1 h.2 (fun a ha hscratch => absurd hscratch (hout a ha))
      (bumped up (get s (operandSpot k operand)))
    refine ⟨⟨fun o ho => ?_, hput.pointer, fun y hy => ?_⟩, ?_, (gives_put hkeeps _).setRegs _, ?_⟩
    · obtain ⟨htracked, hvalue⟩ := hput.a o ho
      refine ⟨htracked, (value_setRegs htracked _).trans (hvalue.trans ?_)⟩
      rw [regs_put]
      rfl
    · have hy' := hput.y y hy
      rw [regs_put] at hy'
      exact hy'
    · exact ⟨(plain_put _ _ _).mpr hr.2.1, (plain_put _ _ _).mpr hr.2.2⟩
    · rw [regs_setRegs, flag_setNZ]
      rfl
  · cases up <;> rfl
  · cases up <;> rfl

/-- Lines that are left out if a branch in front of them is taken. -/
theorem leads_skip {m m' : ℕ} {pre pre' : Store → Prop} {post post' : Store → Store → Prop}
    {op : Opcode} (h : Passes k m d d' pre post) (hop : op.isBranch = true)
    (h' : Passes k m' (d'.branch op skip) d'' pre' post')
    (link : ∀ s t, pre s → post s t → pre' t) :
    Leads k [skip] [skip] d (d''.label skip) pre fun s p => p.seeking = none ∧
      ∃ t, post s t ∧ if isTaken op t.regs then p.store = t else post' t p.store := by
  have hbranch : Leads k [] [skip] d' (d'.branch op skip) pre' _ :=
    (leads_branch d' hop skip).imp (fun _ _ => trivial) fun _ _ _ _ hp => hp
  have hskip := (hbranch.trans (Leads.of_passes h') (by simp) fun s t _ hs ht => by
    obtain rfl : t = s := congrArg Passage.store ht
    exact hs).landed skip
  refine (Leads.after hskip h fun s t _ hs ht => link s t hs ht).imp (fun _ hs => hs) ?_
  rintro s q - - ⟨t, ht, p, ⟨u, hu, w, rfl, hw⟩ | ⟨u, other, rfl, hother⟩, rfl⟩
  · obtain rfl : u = t := congrArg Passage.store hu
    have hnot := not_of_staying (congrArg Passage.seeking hu)
    refine ⟨rfl, u, ht, ?_⟩
    rw [if_neg (by simp [hnot])]
    exact hw
  · obtain ⟨htaken, rfl⟩ := of_leaving (congrArg Passage.seeking hother)
    obtain rfl : u = t := congrArg Passage.store hother
    refine ⟨by simp [land], u, ht, ?_⟩
    rw [if_pos htaken]
    simp [land]

/-- The bytes of a number stepped by one. -/
def stepped (up : Bool) : List UInt8 → List UInt8
  | [byte] => [bumped up byte]
  | [lo, hi] => [bumped up lo, if (if up then bumped up lo else lo) = 0 then bumped up hi else hi]
  | bytes => bytes

theorem length_stepped (up : Bool) (bytes : List UInt8) : (stepped up bytes).length = bytes.length := by
  unfold stepped
  split <;> rfl

theorem gives_self (s : Store) (spot : Spot) : Gives spot (get s spot) s s := by
  refine ⟨fun other => ?_, fun _ => Iff.rfl⟩
  split
  · rename_i heq
    rw [heq]
  · rfl

/-- Two spots that have been given bytes one after the other. -/
theorem same_pair {u : Store} {first second : Spot} {a b : UInt8} (hfirst : Keeps s first)
    (hsecond : Keeps s second) (h : Gives first a s t) (h' : Gives second b t u) :
    Same cell n (fill s [first, second] [a, b]) u := by
  refine ⟨fun other _ => ?_, fun x => ((h'.plain x).trans (h.plain x)).trans ?_⟩
  · change _ = get (put (put s first a) second b) other
    rw [get_put ((keeps_put _ _ _).mpr hsecond), get_put hfirst, h'.get, h.get]
    simp only [eq_comm]
  · change _ ↔ Processor.Memory.Plain (put (put s first a) second b).machine.bus x
    rw [plain_put, plain_put]

/-- The order does not matter. -/
theorem gives_swap {u : Store} {first second : Spot} {a b : UInt8} (hne : first ≠ second)
    (hfirst : Keeps s first) (h : Gives second b s t) (h' : Gives first a t u) :
    Gives second b (put s first a) u := by
  refine ⟨fun other => ?_, fun x => ((h'.plain x).trans (h.plain x)).trans (plain_put _ _ x).symm⟩
  rw [h'.get, h.get, get_put hfirst]
  grind

/-- The high byte of a word is stepped if the lines before have left Z set. -/
theorem leads_carry {m : ℕ} {pre : Store → Prop} {post : Store → Store → Prop} {zero : Store → Bool}
    (up : Bool) (h : Passes k m d d' pre post) (hhi : IsCell hi)
    (hz : ∀ s t, post s t → t.regs.flag .z = zero s)
    (hwrite : ∀ s t, pre s → post s t → Writable k d.pointerCell t (.direct hi)) :
    Leads k [skip] [skip] d (((d'.branch .bne skip).op (if up then .inc else .dec) hi).label skip) pre
      fun s p => p.seeking = none ∧ ∃ t, post s t ∧ Gives (operandSpot k hi)
        (if zero s then bumped up (get t (operandSpot k hi)) else get t (operandSpot k hi)) t p.store := by
  have hhigh := passes_bump (k := k) (d'.branch .bne skip) up hhi
  have hcell : (d'.branch .bne skip).pointerCell = d.pointerCell := h.cell
  rw [hcell] at hhigh
  refine (leads_skip h rfl hhigh hwrite).imp (fun _ hs => hs) ?_
  rintro s p - - ⟨hseek, t, ht, hp⟩
  refine ⟨hseek, t, ht, ?_⟩
  simp only [isTaken, hz s t ht] at hp
  cases hzero : zero s with
  | true =>
    simp only [hzero, Bool.not_true, Bool.false_eq_true, if_false] at hp
    exact hp.1
  | false =>
    simp only [hzero, Bool.not_false, if_true] at hp
    rw [hp]
    exact gives_self t _

/-- A word is stepped up by its low byte, and by its high byte if the low byte has become zero. -/
theorem leads_stepUp (hlo : IsCell lo) (hhi : IsCell hi) (hne : operandSpot k lo ≠ operandSpot k hi) :
    Leads k [skip] [skip] d ((((d.op .inc lo).branch .bne skip).op .inc hi).label skip)
      (fun s =>
        Writable k d.pointerCell s (.direct lo) ∧ Writable k d.pointerCell s (.direct hi)) fun s p =>
      p.seeking = none ∧ Same d.pointerCell everything (fill s [operandSpot k lo, operandSpot k hi]
        (stepped true [get s (operandSpot k lo), get s (operandSpot k hi)])) p.store := by
  have hlow : Passes k 0 d (d.op .inc lo)
      (fun s => Writable k d.pointerCell s (.direct lo) ∧ Writable k d.pointerCell s (.direct hi)) _ :=
    (passes_bump d true hlo).imp le_rfl (fun s hs => hs.1) fun _ _ _ _ h => h
  refine (leads_carry true hlow hhi (fun s t ht => ht.2) fun s t hs ht =>
    ⟨hs.2.1, ht.1.keeps.mpr hs.2.2⟩).imp (fun _ hs => hs) ?_
  rintro s p - ⟨⟨-, hklo⟩, -, hkhi⟩ ⟨hseek, t, ⟨ht, -⟩, hp⟩
  rw [ht.get, if_neg hne.symm] at hp
  simp only [decide_eq_true_eq] at hp
  exact ⟨hseek, same_pair hklo hkhi ht hp⟩

/-- A word is stepped down by its high byte if the low byte is zero, and then by its low byte. -/
theorem leads_stepDown (hlo : IsCell lo) (hhi : IsCell hi)
    (hne : operandSpot k lo ≠ operandSpot k hi) :
    Leads k [skip] [skip] d
      (((((d.op .lda lo).branch .bne skip).op .dec hi).label skip).op .dec lo)
      (fun s =>
        Writable k d.pointerCell s (.direct lo) ∧ Writable k d.pointerCell s (.direct hi)) fun s p =>
      p.seeking = none ∧ Same d.pointerCell everything (fill s [operandSpot k lo, operandSpot k hi]
        (stepped false [get s (operandSpot k lo), get s (operandSpot k hi)])) p.store := by
  have hload : Passes k 0 d (d.op .lda lo)
      (fun s => Writable k d.pointerCell s (.direct lo) ∧ Writable k d.pointerCell s (.direct hi)) _ :=
    (passes_lda d hlo.1).imp le_rfl (fun _ _ => trivial) fun _ _ _ _ h => h
  have hhigh : Leads k [skip] [skip] d ((((d.op .lda lo).branch .bne skip).op .dec hi).label skip)
      (fun s =>
        Writable k d.pointerCell s (.direct lo) ∧ Writable k d.pointerCell s (.direct hi)) fun s p =>
      p.seeking = none ∧ Gives (operandSpot k hi) (if get s (operandSpot k lo) = 0
        then bumped false (get s (operandSpot k hi)) else get s (operandSpot k hi)) s p.store := by
    have hz : ∀ s t : Store, t = s.setRegs (s.regs.loadA (get s (operandSpot k lo))) →
        t.regs.flag .z = decide (get s (operandSpot k lo) = 0) := by
      rintro s t rfl
      rw [regs_setRegs]
      exact (flags_loadA _ _).1
    refine (leads_carry false hload hhi hz fun s t hs ht => ?_).imp (fun _ hs => hs) ?_
    · have hsame : Same d.pointerCell 0 s t := ht ▸ Same.setRegs s _
      exact ⟨hs.2.1, (hsame.keeps _).mpr hs.2.2⟩
    · rintro s p - - ⟨hseek, t, rfl, ht⟩
      simp only [decide_eq_true_eq, get_setRegs] at ht
      refine ⟨hseek, fun other => ?_, ht.plain⟩
      rw [ht.get, get_setRegs]
  have hlow := passes_bump (k := k) ((((d.op .lda lo).branch .bne skip).op .dec hi).label skip) false hlo
  refine (hhigh.trans (Leads.of_passes hlow) (by simp) ?_).imp (fun _ hs => hs) ?_
  · rintro s t - ⟨⟨hout, hklo⟩, -⟩ ⟨-, ht⟩
    exact ⟨hout, ht.keeps.mpr hklo⟩
  · rintro s p - ⟨⟨-, hklo⟩, -, hkhi⟩ (⟨t, ⟨-, ht⟩, w, rfl, hw, -⟩ | ⟨t, other, rfl, hseek, -⟩)
    · rw [ht.get, if_neg hne] at hw
      exact ⟨rfl, same_pair hklo hkhi (gives_put hklo _) (gives_swap hne hklo ht hw)⟩
    · cases hseek

theorem directOperands_ok {locs : List ByteLoc} {operands : List Operand}
    (h : locs.mapM directOperand c st = .ok (operands, st')) :
    st' = st ∧ locs = operands.map .direct := by
  obtain ⟨rfl, hall⟩ := mapM_ok (P := fun loc operand => loc = ByteLoc.direct operand)
    (fun loc operand st st' hok => by
      cases loc with
      | direct o =>
        obtain ⟨rfl, rfl⟩ := pure_ok.mp hok
        exact ⟨rfl, rfl⟩
      | indirect pointer offset => cases hok) _ _ _ _ h
  refine ⟨rfl, ?_⟩
  clear h
  induction hall with
  | nil => rfl
  | cons heq _ ih => rw [List.map_cons, heq, ih]

/-- **Stepping bytes in place.** -/
theorem leads_stepBytes {up : Bool} {operands : List Operand} {u : Unit}
    (h : stepBytes up (operands.map .direct) c st = .ok (u, st'))
    (hcells : ∀ operand ∈ operands, IsCell operand) (hnodup : (operands.map (operandSpot k)).Nodup) :
    st.nextLabel ≤ st'.nextLabel ∧ ∃ names, Fresh c st.nextLabel st'.nextLabel names ∧
      Leads k names names st.draft st'.draft
        (fun s => ∀ operand ∈ operands, Writable k st.draft.pointerCell s (.direct operand)) fun s p =>
        p.seeking = none ∧ Same st.draft.pointerCell everything (fill s (operands.map (operandSpot k))
          (stepped up ((operands.map (operandSpot k)).map (get s)))) p.store := by
  obtain ⟨operands', st₁, hdirect, hstep⟩ := bind_ok.mp h
  obtain ⟨rfl, hmap⟩ := directOperands_ok hdirect
  obtain rfl : operands = operands' :=
    List.map_injective_iff.mpr (fun _ _ heq => ByteLoc.direct.inj heq) hmap
  rcases operands with _ | ⟨lo, _ | ⟨hi, _ | ⟨third, rest⟩⟩⟩
  · cases hstep
  · cases hstep
    have hlo := hcells lo (by simp)
    refine ⟨le_rfl, [], fresh_nil _ _, (Leads.of_passes (passes_bump (k := k) st₁.draft up hlo)).imp
      (fun s hs => hs lo (by simp)) ?_⟩
    rintro s p - hs ⟨t, rfl, ht, -⟩
    have hput := gives_put (hs lo (by simp)).2 (bumped up (get s (operandSpot k lo)))
    exact ⟨rfl, fun other _ => (ht.get other).trans (hput.get other).symm,
      fun x => (ht.plain x).trans (hput.plain x).symm⟩
  · have hlo := hcells lo (by simp)
    have hhi := hcells hi (by simp)
    have hne : operandSpot k lo ≠ operandSpot k hi := fun heq => by simp [heq] at hnodup
    obtain ⟨skip, st₂, hskip, hstep⟩ := bind_ok.mp hstep
    obtain ⟨rfl, rfl⟩ := newLabel_ok hskip
    have hpre : ∀ s, (∀ operand ∈ [lo, hi], Writable k st₁.draft.pointerCell s (.direct operand)) →
        Writable k st₁.draft.pointerCell s (.direct lo) ∧
          Writable k st₁.draft.pointerCell s (.direct hi) :=
      fun s hs => ⟨hs lo (by simp), hs hi (by simp)⟩
    cases up with
    | true =>
      cases hstep
      exact ⟨Nat.le_succ _, _, fresh_next _, (leads_stepUp hlo hhi hne).imp hpre fun _ _ _ _ hp => hp⟩
    | false =>
      cases hstep
      exact ⟨Nat.le_succ _, _, fresh_next _, (leads_stepDown hlo hhi hne).imp hpre fun _ _ _ _ hp => hp⟩
  · cases hstep

theorem toNat_bumped (up : Bool) (byte : UInt8) :
    (bumped up byte).toNat = (byte.toNat + if up then 1 else 255) % 256 := by
  have hone : (1 : UInt8).toNat = 1 := rfl
  cases up
  · simp only [bumped, Bool.false_eq_true, if_false, UInt8.toNat_sub, hone]
    omega
  · simp only [bumped, if_true, UInt8.toNat_add, hone]

/-- **A step adds or subtracts one.** -/
theorem natural_stepped (up : Bool) {bytes : List UInt8} (h : bytes.length = 1 ∨ bytes.length = 2) :
    (natural (stepped up bytes) : ℤ) =
      (natural bytes + if up then 1 else -1) % 256 ^ bytes.length := by
  have hzero : ∀ b : UInt8, b = 0 ↔ b.toNat = 0 := fun b => UInt8.toNat_inj.symm
  obtain h | h := h
  · obtain ⟨b, rfl⟩ := List.length_eq_one_iff.mp h
    have hb := b.toNat_lt
    cases up <;> simp only [stepped, natural_one, toNat_bumped, List.length_singleton, pow_one,
      Bool.false_eq_true, if_true, if_false] <;> omega
  · obtain ⟨lo, hi, rfl⟩ := List.length_eq_two.mp h
    have hlo := lo.toNat_lt
    have hhi := hi.toNat_lt
    have hbumped := toNat_bumped up hi
    rw [h]
    cases up
    · simp only [Bool.false_eq_true, if_false] at hbumped
      simp only [stepped, natural_two, toNat_bumped, Bool.false_eq_true, if_false, hzero]
      split <;> omega
    · simp only [if_true] at hbumped
      simp only [stepped, natural_two, toNat_bumped, if_true, hzero]
      split <;> omega

end Steps

end Codegen6502.Proofs.Selecting.Computing
