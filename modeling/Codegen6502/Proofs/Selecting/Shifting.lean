import Codegen6502.Proofs.Processor.Shifts
import Codegen6502.Proofs.Selecting.Knowing
import Codegen6502.Proofs.Selecting.Operations

/-!
# Shifts by a constant

The sequences that lowering chooses from for a shift: a byte in A or where it is, a word bit by bit
or by a whole byte first, and zeros where nothing is left.

What one step does is a shift by one bit (`emits_shiftA`, `emits_shiftCell`, `emits_shiftPair`); the
carry goes from one byte of a word to the other one, and to the right it may be the sign.  Steps
that are repeated are a shift by their number (`emits_times`).  Every sequence gives the registers
of the result the shifted bytes of the operand, also if these are the same registers (`leaves_byte`,
`leaves_word`, `leaves_zeros`), and a count beyond the width comes to the shift that is lowered for
it (`capped_spec`).  `shift_computes` puts this together for all sequences and runs.
-/

namespace Codegen6502.Proofs.Selecting.Shifting

open Selection Growth Shapes
open Processor.Memory Processor.LineRun Processor.Straight Processor.Arithmetic Processor.Shifts
open Tracking Places Moves Courses Reading Constants Deciding Branches Computing Operations

variable {c : Context} {k : Linkage} {s t u : Store} {st st' : State} {d d' : Draft} {op : BinaryOp}
  {result : Temp} {lhs rhs : Value} {type : ValueType} {cell : UInt8} {n : ℕ}

/-! ### Single instructions -/

/-- The operands of shifts: A and virtual registers. -/
def Near (operand : Operand) : Prop := operand = .accumulator ∨ ∃ v, operand = .virtual v

theorem bus_exec_near {opcode : Opcode} {operand : Operand} (hop : isShift opcode = true)
    (h : Near operand) : (s.exec k opcode operand).machine.bus = s.machine.bus := by
  obtain rfl | ⟨v, rfl⟩ := h
  · cases opcode <;> first | rfl | cases hop
  · rfl

theorem isData_shift {opcode : Opcode} (hop : isShift opcode = true) : isData opcode = true := by
  cases opcode <;> first | rfl | cases hop

/-- An instruction that shifts does what it does to the store. -/
theorem emits_shift (d : Draft) {opcode : Opcode} {operand : Operand} (hop : isShift opcode = true)
    (hnear : Near operand) : Emits k 0 d (d.op opcode operand) (fun _ => True) fun s t =>
      t = s.exec k opcode operand := by
  have hencode : (opcode.encode operand.mode).isSome := by
    obtain rfl | ⟨v, rfl⟩ := hnear <;> cases opcode <;> first | rfl | cases hop
  refine Emits.op d (isData_shift hop) hencode fun s hs _ => ⟨?_, ?_, rfl⟩
  · refine Knowing.knows_exec (isData_shift hop) hencode ⟨hs.2.1.1, hs.2.2.1⟩ (fun _ hfar => ?_) hs.1
    obtain rfl | ⟨v, rfl⟩ := hnear <;> cases hfar
  · rw [PlainScratch, bus_exec_near hop hnear]
    exact hs.2

/-- The registers behind a shift, without the byte if that is A. -/
def shiftRegs (opcode : Opcode) (r : Registers) (byte : UInt8) : Registers :=
  (r.setFlag .c (Machine.shifted opcode byte (r.flag .c)).2).setNZ
    (Machine.shifted opcode byte (r.flag .c)).1

theorem flag_shiftRegs (opcode : Opcode) (r : Registers) (byte : UInt8) :
    (shiftRegs opcode r byte).flag .c = (Machine.shifted opcode byte (r.flag .c)).2 := by
  rw [shiftRegs, flag_setNZ, if_neg (by decide), if_neg (by decide), flag_setFlag, if_pos rfl]

/-- What a shift of A leaves in A and in the carry. -/
theorem exec_shiftA {opcode : Opcode} (hop : isShift opcode = true) (s : Store) :
    s.exec k opcode .accumulator = s.setRegs { shiftRegs opcode s.regs s.regs.a with
      a := (Machine.shifted opcode s.regs.a (s.regs.flag .c)).1 } := by
  cases opcode <;> first | rfl | cases hop

/-- What a shift of a register leaves in it and in the carry. -/
theorem exec_shiftCell {opcode : Opcode} (hop : isShift opcode = true) (s : Store) (v : VReg) :
    s.exec k opcode (.virtual v) =
      (put s (.cell v) (Machine.shifted opcode (s.cells v) (s.regs.flag .c)).1).setRegs
        (shiftRegs opcode s.regs (s.cells v)) := by
  simp only [Store.exec, cellOp_shift hop]
  rfl

/-! ### Shifts by some bits -/

/-- A step that is repeated. -/
theorem emits_times {step : Lower Unit} {R : Store → Store → Prop} {Q : ℕ → Store → Store → Prop}
    (hstep : ∀ st st' u, step c st = .ok (u, st') →
      Emits k 0 st.draft st'.draft (fun _ => True) R)
    (hzero : ∀ s, Q 0 s s) (hsucc : ∀ j s t u, R s t → Q j t u → Q (1 + j) s u) (j : ℕ) :
    ∀ {st st' : State} {u : Unit}, times j step c st = .ok (u, st') →
      Emits k 0 st.draft st'.draft (fun _ => True) (Q j) := by
  induction j with
  | zero =>
    intro st st' u h
    obtain ⟨-, rfl⟩ := pure_ok.mp h
    exact Emits.refl fun s _ _ => hzero s
  | succ j ih =>
    intro st st' u h
    obtain ⟨_, st₁, hfirst, hrest⟩ := bind_ok.mp h
    refine ((hstep _ _ _ hfirst).trans (ih hrest) fun _ _ _ _ => trivial).imp le_rfl (fun _ hs => hs) ?_
    rintro s u - - ⟨t, ht, hu⟩
    rw [Nat.add_comm]
    exact hsucc j s t u ht hu

/-- Comparing with `$80` puts the sign into the carry. -/
theorem compare_sign (a : UInt8) : decide ((0x80 : UInt8) ≤ a) = isNegative a := by
  rw [Bool.eq_iff_iff, decide_eq_true_eq, isNegative_iff, UInt8.le_iff_toNat_le]
  rfl

/-- **A is halved and keeps its sign**, and what falls off is in the carry. -/
theorem emits_halveA (d : Draft) :
    Emits k 0 d ((d.op .cmp (.byte 0x80)).bare .ror) (fun _ => True) fun s t =>
      ∃ r : Registers, t = s.setRegs r ∧
        r.a = (Machine.shifted .ror s.regs.a (isNegative s.regs.a)).1 ∧
        r.flag .c = (Machine.shifted .ror s.regs.a (isNegative s.regs.a)).2 := by
  have hcompare : Emits k 0 d (d.op .cmp (.byte 0x80)) (fun _ => True) fun s t =>
      t = s.setRegs (s.regs.compare s.regs.a 0x80) :=
    (@passes_alu k d .cmp rfl (.byte 0x80) rfl trivial).toEmits
  have hrotate := @emits_shift k (d.op .cmp (.byte 0x80)) .ror .accumulator rfl (Or.inl rfl)
  refine (hcompare.trans hrotate fun _ _ _ _ => trivial).imp le_rfl (fun _ hs => hs) ?_
  rintro s u - - ⟨t, rfl, rfl⟩
  have hcarry : (s.regs.compare s.regs.a 0x80).flag .c = isNegative s.regs.a := by
    rw [flag_compare, if_neg (by decide), if_neg (by decide), if_pos rfl, compare_sign]
  refine ⟨_, exec_shiftA rfl _, ?_, ?_⟩
  · rw [← hcarry]
    rfl
  · rw [← hcarry]
    exact flag_shiftRegs .ror _ _

/-! #### A -/

/-- Only A and the flags have changed, and A has been shifted. -/
def ShiftsA (left signed : Bool) (j : ℕ) (s t : Store) : Prop :=
  ∃ r, t = s.setRegs r ∧ IsShift left signed j [s.regs.a] [r.a]

/-- **A is shifted by one bit.** -/
theorem emits_shiftA {left arithmetic : Bool} {u : Unit} (hkind : arithmetic = true → left = false)
    (h : shiftA left arithmetic c st = .ok (u, st')) :
    Emits k 0 st.draft st'.draft (fun _ => True) (ShiftsA left arithmetic 1) := by
  cases arithmetic with
  | false =>
    cases left with
    | true =>
      cases h
      refine (@emits_shift k st.draft .asl .accumulator rfl (Or.inl rfl)).imp le_rfl (fun _ hs => hs) ?_
      rintro s t - - rfl
      exact ⟨_, exec_shiftA rfl s, .asl _ (s.regs.flag .c)⟩
    | false =>
      cases h
      refine (@emits_shift k st.draft .lsr .accumulator rfl (Or.inl rfl)).imp le_rfl (fun _ hs => hs) ?_
      rintro s t - - rfl
      exact ⟨_, exec_shiftA rfl s, .lsr _ (s.regs.flag .c)⟩
  | true =>
    obtain rfl := hkind rfl
    cases h
    refine (emits_halveA st.draft).imp le_rfl (fun _ hs => hs) ?_
    rintro s t - - ⟨r, rfl, ha, -⟩
    exact ⟨r, rfl, ha ▸ .ror s.regs.a⟩

theorem emits_shiftsA {left arithmetic : Bool} {u : Unit} (hkind : arithmetic = true → left = false)
    {j : ℕ} (h : times j (shiftA left arithmetic) c st = .ok (u, st')) :
    Emits k 0 st.draft st'.draft (fun _ => True) (ShiftsA left arithmetic j) := by
  refine emits_times (fun _ _ _ hstep => emits_shiftA hkind hstep) (fun s => ⟨s.regs, rfl, .zero _⟩) ?_ j h
  rintro j s t u ⟨r, rfl, hr⟩ ⟨q, rfl, hq⟩
  exact ⟨q, rfl, hr.trans hq⟩

/-! #### Registers in place -/

/-- Only registers have changed, and they have been shifted. -/
def ShiftsCells (vs : List VReg) (left signed : Bool) (cell : UInt8) (n j : ℕ) (s t : Store) : Prop :=
  ∃ bytes, IsShift left signed j (vs.map s.cells) bytes ∧ Computed (vs.map .cell) [] bytes cell n s t

theorem gives_cell (s : Store) (v : VReg) (byte : UInt8) :
    Gives (.cell v) byte s (put s (.cell v) byte) :=
  gives_put (show Keeps s (.cell v) from trivial) byte

theorem gives_shift {opcode : Opcode} (hop : isShift opcode = true) (s : Store) (v : VReg) :
    Gives (.cell v) (Machine.shifted opcode (s.cells v) (s.regs.flag .c)).1 s
      (s.exec k opcode (.virtual v)) := by
  rw [exec_shiftCell hop]
  exact (gives_cell s v _).setRegs _

theorem flag_exec_shift {opcode : Opcode} (hop : isShift opcode = true) (s : Store) (v : VReg) :
    (s.exec k opcode (.virtual v)).regs.flag .c =
      (Machine.shifted opcode (s.cells v) (s.regs.flag .c)).2 := by
  rw [exec_shiftCell hop]
  exact flag_shiftRegs opcode s.regs (s.cells v)

theorem computed_one {spot : Spot} {byte : UInt8} (h : Gives spot byte s t) :
    Computed [spot] [] [byte] cell n s t := by
  refine ⟨by simp [h.get], fun other _ hnot _ => ?_⟩
  rw [h.get, if_neg fun heq => hnot (List.mem_singleton.mpr heq)]

/-- What is computed behind a change that is out of sight. -/
theorem computed_behind {spots hidden : List Spot} {bytes : List UInt8}
    (h : Computed spots hidden bytes cell n t u) (hsame : Same cell n s t) :
    Computed spots hidden bytes cell n s u :=
  ⟨h.holds, fun spot hspot hnot hhidden =>
    (h.others spot hspot hnot hhidden).trans (hsame.get spot hspot)⟩

/-- Two spots that are given bytes one after the other. -/
theorem computed_two {x y : Spot} {a b : UInt8} (hne : x ≠ y) (h : Gives x a s t) (h' : Gives y b t u) :
    Computed [x, y] [] [a, b] cell n s u := by
  refine ⟨by simp [h.get, h'.get, hne], fun other _ hnot _ => ?_⟩
  simp only [List.mem_cons, List.not_mem_nil, or_false, not_or] at hnot
  rw [h'.get, if_neg hnot.2, h.get, if_neg hnot.1]

/-- Two registers that are given bytes behind a change that is out of sight. -/
theorem computed_word {v₀ v₁ : VReg} {a b : UInt8} {w : Store} (hne : v₀ ≠ v₁) (hsame : Same cell n s t)
    (h : Gives (.cell v₀) a t u) (h' : Gives (.cell v₁) b u w) :
    Computed [.cell v₀, .cell v₁] [] [a, b] cell n s w :=
  computed_behind (computed_two (fun heq => hne (Spot.cell.inj heq)) h h') hsame

/-- **A register is shifted by one bit.** -/
theorem emits_shiftCell (cell : UInt8) (n : ℕ) {left : Bool} {v : VReg} {u : Unit}
    (h : Selection.op (if left then .asl else .lsr) (.virtual v) c st = .ok (u, st')) :
    Emits k 0 st.draft st'.draft (fun _ => True) (ShiftsCells [v] left false cell n 1) := by
  cases left with
  | true =>
    cases h
    refine (@emits_shift k st.draft .asl (.virtual v) rfl (Or.inr ⟨v, rfl⟩)).imp le_rfl (fun _ hs => hs) ?_
    rintro s t - - rfl
    exact ⟨_, .asl _ _, computed_one (gives_shift rfl s v)⟩
  | false =>
    cases h
    refine (@emits_shift k st.draft .lsr (.virtual v) rfl (Or.inr ⟨v, rfl⟩)).imp le_rfl (fun _ hs => hs) ?_
    rintro s t - - rfl
    exact ⟨_, .lsr _ _, computed_one (gives_shift rfl s v)⟩

section Pairs

variable {v₀ v₁ : VReg} (hne : v₀ ≠ v₁)
include hne

/-- A shift of one register and a rotation of the other one, which takes in what has fallen off. -/
theorem emits_rotate (d : Draft) (cell : UInt8) (n : ℕ) {first second : Opcode}
    (hfirst : isShift first = true) (hsecond : isShift second = true) :
    Emits k 0 d ((d.op first (.virtual v₀)).op second (.virtual v₁)) (fun _ => True) fun s t =>
      Computed [.cell v₀, .cell v₁] []
        [(Machine.shifted first (s.cells v₀) (s.regs.flag .c)).1,
          (Machine.shifted second (s.cells v₁)
            (Machine.shifted first (s.cells v₀) (s.regs.flag .c)).2).1] cell n s t := by
  have hshift := @emits_shift k d first (.virtual v₀) hfirst (Or.inr ⟨v₀, rfl⟩)
  have hrotate := @emits_shift k (d.op first (.virtual v₀)) second (.virtual v₁) hsecond (Or.inr ⟨v₁, rfl⟩)
  refine (hshift.trans hrotate fun _ _ _ _ => trivial).imp le_rfl (fun _ hs => hs) ?_
  rintro s u - - ⟨t, rfl, rfl⟩
  have hgives := gives_shift (k := k) hfirst s v₀
  have hother : (s.exec k first (.virtual v₀)).cells v₁ = s.cells v₁ :=
    (hgives.get (.cell v₁)).trans (if_neg fun heq => hne (Spot.cell.inj heq).symm)
  have hrotated := gives_shift (k := k) hsecond (s.exec k first (.virtual v₀)) v₁
  rw [hother, flag_exec_shift hfirst] at hrotated
  exact computed_two (fun heq => hne (Spot.cell.inj heq)) hgives hrotated

/-- **A word is shifted by one bit.** -/
theorem emits_shiftPair (cell : UInt8) (n : ℕ) {left arithmetic : Bool} {u : Unit}
    (hkind : arithmetic = true → left = false)
    (h : shiftPair left arithmetic (.virtual v₀) (.virtual v₁) c st = .ok (u, st')) :
    Emits k 0 st.draft st'.draft (fun _ => True) (ShiftsCells [v₀, v₁] left arithmetic cell n 1) := by
  cases left with
  | true =>
    obtain rfl : arithmetic = false := by simpa using hkind
    cases h
    refine (emits_rotate (k := k) hne st.draft cell n rfl rfl).imp le_rfl (fun _ hs => hs) ?_
    exact fun s t _ _ ht => ⟨_, .aslRol _ _ _, ht⟩
  | false =>
    cases arithmetic with
    | false =>
      cases h
      refine (emits_rotate (k := k) hne.symm st.draft cell n rfl rfl).imp le_rfl (fun _ hs => hs) ?_
      exact fun s t _ _ ht => ⟨_, .lsrRor _ _ _, ht.swap⟩
    | true =>
      cases h
      have hload := (passes_lda (k := k) st.draft (show IsSimple (.virtual v₁) from trivial)).toEmits
      have hhalve := emits_halveA (k := k) (st.draft.op .lda (.virtual v₁))
      have hkeep := (passes_keep (k := k)
        (((st.draft.op .lda (.virtual v₁)).op .cmp (.byte 0x80)).bare .ror) v₁).toEmits
      have hrotate := @emits_shift k
        ((((st.draft.op .lda (.virtual v₁)).op .cmp (.byte 0x80)).bare .ror).op .sta (.virtual v₁))
        .ror (.virtual v₀) rfl (Or.inr ⟨v₀, rfl⟩)
      refine ((((hload.trans hhalve fun _ _ _ _ => trivial).trans hkeep fun _ _ _ _ => trivial).trans
        hrotate fun _ _ _ _ => trivial)).imp le_rfl (fun _ hs => hs) ?_
      rintro s w - - ⟨u, ⟨t, ⟨t', rfl, r, rfl, ha, hcarry⟩, rfl⟩, rfl⟩
      have hkept : Gives (.cell v₁) (Machine.shifted .ror (s.cells v₁) (isNegative (s.cells v₁))).1 s
          (put (s.setRegs r) (.cell v₁) r.a) :=
        ⟨fun other => by rw [(gives_cell _ _ _).get, get_setRegs, ha]; rfl, plain_put _ _⟩
      have hrotated := @gives_shift k .ror rfl (put (s.setRegs r) (.cell v₁) r.a) v₀
      have hother : (put (s.setRegs r) (.cell v₁) r.a).cells v₀ = s.cells v₀ :=
        Function.update_of_ne hne _ _
      rw [hother, regs_put, regs_setRegs, hcarry] at hrotated
      exact ⟨_, .rorRor _ _, (computed_two (fun heq => hne (Spot.cell.inj heq).symm) hkept hrotated).swap⟩

end Pairs

/-- Shifts in place add up. -/
theorem emits_shiftsCells {step : Lower Unit} {vs : List VReg} {left signed : Bool} {u : Unit}
    (hstep : ∀ st st' u, step c st = .ok (u, st') →
      Emits k 0 st.draft st'.draft (fun _ => True) (ShiftsCells vs left signed cell n 1))
    {j : ℕ} (h : times j step c st = .ok (u, st')) :
    Emits k 0 st.draft st'.draft (fun _ => True) (ShiftsCells vs left signed cell n j) := by
  refine emits_times hstep (fun s => ⟨_, .zero _, ⟨by rw [List.map_map]; rfl, fun _ _ _ _ => rfl⟩⟩) ?_ j h
  rintro j s t u ⟨bytes, hbytes, ht⟩ ⟨bytes', hbytes', hu⟩
  have hcells : vs.map t.cells = bytes := by
    rw [← ht.holds, List.map_map]
    rfl
  rw [hcells] at hbytes'
  exact ⟨bytes', hbytes.trans hbytes', ht.again hu⟩

/-! ### Bytes on their way

Nothing is read through a pointer here, so the scratch pointer is not set up, and a byte may lie in it. -/

section Bytes

variable {operand : Operand} {v v₀ v₁ : VReg}

/-- **A byte is loaded**, unless A holds it: nothing but the registers changes. -/
theorem emits_loadByte {u : Unit} (hsrc : IsSimple operand)
    (h : Selection.loadA (.direct operand) c st = .ok (u, st')) :
    Emits k 0 st.draft st'.draft (fun _ => True) fun s t =>
      t = s.setRegs t.regs ∧ t.regs.a = get s (operandSpot k operand) := by
  rw [modifyDraft_ok h]
  refine (emits_loadOperand (k := k) st.draft operand (isSome_encode_lda hsrc)).imp le_rfl
    (fun _ hs => hs) ?_
  rintro s t - - ⟨ht, ha⟩
  exact ⟨ht, ha.trans (value_eq hsrc)⟩

theorem emits_keepByte {u : Unit} (h : Selection.storeA (.vreg v) c st = .ok (u, st')) :
    Emits k 0 st.draft st'.draft (fun _ => True) fun s t => Gives (.cell v) s.regs.a s t := by
  have hkeep := (passes_keep (k := k) st.draft v).toEmits
  rw [show st.draft.op .sta (.virtual v) = st'.draft from Except.ok.inj (storeA_ok h)] at hkeep
  refine hkeep.imp le_rfl (fun _ hs => hs) ?_
  rintro s t - - rfl
  exact gives_cell s v _

/-- What is given behind a change of the registers. -/
theorem gives_behind {spot : Spot} {byte : UInt8} (ht : t = s.setRegs t.regs) (h : Gives spot byte t u) :
    Gives spot byte s u := by
  rw [ht] at h
  exact ⟨fun other => by rw [h.get, get_setRegs], h.plain⟩

/-- **A byte is given to a register.** -/
theorem emits_giveByte {u u' : Unit} {st₁ : State} (hsrc : IsSimple operand)
    (hload : Selection.loadA (.direct operand) c st = .ok (u, st₁))
    (hstore : Selection.storeA (.vreg v) c st₁ = .ok (u', st')) :
    Emits k 0 st.draft st'.draft (fun _ => True) fun s t =>
      Gives (.cell v) (get s (operandSpot k operand)) s t := by
  refine ((emits_loadByte (k := k) hsrc hload).trans (emits_keepByte hstore) fun _ _ _ _ => trivial).imp
    le_rfl (fun _ hs => hs) ?_
  rintro s w - - ⟨t, ⟨ht, ha⟩, hw⟩
  rw [← ha]
  exact gives_behind ht hw

/-- **A byte is loaded, shifted and kept.** -/
theorem emits_shiftByte {left arithmetic : Bool} {j : ℕ} {u u' u'' : Unit} {st₁ st₂ : State}
    (hkind : arithmetic = true → left = false) (hsrc : IsSimple operand)
    (hload : Selection.loadA (.direct operand) c st = .ok (u, st₁))
    (hshift : times j (shiftA left arithmetic) c st₁ = .ok (u', st₂))
    (hstore : Selection.storeA (.vreg v) c st₂ = .ok (u'', st')) :
    Emits k 0 st.draft st'.draft (fun _ => True) fun s t =>
      ∃ byte, IsShift left arithmetic j [get s (operandSpot k operand)] [byte] ∧
        Gives (.cell v) byte s t := by
  refine (((emits_loadByte (k := k) hsrc hload).trans (emits_shiftsA hkind hshift) fun _ _ _ _ =>
    trivial).trans (emits_keepByte hstore) fun _ _ _ _ => trivial).imp le_rfl (fun _ hs => hs) ?_
  rintro s w - - ⟨u, ⟨t, ⟨ht, ha⟩, r, rfl, hr⟩, hw⟩
  rw [ha] at hr
  refine ⟨r.a, hr, gives_behind (t := t.setRegs r) ?_ hw⟩
  rw [ht]
  rfl

/-- **A byte is moved and shifted, and zero takes the other place.** -/
theorem emits_shiftHalf {left : Bool} {j : ℕ} {u u' u'' w w' : Unit} {st₁ st₂ st₃ st₄ : State}
    (hsrc : IsSimple operand) (hload : Selection.loadA (.direct operand) c st = .ok (u, st₁))
    (hshift : times j (shiftA left false) c st₁ = .ok (u', st₂))
    (hstore : Selection.storeA (.vreg v₀) c st₂ = .ok (u'', st₃))
    (hzero : Selection.loadA (.byte 0) c st₃ = .ok (w, st₄))
    (hstore' : Selection.storeA (.vreg v₁) c st₄ = .ok (w', st')) :
    Emits k 0 st.draft st'.draft (fun _ => True) fun s u => ∃ byte t,
      IsShift left false j [get s (operandSpot k operand)] [byte] ∧
        Gives (.cell v₀) byte s t ∧ Gives (.cell v₁) 0 t u := by
  have hfirst := emits_shiftByte (k := k) (by simp) hsrc hload hshift hstore
  have hsimple : IsSimple (.byte 0) := trivial
  have hsecond := emits_giveByte (k := k) hsimple hzero hstore'
  refine (hfirst.trans hsecond fun _ _ _ _ => trivial).imp le_rfl (fun _ hs => hs) ?_
  rintro s u - - ⟨t, ⟨byte, hbyte, ht⟩, hu⟩
  exact ⟨byte, t, hbyte, ht, hu⟩

/-- A byte is copied to a register, or is there. -/
theorem emits_copyByte {srcs dsts : List ByteLoc} {u : Unit} (hsrc : IsSimple operand)
    (h : copyBytes (.direct operand :: srcs) (.vreg v :: dsts) c st = .ok (u, st')) :
    ∃ st₁, Emits k 0 st.draft st₁.draft (fun _ => True) (fun s t =>
      Gives (.cell v) (get s (operandSpot k operand)) s t) ∧ copyBytes srcs dsts c st₁ = .ok (u, st') := by
  unfold copyBytes at h
  split at h
  · obtain ⟨u₁, st₁, hload, h⟩ := bind_ok.mp h
    obtain ⟨u₂, st₂, hstore, h⟩ := bind_ok.mp h
    exact ⟨st₂, emits_giveByte hsrc hload hstore, h⟩
  · rename_i hsame
    rw [not_not] at hsame
    obtain rfl := ByteLoc.direct.inj hsame
    refine ⟨st, Emits.refl fun s _ _ => ⟨fun other => ?_, fun _ => Iff.rfl⟩, h⟩
    split
    · rename_i hother
      rw [hother]
      rfl
    · rfl

/-- **A word is copied to registers**, the low byte first. -/
theorem emits_copyWord {lo hi : Operand} {u : Unit} (hlo : IsSimple lo) (hhi : IsSimple hi)
    (hspares : Spares v₀ (.direct hi))
    (h : copyBytes [.direct lo, .direct hi] [.vreg v₀, .vreg v₁] c st = .ok (u, st')) :
    Emits k 0 st.draft st'.draft (fun _ => True) fun s u => ∃ t,
      Gives (.cell v₀) (get s (operandSpot k lo)) s t ∧
        Gives (.cell v₁) (get s (operandSpot k hi)) t u := by
  obtain ⟨st₁, hfirst, h⟩ := emits_copyByte (k := k) hlo h
  obtain ⟨st₂, hsecond, h⟩ := emits_copyByte (k := k) hhi h
  obtain ⟨-, rfl⟩ := pure_ok.mp h
  refine (hfirst.trans hsecond fun _ _ _ _ => trivial).imp le_rfl (fun _ hs => hs) ?_
  rintro s u - - ⟨t, ht, hu⟩
  refine ⟨t, ht, ?_⟩
  rwa [ht.get, if_neg fun heq => hspares (operandSpot_eq_cell heq)] at hu

end Bytes

/-! ### Operands -/

/-- Temporaries, and memory that is not behind a pointer. -/
def isNearby : Value → Bool
  | .temp _ => true
  | .memory place => isDirect place
  | .constant _ => false

/-- What is read of a nearby value is its value. -/
theorem readOf_nearby {size : ℕ} (h : isNearby lhs = true) :
    readOf c k s size lhs = bytesOf c k s size lhs := by
  refine readOf_eq fun hwraps => ?_
  cases lhs with
  | memory place => cases place <;> first | exact hwraps | cases h
  | _ => exact hwraps

/-- The bytes of a nearby value have simple operands. -/
theorem simple_valueBytes {locs : List ByteLoc} (hnear : isNearby lhs = true)
    (h : valueBytes lhs type c st = .ok (locs, st')) (hp : Pointed c st.draft.nextVReg.toNat)
    (hroom : st.draft.nextVReg.toNat + 2 < everything) :
    ∀ loc ∈ locs, ∃ operand, loc = .direct operand ∧ IsSimple operand := by
  cases lhs with
  | constant v => cases hnear
  | memory place =>
    obtain ⟨-, operands, rfl, hcells, -⟩ := placeBytes_direct hp h hnear
    intro loc hloc
    obtain ⟨operand, hoperand, rfl⟩ := List.mem_map.mp hloc
    exact ⟨operand, rfl, (hcells operand hoperand).1⟩
  | temp x =>
    intro loc hloc
    have hsupplies := valueBytes_spec h (by simp) hp le_rfl hroom
    obtain ⟨byte, rfl⟩ | ⟨v, rfl, -⟩ := hsupplies.simple loc hloc
    · exact ⟨_, rfl, trivial⟩
    · exact ⟨_, rfl, trivial⟩

/-! ### Sequences -/

/-- A sequence leaves the shifted value in the registers of the result. -/
def Leaves (c : Context) (k : Linkage) (result : Temp) (lhs : Value) (type : ValueType)
    (left signed : Bool) (j : ℕ) (base d : Draft) : Prop :=
  ∃ m, Emits k m base.fork d (fun _ => True) fun s t => ∃ bytes,
    IsShift left signed j (readOf c k s type.size.toNat lhs) bytes ∧
      Computed ((registersOf c result).map .cell) [] bytes base.pointerCell base.nextVReg.toNat s t

/-- A shift that keeps the sign goes no further than all bits but one. -/
theorem Leaves.of_capped {left arithmetic : Bool} {i j : ℕ} {base : Draft}
    (h : Leaves c k result lhs type left arithmetic i base d) (hkind : arithmetic = true → left = false)
    (hscalar : type.isScalar = true)
    (hi : i = j ∨ arithmetic = true ∧ i = 8 * type.size.toNat - 1 ∧ 8 * type.size.toNat - 1 ≤ j) :
    Leaves c k result lhs type left arithmetic j base d := by
  obtain rfl | ⟨rfl, rfl, hj⟩ := hi
  · exact h
  obtain rfl := hkind rfl
  obtain ⟨m, hemits⟩ := h
  refine ⟨m, hemits.imp le_rfl (fun _ hs => hs) ?_⟩
  rintro s t - - ⟨bytes, hbytes, ht⟩
  have hlength : (readOf c k s type.size.toNat lhs).length = type.size.toNat := length_readOf lhs
  have hne : readOf c k s type.size.toNat lhs ≠ [] := by
    have hsize := Constants.size_cases hscalar
    rw [← List.length_pos_iff]
    omega
  exact ⟨bytes, .saturate hne (by rwa [hlength]) (by rwa [hlength]), ht⟩

section Sequences

variable (hst : Operating c st result type) {left arithmetic : Bool} {j : ℕ}
include hst

/-- What lowering finds for the bytes of the operand of a candidate. -/
theorem supplied_operand {locs : List ByteLoc} {st₁ : State}
    (h : valueBytes lhs type c { st with draft := st.draft.fork } = .ok (locs, st₁)) :
    Supplied c k lhs type.size.toNat 2 { st with draft := st.draft.fork } st₁ locs :=
  supplied_valueBytes h hst.settled.pointed hst.settled.fork.tracks
    (by have hroom := hst.settled.room; change st.draft.nextVReg.toNat + _ < _; omega)

theorem simple_operand (hnear : isNearby lhs = true) {locs : List ByteLoc} {st₁ : State}
    (h : valueBytes lhs type c { st with draft := st.draft.fork } = .ok (locs, st₁)) :
    ∀ loc ∈ locs, ∃ operand, loc = .direct operand ∧ IsSimple operand :=
  simple_valueBytes hnear h hst.settled.pointed
    (by have hroom := hst.settled.room; change st.draft.nextVReg.toNat + _ < _; omega)

/-- The bytes of a nearby operand.  There is no code for those in memory, so they may lie in the
scratch pointer. -/
theorem emits_operand (hnear : isNearby lhs = true) {locs : List ByteLoc} {st₁ : State}
    (h : valueBytes lhs type c { st with draft := st.draft.fork } = .ok (locs, st₁)) :
    Emits k 2 st.draft.fork st₁.draft (fun _ => True) fun s t =>
      Same st.draft.pointerCell st.draft.nextVReg.toNat s t ∧
        heldAll k t locs = readOf c k s type.size.toNat lhs := by
  cases lhs with
  | constant value => cases hnear
  | temp x =>
    refine (supplied_operand hst h).passes.toEmits.imp le_rfl
      (fun s _ place hplace => by cases hplace) ?_
    rintro s t - - ⟨hsame, hpresents⟩
    exact ⟨hsame, hpresents.map_eq⟩
  | memory place =>
    obtain ⟨rfl, operands, rfl, -, hspots⟩ := placeBytes_direct hst.settled.pointed h hnear
    refine (Emits.refl fun s _ _ => ⟨Same.refl s, ?_⟩).imp (Nat.zero_le 2) (fun _ hs => hs)
      fun _ _ _ _ ht => ht
    have hread : readOf c k s type.size.toNat (.memory place) =
        (spotsOf c k s type.size.toNat place).map (get s) := by
      rw [spotsOf, List.map_map]
      cases place <;> first | rfl | cases hnear
    rw [hread, ← hspots k s, heldAll, List.map_map, List.map_map]
    rfl

/-- **Zeros.** -/
theorem leaves_zeros (hj : 8 * type.size.toNat ≤ j) (hkind : left = true ∨ arithmetic = false)
    (h : candidate (copyBytes (((registersOf c result).map ByteLoc.vreg).map fun _ => ByteLoc.byte 0)
      ((registersOf c result).map .vreg)) c st = .ok (d, st')) :
    Leaves c k result lhs type left arithmetic j st.draft d := by
  obtain ⟨st₁, hbuild, rfl, -⟩ := candidate_ok h
  have hroom := hst.settled.room
  have hsize := size_le_two hst.scalar
  obtain ⟨-, hpasses⟩ := passes_copyBytes (k := k) (n := st.draft.nextVReg.toNat) hbuild
    hst.settled.fork.tracks
    (fun src hsrc => by
      obtain ⟨dst, -, rfl⟩ := List.mem_map.mp hsrc
      exact ⟨⟨trivial, trivial⟩, Or.inl ⟨0, rfl⟩⟩)
    (fun dst hdst => by
      obtain ⟨v, hv, rfl⟩ := List.mem_map.mp hdst
      exact ⟨⟨trivial, hst.housed.below v hv⟩, rfl⟩) le_rfl
    (by rw [List.length_map, hst.housed.length]; change st.draft.nextVReg.toNat + _ < _; omega)
  refine ⟨_, hpasses.toEmits.imp le_rfl (fun s _ dst hdst => ?_) fun s t _ _ ht => ?_⟩
  · obtain ⟨v, -, rfl⟩ := List.mem_map.mp hdst
    exact ⟨(fun a ha => by cases ha), trivial⟩
  · have hlength : (readOf c k s type.size.toNat lhs).length = type.size.toNat := length_readOf lhs
    have hbeyond := IsShift.beyond (hlength.symm ▸ hj) hkind
    rw [hlength] at hbeyond
    refine ⟨_, hbeyond, hst.filled List.length_replicate ?_⟩
    have hzeros : heldAll k s (((registersOf c result).map ByteLoc.vreg).map fun _ => ByteLoc.byte 0) =
        List.replicate type.size.toNat 0 := by
      rw [← hst.housed.length, List.map_const', heldAll, List.map_replicate, List.length_map]
      rfl
    rw [hzeros, List.map_map] at ht
    exact ht

/-- **A byte that is shifted in A.** -/
theorem leaves_inA (hkind : arithmetic = true → left = false) (hnear : isNearby lhs = true) {v : VReg}
    (hv : registersOf c result = [v])
    (h : candidate (do
      match ← valueBytes lhs type with
      | src :: _ =>
        Selection.loadA src
        times j (shiftA left arithmetic)
        Selection.storeA (.vreg v)
      | [] => internal "value without bytes") c st = .ok (d, st')) :
    Leaves c k result lhs type left arithmetic j st.draft d := by
  obtain ⟨st₁, hbuild, rfl, -⟩ := candidate_ok h
  obtain ⟨locs, st₂, hlocs, hrest⟩ := bind_ok.mp hbuild
  have hfetched := emits_operand (k := k) hst hnear hlocs
  have hone : type.size.toNat = 1 := by rw [← hst.housed.length, hv]; rfl
  obtain ⟨src, rfl⟩ := List.length_eq_one_iff.mp
    ((supplied_operand (k := k) hst hlocs).length.trans hone)
  obtain ⟨operand, rfl, hsimple⟩ := simple_operand hst hnear hlocs src (by simp)
  obtain ⟨_, st₃, hload, hrest⟩ := bind_ok.mp hrest
  obtain ⟨_, st₄, hshift, hstore⟩ := bind_ok.mp hrest
  have hshifted := emits_shiftByte (k := k) hkind hsimple hload hshift hstore
  refine ⟨_, (hfetched.trans hshifted fun _ _ _ _ => trivial).imp le_rfl (fun _ hs => hs) ?_⟩
  rintro s u - - ⟨t, ⟨hsame, hread⟩, byte, hbyte, hu⟩
  rw [show [get t (operandSpot k operand)] = _ from hread] at hbyte
  rw [hv]
  exact ⟨[byte], hbyte, computed_behind (computed_one hu) hsame⟩

/-- **A byte that is shifted in place.** -/
theorem leaves_inPlace {v : VReg} (hv : registersOf c result = [v])
    (h : candidate (times j (Selection.op (if left then .asl else .lsr) (.virtual v))) c st =
      .ok (d, st')) :
    Leaves c k result (.temp result) type left false j st.draft d := by
  obtain ⟨st₁, hbuild, rfl, -⟩ := candidate_ok h
  have hone : type.size.toNat = 1 := by rw [← hst.housed.length, hv]; rfl
  have hshifted := emits_shiftsCells (k := k)
    (fun _ _ _ hstep => emits_shiftCell st.draft.pointerCell st.draft.nextVReg.toNat hstep) hbuild
  refine ⟨_, hshifted.imp le_rfl (fun _ _ => trivial) ?_⟩
  rintro s t - - ⟨bytes, hbytes, ht⟩
  have hread : readOf c k s type.size.toNat (.temp result) = [v].map s.cells := by
    change bytesOf c k s type.size.toNat (.temp result) = _
    rw [bytesOf_temp, hv, hone]
    rfl
  rw [hread, hv]
  exact ⟨bytes, hbytes, ht⟩

/-- **A byte that is shifted**: in A, or where it is. -/
theorem leaves_byte (hkind : arithmetic = true → left = false) (hnear : isNearby lhs = true) {v : VReg}
    (hv : registersOf c result = [v]) {ds : List Draft}
    (h : shiftByte result lhs type left arithmetic j (.vreg v) c st = .ok (ds, st')) :
    st'.draft = st.draft ∧ ∀ k, ∀ d ∈ ds, Leaves c k result lhs type left arithmetic j st.draft d := by
  obtain ⟨inA, st₁, hinA, h₁⟩ := bind_ok.mp h
  have hdraft := draft_candidate hinA
  split at h₁
  · rename_i hself
    obtain ⟨inPlace, st₂, hinPlace, hpure⟩ := bind_ok.mp h₁
    obtain ⟨rfl, rfl⟩ := pure_ok.mp hpure
    simp only [Bool.and_eq_true, decide_eq_true_eq, Bool.not_eq_true'] at hself
    obtain ⟨rfl, rfl⟩ := hself
    have hst₁ : Operating c st₁ result type := ⟨hdraft ▸ hst.settled, hst.scalar, hdraft ▸ hst.housed⟩
    refine ⟨(draft_candidate hinPlace).trans hdraft, fun k d hd => ?_⟩
    rcases List.mem_pair.mp hd with rfl | rfl
    · exact leaves_inA hst hkind hnear hv hinA
    · exact hdraft ▸ leaves_inPlace hst₁ hv hinPlace
  · obtain ⟨rfl, rfl⟩ := pure_ok.mp h₁
    refine ⟨hdraft, fun k d hd => ?_⟩
    obtain rfl := List.mem_singleton.mp hd
    exact leaves_inA hst hkind hnear hv hinA

section Words

variable {lo hi : ByteLoc} {st₁ : State} (hnear : isNearby lhs = true)
  (hlocs : valueBytes lhs type c { st with draft := st.draft.fork } = .ok ([lo, hi], st₁))

include hnear hlocs

/-- The bytes of a word, given to the registers of the result. -/
theorem emits_word {v₀ v₁ : VReg} (hv : registersOf c result = [v₀, v₁]) {st₂ : State} {u : Unit}
    (hcopy : copyBytes [lo, hi] [.vreg v₀, .vreg v₁] c st₁ = .ok (u, st₂)) :
    Emits k 2 st.draft.fork st₂.draft (fun _ => True) fun s t =>
      Computed [.cell v₀, .cell v₁] [] (readOf c k s type.size.toNat lhs) st.draft.pointerCell
        st.draft.nextVReg.toNat s t := by
  have hsimple := simple_operand hst hnear hlocs
  obtain ⟨lo, rfl, hlo⟩ := hsimple lo (by simp)
  obtain ⟨hi, rfl, hhi⟩ := hsimple hi (by simp)
  have hne : v₀ ≠ v₁ := by simpa [hv] using hst.housed.nodup
  have hranked := (supplied_operand (k := k) hst hlocs).ranked
  have hseq := hst.housed.sequenced hranked hranked fun loc hloc => by
    obtain ⟨operand, rfl, -⟩ := hsimple loc ((List.mem_append.mp hloc).elim id id)
    rfl
  rw [hv] at hseq
  have hcopied := emits_copyWord (k := k) hlo hhi
    (hseq 0 1 v₀ (.direct hi) Nat.one_pos rfl (Or.inl rfl)) hcopy
  refine ((emits_operand (k := k) hst hnear hlocs).trans hcopied fun _ _ _ _ => trivial).imp le_rfl
    (fun _ hs => hs) ?_
  rintro s u - - ⟨t, ⟨hsame, hread⟩, t', ht, hu⟩
  rw [← hread]
  exact computed_word hne hsame ht hu

/-- One byte of a word, shifted on its way to the other place. -/
theorem emits_half {src : ByteLoc} (hsrc : src ∈ [lo, hi]) {x y : VReg}
    {u : Unit} (h : (do
      Selection.loadA src
      times j (shiftA left false)
      Selection.storeA (.vreg x)
      Selection.loadA (.byte 0)
      Selection.storeA (.vreg y)) c st₁ = .ok (u, st')) :
    Emits k 2 st.draft.fork st'.draft (fun _ => True) fun s w => ∃ t t' byte,
      Same st.draft.pointerCell st.draft.nextVReg.toNat s t ∧
        heldAll k t [lo, hi] = readOf c k s type.size.toNat lhs ∧
        IsShift left false j [held k t src] [byte] ∧ Gives (.cell x) byte t t' ∧
        Gives (.cell y) 0 t' w := by
  obtain ⟨_, st₂, hload, h⟩ := bind_ok.mp h
  obtain ⟨_, st₃, hshift, h⟩ := bind_ok.mp h
  obtain ⟨_, st₄, hstore, h⟩ := bind_ok.mp h
  obtain ⟨_, st₅, hzero, hstore'⟩ := bind_ok.mp h
  obtain ⟨operand, rfl, hsimple⟩ := simple_operand hst hnear hlocs src hsrc
  have hmoved := emits_shiftHalf (k := k) hsimple hload hshift hstore hzero hstore'
  refine ((emits_operand (k := k) hst hnear hlocs).trans hmoved fun _ _ _ _ => trivial).imp le_rfl
    (fun _ hs => hs) ?_
  rintro s w - - ⟨t, ⟨hsame, hread⟩, byte, t', hbyte, ht, hw⟩
  exact ⟨t, t', byte, hsame, hread, hbyte, ht, hw⟩

end Words

/-- **A word that is shifted.** -/
theorem leaves_word (hkind : arithmetic = true → left = false) (hnear : isNearby lhs = true) {v₀ v₁ : VReg}
    (hv : registersOf c result = [v₀, v₁])
    (h : shiftWord lhs type left arithmetic j (.vreg v₀) (.vreg v₁) c st = .ok (d, st')) :
    Leaves c k result lhs type left arithmetic j st.draft d := by
  obtain ⟨st₁, hbuild, rfl, -⟩ := candidate_ok h
  obtain ⟨locs, st₂, hlocs, hrest⟩ := bind_ok.mp hbuild
  have htwo : type.size.toNat = 2 := by rw [← hst.housed.length, hv]; rfl
  have hne : v₀ ≠ v₁ := by simpa [hv] using hst.housed.nodup
  obtain ⟨lo, hi, rfl⟩ := List.length_eq_two.mp
    ((supplied_operand (k := k) hst hlocs).length.trans htwo)
  simp only at hrest
  split at hrest
  · rename_i hmoves
    simp only [ge_iff_le, Bool.and_eq_true, decide_eq_true_eq, Bool.not_eq_true'] at hmoves
    obtain ⟨hj, rfl⟩ := hmoves
    obtain ⟨i, rfl⟩ := Nat.exists_eq_add_of_le hj
    rw [Nat.add_sub_cancel_left] at hrest
    cases left with
    | true =>
      refine ⟨_, (emits_half (k := k) hst hnear hlocs (by simp) hrest).imp le_rfl (fun _ hs => hs) ?_⟩
      rintro s u - - ⟨t, t', byte, hsame, hread, hbyte, ht, hu⟩
      rw [← hread, hv]
      exact ⟨[0, byte], .moveUp hbyte, (computed_word hne.symm hsame ht hu).swap⟩
    | false =>
      refine ⟨_, (emits_half (k := k) hst hnear hlocs (by simp) hrest).imp le_rfl (fun _ hs => hs) ?_⟩
      rintro s u - - ⟨t, t', byte, hsame, hread, hbyte, ht, hu⟩
      rw [← hread, hv]
      exact ⟨[byte, 0], .moveDown hbyte, computed_word hne hsame ht hu⟩
  · obtain ⟨_, st₃, hcopy, hshift⟩ := bind_ok.mp hrest
    have hcopied := emits_word (k := k) hst hnear hlocs hv hcopy
    have hshifted := emits_shiftsCells (k := k) (fun _ _ _ hstep =>
      emits_shiftPair hne st.draft.pointerCell st.draft.nextVReg.toNat hkind hstep) hshift
    refine ⟨_, (hcopied.trans hshifted fun _ _ _ _ => trivial).imp le_rfl (fun _ hs => hs) ?_⟩
    rintro s u - - ⟨t, ht, bytes, hbytes, hu⟩
    have hcells : [v₀, v₁].map t.cells = readOf c k s type.size.toNat lhs := ht.holds
    rw [hcells] at hbytes
    rw [hv]
    exact ⟨bytes, hbytes, ht.again hu⟩

end Sequences

/-! ### Counts -/

/-- The count that is lowered: a shift that keeps the sign goes no further than all bits but one. -/
def capped (arithmetic : Bool) (type : ValueType) (count : Int64) : Int64 :=
  if arithmetic && count > Int64.ofNat (bitsOf type) - 1 then Int64.ofNat (bitsOf type) - 1 else count

theorem toInt_bits (hscalar : type.isScalar = true) :
    (Int64.ofNat (bitsOf type)).toInt = 8 * type.size.toNat ∧
      (Int64.ofNat (bitsOf type) - 1).toInt = 8 * type.size.toNat - 1 := by
  obtain rfl | rfl | rfl | rfl | rfl := scalar_cases hscalar <;> decide

/-- **A shift by a count** is a shift by what is lowered, or leaves zeros. -/
theorem capped_spec (hscalar : type.isScalar = true) (arithmetic : Bool) {count : Int64} :
    if capped arithmetic type count ≥ Int64.ofNat (bitsOf type) then
      arithmetic = false ∧ 8 * type.size.toNat ≤ count.toInt.toNat
    else (capped arithmetic type count).toInt.toNat = count.toInt.toNat ∨
      arithmetic = true ∧ (capped arithmetic type count).toInt.toNat = 8 * type.size.toNat - 1 ∧
        8 * type.size.toNat - 1 ≤ count.toInt.toNat := by
  obtain ⟨hbits, hlast⟩ := toInt_bits hscalar
  have hsize := Constants.size_cases hscalar
  unfold capped
  cases arithmetic with
  | false =>
    simp only [Bool.false_and, Bool.false_eq_true, if_false, ge_iff_le, Int64.le_iff_toInt_le, hbits]
    split
    · exact ⟨trivial, by omega⟩
    · exact Or.inl trivial
  | true =>
    simp only [Bool.true_and, decide_eq_true_eq, gt_iff_lt, Int64.lt_iff_toInt_lt, hlast, ge_iff_le,
      Int64.le_iff_toInt_le, hbits]
    by_cases hover : (8 * type.size.toNat : ℤ) - 1 < count.toInt
    · rw [if_pos hover, hlast, if_neg (by omega)]
      exact Or.inr ⟨trivial, by omega, by omega⟩
    · rw [if_neg hover, if_neg (by omega)]
      exact Or.inl rfl

/-! ### The sequences that lowering chooses from -/

/-- The sequences for a shift. -/
def shiftChoices (node : Node) (result : Temp) (op : BinaryOp) (lhs rhs : Value) (type : ValueType) :
    Lower (List Draft) := do
  let some count := rhs.constant? | unsupported node
  if count < 0 then invalid (FoldError.message (.negativeShift count))
  let arithmetic := op = .shr && type.isSigned
  let dst ← destination result
  if capped arithmetic type count ≥ Int64.ofNat (bitsOf type) then
    return [← candidate (copyBytes (dst.map fun _ => .byte 0) dst)]
  else
    let k := (capped arithmetic type count).toInt.toNat
    match dst with
    | [byte] => shiftByte result lhs type (op = .shl) arithmetic k byte
    | [lo, hi] => return [← shiftWord lhs type (op = .shl) arithmetic k lo hi]
    | _ => internal "shift of unexpected width"

theorem lowerShift_eq (node : Node) : lowerShift node result op lhs rhs type = (do
    commitCheapest (← shiftChoices node result op lhs rhs type)) := by
  unfold lowerShift shiftChoices
  rcases rhs.constant? with _ | count
  · rfl
  · simp only
    split
    · rfl
    · simp only [bind_assoc]
      refine congrArg _ (funext fun dst => ?_)
      change (if capped (op = .shr && type.isSigned) type count ≥ Int64.ofNat (bitsOf type) then _
        else _) = _
      split
      · rw [bind_assoc]
        exact congrArg _ (funext fun d => rfl)
      · rcases dst with _ | ⟨lo, _ | ⟨hi, _ | ⟨other, rest⟩⟩⟩
        · rfl
        · rfl
        · simp only [bind_assoc]
          exact congrArg _ (funext fun d => rfl)
        · rfl

theorem lowerNode_shift_ok {next : Option Node} {taken : Bool} {count : Int64}
    (hop : op = .shl ∨ op = .shr) (hnear : isNearby lhs = true)
    (h : lowerNode (.binary result op lhs (.constant count) type) next c st = .ok (taken, st')) :
    taken = false ∧ type.isScalar = true ∧ ∃ choices st₁,
      shiftChoices (.binary result op lhs (.constant count) type) result op lhs (.constant count) type
        c st = .ok (choices, st₁) ∧ ∃ d ∈ choices, st' = { st₁ with draft := st₁.draft.commit d } := by
  have hlower : lowerBinary (.binary result op lhs (.constant count) type) result op lhs (.constant count)
      type next c st = .ok (taken, st') := h
  have hconstant : lhs.constant? = none := by cases lhs <;> first | rfl | cases hnear
  obtain ⟨_, st₂, hcheck, hrest⟩ := bind_ok.mp hlower
  obtain ⟨hscalar, rfl⟩ := checkScalar_ok hcheck
  have hshift : (do
      lowerShift (.binary result op lhs (.constant count) type) result op lhs (.constant count) type
      return false : Lower Bool) c st₂ = .ok (taken, st') := by
    rw [hconstant] at hrest
    obtain rfl | rfl := hop <;> exact hrest
  rw [lowerShift_eq] at hshift
  obtain ⟨_, st₃, hcommit, hpure⟩ := bind_ok.mp hshift
  obtain ⟨rfl, rfl⟩ := pure_ok.mp hpure
  obtain ⟨choices, st₄, hchoices, hcommit⟩ := bind_ok.mp hcommit
  exact ⟨rfl, hscalar, choices, st₄, hchoices, commitCheapest_ok hcommit⟩

/-- **Every sequence leaves the shifted value.** -/
theorem leaves_choices {node : Node} {count : Int64} {choices : List Draft}
    (hst : Operating c st result type) (hop : op = .shl ∨ op = .shr) (hnear : isNearby lhs = true)
    (h : shiftChoices node result op lhs (.constant count) type c st = .ok (choices, st')) :
    0 ≤ count ∧ st'.draft = st.draft ∧ ∀ k, ∀ d ∈ choices,
      Leaves c k result lhs type (op = .shl) (op = .shr && type.isSigned) count.toInt.toNat
        st.draft d := by
  have hkind : (op = .shr && type.isSigned) = true → decide (op = .shl) = false := by
    obtain rfl | rfl := hop <;> simp
  unfold shiftChoices at h
  simp only [Value.constant?] at h
  split at h
  · cases h
  rename_i hcount
  obtain ⟨dst, st₁, hdst, h₁⟩ := bind_ok.mp h
  obtain ⟨rfl, rfl⟩ := destination_ok hdst
  have hspec := @capped_spec type hst.scalar (op = .shr && type.isSigned) count
  refine ⟨Int64.not_lt.mp hcount, ?_⟩
  split at h₁
  · rename_i hall
    rw [if_pos hall] at hspec
    obtain ⟨d, st₂, hd, hpure⟩ := bind_ok.mp h₁
    obtain ⟨rfl, rfl⟩ := pure_ok.mp hpure
    refine ⟨draft_candidate hd, fun k d' hd' => ?_⟩
    obtain rfl := List.mem_singleton.mp hd'
    exact leaves_zeros hst hspec.2 (Or.inr hspec.1) hd
  · rename_i hsome
    rw [if_neg hsome] at hspec
    -- The registers of the result are one or two, as the type has it.
    have hlength := hst.housed.length
    rcases hv : registersOf c result with _ | ⟨v₀, _ | ⟨v₁, _ | ⟨v₂, rest⟩⟩⟩
    case nil | cons.cons.cons =>
      rw [hv] at h₁
      cases h₁
    case cons.nil =>
      rw [hv] at h₁
      obtain ⟨hdraft, hleaves⟩ := leaves_byte hst hkind hnear hv h₁
      exact ⟨hdraft, fun k d hd => (hleaves k d hd).of_capped hkind hst.scalar hspec⟩
    case cons.cons.nil =>
      rw [hv] at h₁
      obtain ⟨d, st₂, hd, hpure⟩ := bind_ok.mp h₁
      obtain ⟨rfl, rfl⟩ := pure_ok.mp hpure
      refine ⟨draft_candidate hd, fun k d' hd' => ?_⟩
      obtain rfl := List.mem_singleton.mp hd'
      exact (leaves_word hst hkind hnear hv hd).of_capped hkind hst.scalar hspec

/-! ### Shifts compute what they should -/

/-- Bytes are what others come to that are shifted: modulo their size, and from all bits on zero or,
to the right with a sign, all bits that sign. -/
structure ShiftedBy (op : BinaryOp) (type : ValueType) (count : ℕ) (before after : List UInt8) : Prop where
  exact : (natural after : ℤ) =
    shiftOf (op = .shl) (number type.isSigned before) count % 256 ^ type.size.toNat
  beyond : 8 * type.size.toNat ≤ count → after = List.replicate type.size.toNat
    (if op = .shr ∧ type.isSigned = true ∧ number true before < 0 then 0xFF else 0)

theorem shiftedBy_of_isShift (hscalar : type.isScalar = true) (hop : op = .shl ∨ op = .shr) {j : ℕ}
    {before after : List UInt8} (hlength : before.length = type.size.toNat)
    (h : IsShift (op = .shl) (op = .shr && type.isSigned) j before after) :
    ShiftedBy op type j before after := by
  have hshift : IsShift (op = .shl) type.isSigned j before after := by
    obtain rfl | rfl := hop
    · exact IsShift.relabel h type.isSigned
    · simpa using h
  have hright : decide (op = .shl) = false ↔ op = .shr := by obtain rfl | rfl := hop <;> simp
  refine ⟨by rw [hshift.natural_eq, hlength], fun hj => ?_⟩
  have hne : before ≠ [] := by
    have hsize := Constants.size_cases hscalar
    rw [← List.length_pos_iff]
    omega
  rw [hshift.eq_replicate hne (by rwa [hlength]), hlength]
  simp only [hright]

/-- **A run through a sequence** ends behind it, with the shifted value in the result. -/
theorem Leaves.run {left signed : Bool} {j : ℕ} {base : Draft} {e : Environment} {front back : List Line}
    {x : Config} (h : Leaves c e.linkage result lhs type left signed j base d)
    (calls : Std.TreeMap ℕ CallTarget) (hx : x.line = front.length) (hs : Ready e.linkage base x.store) :
    ∃ y bytes, run e (front ++ d.code ++ back) calls d.code.length x = some y ∧
      y.line = front.length + d.code.length ∧
      Computed ((registersOf c result).map .cell) [] bytes base.pointerCell base.nextVReg.toNat
        x.store y.store ∧
      IsShift left signed j (readOf c e.linkage x.store type.size.toNat lhs) bytes := by
  obtain ⟨m, hemits⟩ := h
  obtain ⟨y, hrun, hline, bytes, hbytes, hcomputed⟩ := hemits.run calls hx hs trivial
  exact ⟨y, bytes, hrun, hline, hcomputed, hbytes⟩

/-- **A shift by a constant is exact.**  The count is not negative, and every sequence that lowering
chooses from leads to the point behind it; there the result holds the shifted value, and nothing
else has changed but the scratch pointer and new registers.  The operand is a temporary of any
width, that of the result among them, or memory that is not behind a pointer, wherever it is. -/
theorem shift_computes {next : Option Node} {taken : Bool} {count : Int64} (hst : Prepared c st)
    (htracks : TracksA st.draft) (hroom : st.draft.nextVReg.toNat + 16 < 2 ^ 32)
    (hnode : .binary result op lhs (.constant count) type ∈ c.function.body)
    (hop : op = .shl ∨ op = .shr) (hnear : isNearby lhs = true)
    (h : lowerNode (.binary result op lhs (.constant count) type) next c st = .ok (taken, st')) :
    taken = false ∧ 0 ≤ count ∧ ∃ choices st₁,
      shiftChoices (.binary result op lhs (.constant count) type) result op lhs (.constant count) type
        c st = .ok (choices, st₁) ∧
      (∃ d ∈ choices, st'.draft = st.draft.commit d) ∧
      ∀ d ∈ choices, ∀ (e : Environment) (calls : Std.TreeMap ℕ CallTarget) (front back : List Line)
        (x : Config), x.line = front.length → Ready e.linkage st.draft x.store →
        ∃ y bytes, run e (front ++ d.code ++ back) calls d.code.length x = some y ∧
          y.line = front.length + d.code.length ∧
          Computed ((registersOf c result).map .cell) [] bytes st.draft.pointerCell
            st.draft.nextVReg.toNat x.store y.store ∧
          ShiftedBy op type count.toInt.toNat (bytesOf c e.linkage x.store type.size.toNat lhs) bytes := by
  obtain ⟨htaken, hscalar, choices, st₁, hchoices, d, hd, rfl⟩ := lowerNode_shift_ok hop hnear h
  have hoperating : Operating c st result type :=
    ⟨⟨hst.facts.2.1, htracks, hroom⟩, hscalar, housed_of_prepared hst hnode rfl⟩
  obtain ⟨hcount, hdraft, hleaves⟩ := leaves_choices hoperating hop hnear hchoices
  refine ⟨htaken, hcount, choices, st₁, hchoices, ⟨d, hd, by rw [hdraft]⟩,
    fun d' hd' e calls front back x hx hs => ?_⟩
  obtain ⟨y, bytes, hrun, hline, hcomputed, hbytes⟩ := (hleaves e.linkage d' hd').run calls hx hs
  refine ⟨y, bytes, hrun, hline, hcomputed, ?_⟩
  rw [← readOf_nearby hnear]
  exact shiftedBy_of_isShift hscalar hop (length_readOf lhs) hbytes

/-! #### A byte with a sign that becomes a word -/

/-- An eighth of a byte with a sign, as a word. -/
def eighth : Node := .binary 1 .shr (.temp 0) (.constant 3) .i16

def eighthContext : Context :=
  { followContext with
    function := { followContext.function with body := [.copy 0 (.constant (-100)) .i8, eighth] }
    temps := (∅ : Std.TreeMap Temp TempInfo).insertMany [(0, ⟨[⟨0⟩], .i8⟩), (1, ⟨[⟨1⟩, ⟨2⟩], .i16⟩)] }

def eighthState : State := { draft := .create 0x90 3, nextLabel := 0 }

/-- The byte is -100. -/
def eighthStore : Store where
  machine := Machine.create 0 0 0xD301
  cells v := if v.index = 0 then 0x9C else 0
  frame _ := 0

/-- An eighth of -100 is -13, rounded down. -/
theorem eighth_rounded : ∃ st' d, lowerNode eighth none eighthContext eighthState = .ok (false, st') ∧
    st'.draft = eighthState.draft.commit d ∧
    ∀ (e : Environment) (calls : Std.TreeMap ℕ CallTarget), e.linkage = plainLinkage →
      ∃ y, run e d.code calls d.code.length { line := 0, store := eighthStore } = some y ∧
        [y.store.cells ⟨1⟩, y.store.cells ⟨2⟩] = [0xF3, 0xFF] := by
  obtain ⟨st', hok⟩ : ∃ st', lowerNode eighth none eighthContext eighthState = .ok (false, st') := ⟨_, rfl⟩
  have hprepared : Prepared eighthContext eighthState := by
    refine ⟨⟨⟨eighthContext.temps, 3⟩, rfl, rfl, by decide⟩, fun v hv => ?_, by decide, by decide⟩
    cases hv
  obtain ⟨-, -, choices, st₁, -, ⟨d, hd, hcommit⟩, hall⟩ := shift_computes hprepared
    (fun _ h => (List.not_mem_nil h).elim) (by decide)
    (List.mem_cons_of_mem _ (List.mem_singleton.mpr rfl)) (Or.inr rfl) rfl hok
  refine ⟨st', d, hok, hcommit, fun e calls he => ?_⟩
  have hready : Ready e.linkage eighthState.draft eighthStore :=
    ⟨knows_nothing, ⟨by decide, by decide⟩, ⟨by decide, by decide⟩⟩
  obtain ⟨y, bytes, hrun, -, hcomputed, hshifted⟩ := hall d hd e calls [] []
    { line := 0, store := eighthStore } rfl hready
  rw [List.nil_append, List.append_nil] at hrun
  have hbytes : [y.store.cells ⟨1⟩, y.store.cells ⟨2⟩] = bytes := hcomputed.holds
  have hexact := hshifted.exact
  rw [he] at hexact
  refine ⟨y, hrun, hbytes.trans (natural_inj (hbytes ▸ rfl) (Int.ofNat.inj (hexact.trans ?_)))⟩
  decide

end Codegen6502.Proofs.Selecting.Shifting
