import Codegen6502.Proofs.Allocating.Blockwise

/-!
# Lines that control passes through

`data_block`: what such a line does to the values and frame bytes of a function, its block does to
their places, and the same writes to memory are seen.  The line may be

* an access to a value (`value_block`), which its block makes at the location of the value;
* an access to a frame byte (`Placing.frame_block`);
* any other instruction, which stands in the block as it is: `calm_block` if it leaves the
  stack alone, `stack_block` if not.
-/

namespace Codegen6502.Proofs.Allocating.DataLines

open Allocation Processor.Memory Processor.LineRun Processor.Straight Processor.Agreement
open Processor.Passages Liveness.Flow Liveness.Intervals Assignment Blocks Housing Blockwise

variable {selected : SelectedCode} {callClobbers : Std.TreeMap ℕ Clobbers} {exit : RegSet}
  {live : Liveness} {a : AllocatedCode} {block : ℕ → List Line} {view : ℕ → StackView} {base : UInt8}
  {e : Environment} {k : ℕ} {s : Store} {d : Config} {op : Opcode} {operand : Operand}

/-! ### What is seen -/

theorem writeEvents_kept {m : Machine} (h : op.writesMemory = false) :
    writeEvents e op operand m = [] := by
  unfold writeEvents
  rw [h, if_neg Bool.false_ne_true]

/-- Nothing is seen of an access to a value or a frame byte. -/
theorem writeEvents_apart {m : Machine} (h : e.linkage.effective m operand = .none) :
    writeEvents e op operand m = [] := by
  unfold writeEvents
  rw [h]
  simp

/-! ### Blocks of one line -/

section Single

variable (hp : Placing selected callClobbers exit live a block view base)

include hp

/-- X behind an instruction that stands in the code as it is: where the view of the stack counts on
it, it is the stack pointer as it was at some depth. -/
theorem indexed_after (hline : selected.code[k]? = some line)
    (hs : Stands selected live a block view base k s d) (hdata : isData op = true)
    (hview : view (k + 1) = (view k).after (.op op operand)) {t : EffectiveOperand}
    {depth : ℤ} (hdepth : (view (k + 1)).indexed = some depth) :
    ((d.store.machine.execute op t).regs.x.toNat : ℤ) + depth = base.toNat := by
  rw [hview] at hdepth
  by_cases htsx : op = .tsx
  · subst htsx
    cases hdepth
    obtain ⟨hsp, -, -⟩ := hp.stack (List.getElem?_eq_some_iff.mp hline).1.le hs.comes
    change (d.store.machine.regs.sp.toNat : ℤ) + _ = _
    rw [← hs.housed.regs.sp]
    exact hsp
  · have hkept : (op.effects operand).writes.x = false ∧ (view k).indexed = some depth := by
      unfold StackView.after at hdepth
      dsimp only at hdepth
      rw [if_neg htsx] at hdepth
      cases hwrites : (op.effects operand).writes.x with
      | true =>
        rw [if_pos (show (Line.op op operand).effects.writes.x = true from hwrites)] at hdepth
        cases hdepth
      | false =>
        rw [if_neg (show ¬ (Line.op op operand).effects.writes.x = true by
          rw [show (Line.op op operand).effects.writes.x = false from hwrites]; simp)] at hdepth
        exact ⟨rfl, hdepth⟩
    have hkeep : (d.store.machine.execute op t).regs.x = d.store.machine.regs.x :=
      execute_keeps operand hdata d.store.machine (r := .x) (by simp) hkept.1
    rw [hkeep]
    exact hs.indexed depth hkept.2

/-- **A block of one instruction** that control passes through. -/
theorem single (hline : selected.code[k]? = some line)
    (hs : Stands selected live a block view base k s d) {s' : Store} {events : List Event}
    (hblock : block k = [.op op operand]) (hview : view (k + 1) = (view k).after (.op op operand))
    (hdata : isData op = true) (hencode : (op.encode operand.mode).isSome)
    (hmachine : (d.store.exec e.linkage op operand).machine =
      d.store.machine.execute op (e.linkage.effective d.store.machine operand))
    (hevents : writeEvents e op operand d.store.machine = events)
    (hhoused : Housed (houseOf selected a base) (After live k) s'
      (d.store.machine.execute op (e.linkage.effective d.store.machine operand))) :
    ∃ d', Behind e selected live a block view base k s' (d.trace ++ events) d d' := by
  have hget : a.code[d.line]? = some (.op op operand) := by
    rw [hs.line]
    exact hp.getElem? hline (j := 0) (by rw [hblock]; rfl)
  refine ⟨_, reaches_pass hget hdata hencode, ?_, congrArg (d.trace ++ ·) hevents, rfl, ?_,
    fun depth hdepth => ?_⟩
  · rw [offset_succ, hblock, ← hs.line]
    rfl
  · change Housed _ _ _ (d.store.exec e.linkage op operand).machine
    rw [hmachine]
    exact hhoused
  · change (((d.store.exec e.linkage op operand).machine.regs.x.toNat : ℤ)) + _ = _
    rw [hmachine]
    exact indexed_after hp hline hs hdata hview hdepth

end Single

/-! ### Accesses to values -/

theorem exec_sta_virtual (k : Linkage) (s : Store) (v : VReg) :
    s.exec k .sta (.virtual v) = s.setCell v s.regs.a := by
  simp only [Store.exec, cellOp_sta]
  rfl

/-- A load of a value gives A, N and Z. -/
theorem item_of_lda {v : VReg} {item : Item}
    (h : (Line.op .lda (.virtual v)).defs.contains item = true) : item = .reg .a ∨ item = .nz := by
  have hmem : item ∈ [Item.reg .a, .nz] := List.contains_iff_mem.mp h
  simpa using hmem

/-- A store of a value gives the value. -/
theorem item_of_sta {v : VReg} {item : Item}
    (h : (Line.op .sta (.virtual v)).defs.contains item = true) : item = .vreg v := by
  have hmem : item ∈ [Item.vreg v] := List.contains_iff_mem.mp h
  simpa using hmem

/-- What is live behind a line was live in front of it or is given by it. -/
theorem before_or_given (hp : Placing selected callClobbers exit live a block view base)
    (hline : selected.code[k]? = some line) {item : Item} (hitem : After live k item) :
    Before live k item ∨ line.defs.contains item = true := by
  cases hdefs : line.defs.contains item with
  | true => exact .inr rfl
  | false => exact .inl (hp.solves.passes hline hitem hdefs)

section Values

variable (hp : Placing selected callClobbers exit live a block view base) {v : VReg} {r : Register}

include hp

/-- A value that is loaded is held in its location. -/
theorem loaded_held (hline : selected.code[k]? = some (.op .lda (.virtual v)))
    (hs : Stands selected live a block view base k s d) {location : Location}
    (hlocation : a.locations[v.index]? = some location) :
    s.cells v = (houseOf selected a base).held d.store.machine location := by
  refine hs.housed.cells v location (hp.solves.uses hline ?_) hlocation
  rw [uses_op (by simp), itemsOf_vreg]
  simp [Opcode.readsMemory, Operand.vreg?]

/-- No other value that is live behind a load is in the accumulator. -/
theorem not_in_accumulator (hline : selected.code[k]? = some (.op .lda (.virtual v)))
    (hr : r ≠ .a) (hlocation : a.locations[v.index]? = some (.reg r)) {w : VReg}
    (hw : After live k (.vreg w)) : a.locations[w.index]? ≠ some (.reg .a) := by
  intro hwa
  by_cases hvw : v = w
  · subst hvw
    rw [hlocation] at hwa
    cases hwa
    exact hr rfl
  · have hdefs := hp.not_written hline hw (fun heq => hvw (by cases heq; rfl)) hwa
    cases hdefs

/-- No other value that is live behind a store has the same location. -/
theorem not_in_location {op : Opcode} (hline : selected.code[k]? = some (.op op (.virtual v)))
    {location : Location} (hlocation : a.locations[v.index]? = some location) {w : VReg}
    (hw : After live k (.vreg w)) (hne : w ≠ v) : a.locations[w.index]? ≠ some location :=
  hp.apart hline (hp.concerns_access hline) (.inr (.inr (.inr hw))) (Ne.symm hne) hlocation

variable (hs : Stands selected live a block view base k s d)

include hs

/-- An access that disappears. -/
theorem gone_block (hline : selected.code[k]? = some (.op op (.virtual v)))
    (hop : op = .lda ∨ op = .sta) (hlocation : a.locations[v.index]? = some (.reg .a))
    (hblock : block k = []) (hview : view (k + 1) = view k) :
    ∃ d', Behind e selected live a block view base k (s.exec e.linkage op (.virtual v)) d.trace
      d d' := by
  refine ⟨d, .refl d, ?_, rfl, rfl, ?_, fun depth hdepth => hs.indexed depth (hview ▸ hdepth)⟩
  · rw [offset_succ, hblock, hs.line]
    rfl
  · rcases hop with rfl | rfl
    · have hnz := (hp.assigned.replaceable v .a hlocation k .lda hline).1 rfl rfl
      rw [exec_lda]
      refine hs.housed.load_held (loaded_held hp hline hs hlocation) (fun item hitem => ?_) ?_
      · refine (before_or_given hp hline hitem).imp_right fun hdefs => ?_
        refine (item_of_lda hdefs).resolve_right ?_
        rintro rfl
        rw [After, hnz] at hitem
        cases hitem
      · rw [After, hnz]
        exact Bool.false_ne_true
    · rw [exec_sta_virtual]
      exact hs.housed.store_held hlocation fun item hitem =>
        (before_or_given hp hline hitem).imp_right item_of_sta

/-- A load that becomes a transfer from an index register. -/
theorem load_block (hline : selected.code[k]? = some (.op .lda (.virtual v))) (hr : r ≠ .a)
    (hlocation : a.locations[v.index]? = some (.reg r))
    (hblock : block k = [.op (fromIndex r) .implied])
    (hview : view (k + 1) = (view k).after (.op (fromIndex r) .implied)) :
    ∃ d', Behind e selected live a block view base k (s.exec e.linkage .lda (.virtual v)) d.trace
      d d' := by
  have hsingle : ∃ d', Behind e selected live a block view base k (s.exec e.linkage .lda (.virtual v))
      (d.trace ++ []) d d' := single hp hline
    hs hblock hview (by cases r <;> rfl) (by cases r <;> rfl) rfl
    (writeEvents_kept (by cases r <;> rfl)) ?_
  · rwa [List.append_nil] at hsingle
  · rw [exec_lda]
    exact hs.housed.load_index hr (loaded_held hp hline hs hlocation)
      (fun item hitem => (before_or_given hp hline hitem).imp_right item_of_lda)
      fun w hw => not_in_accumulator hp hline hr hlocation hw

/-- A store that becomes a transfer to an index register. -/
theorem store_block (hline : selected.code[k]? = some (.op .sta (.virtual v))) (hr : r ≠ .a)
    (hlocation : a.locations[v.index]? = some (.reg r))
    (hblock : block k = [.op (toIndex r) .implied])
    (hview : view (k + 1) = (view k).after (.op (toIndex r) .implied)) :
    ∃ d', Behind e selected live a block view base k (s.exec e.linkage .sta (.virtual v)) d.trace
      d d' := by
  obtain ⟨hnz, hindex⟩ := (hp.assigned.replaceable v r hlocation k .sta hline).2 hr rfl
  have hsingle : ∃ d', Behind e selected live a block view base k (s.exec e.linkage .sta (.virtual v))
      (d.trace ++ []) d d' := single hp hline
    hs hblock hview (by cases r <;> rfl) (by cases r <;> rfl) rfl
    (writeEvents_kept (by cases r <;> rfl)) ?_
  · rwa [List.append_nil] at hsingle
  · rw [exec_sta_virtual]
    refine hs.housed.store_index hr hlocation
      (fun item hitem => (before_or_given hp hline hitem).imp_right item_of_sta) ?_ ?_
      fun w hw hne => not_in_location hp hline hlocation hw hne
    · rw [After, hnz]
      exact Bool.false_ne_true
    · rw [After, hindex]
      exact Bool.false_ne_true

/-- An access that goes to a cell of the zero page. -/
theorem cell_block (hhidden : ∀ address, (houseOf selected a base).IsCell address ∨
      (houseOf selected a base).IsFrame address → e.watched address = false)
    (hline : selected.code[k]? = some (.op op (.virtual v))) {cell : UInt8}
    (hlocation : a.locations[v.index]? = some (.zeroPage cell))
    (hblock : block k = [.op op (.zeroPage cell)])
    (hview : view (k + 1) = (view k).after (.op op (.zeroPage cell))) :
    ∃ d', Behind e selected live a block view base k (s.exec e.linkage op (.virtual v)) d.trace
      d d' := by
  have hencode : (op.encode .zeroPage).isSome := hp.sound.encoded k op _ hline
  obtain ⟨hcalm, -⟩ := isCalm_of_encode (.inl rfl) hencode
  have hop : op ≠ .jsr := by
    rintro rfl
    exact absurd hcalm (by decide)
  have hsingle : ∃ d', Behind e selected live a block view base k (s.exec e.linkage op (.virtual v))
      (d.trace ++ []) d d' := single hp hline
    hs hblock hview hcalm.1 hencode rfl (writeEvents_hidden rfl (hhidden _ (.inl ⟨v, cell, hlocation,
      rfl⟩))) ?_
  · rwa [List.append_nil] at hsingle
  · exact hp.access hline (.virtual hlocation rfl) hs.housed (fun _ h => h) (hp.follows hline hop)

/-- **The block of an access to a value** does what the access does. -/
theorem value_block (hhidden : ∀ address, (houseOf selected a base).IsCell address ∨
      (houseOf selected a base).IsFrame address → e.watched address = false)
    (hline : selected.code[k]? = some (.op op (.virtual v))) :
    ∃ d', Behind e selected live a block view base k (s.exec e.linkage op (.virtual v)) d.trace
      d d' := by
  have hplaced := hp.laid.placed k _ hline
  generalize hblock : block k = lines at hplaced
  generalize hview : view (k + 1) = view' at hplaced
  cases hplaced with
  | gone hgone =>
    obtain ⟨location, hlocation, haccess⟩ := accessed_of_access hgone
    cases haccess with
    | held hop => exact gone_block hp hs hline hop hlocation hblock hview
  | @frame _ o _ _ hframe hlines =>
    obtain ⟨location, hlocation, haccess⟩ := accessed_of_access hframe
    cases haccess with
    | stack =>
      have ho : o < a.frameBytes :=
        UInt8.lt_iff_toNat_lt.mpr (hp.assigned.stack v o hlocation).2
      refine hp.frame_block hhidden hline hs ho (.virtual hlocation rfl)
        (hp.sound.indexed k op v o hline hlocation) ?_
      rw [hblock, hview]
      exact accesses_of_frameLines hlines
  | kept hkept hother =>
    obtain ⟨location, hlocation, haccess⟩ := accessed_of_access hkept
    cases haccess with
    | zeroPage => exact cell_block hp hs hhidden hline hlocation hblock hview
    | stack => exact absurd rfl (hother _ _)
    | toX hop =>
      subst hop
      exact store_block hp hs hline (by simp) hlocation hblock hview
    | fromX hop =>
      subst hop
      exact load_block hp hs hline (by simp) hlocation hblock hview
    | toY hop =>
      subst hop
      exact store_block hp hs hline (by simp) hlocation hblock hview
    | fromY hop =>
      subst hop
      exact load_block hp hs hline (by simp) hlocation hblock hview

end Values

/-! ### Instructions that stay as they are -/

/-- A line without value or frame byte makes a block of its own. -/
theorem block_kept (hp : Placing selected callClobbers exit live a block view base) {line : Line}
    (hline : selected.code[k]? = some line) (hvirtual : ∀ op v, line ≠ .op op (.virtual v))
    (hframe : ∀ op o, line ≠ .op op (.frame o)) :
    block k = [line] ∧ view (k + 1) = (view k).after line :=
  (hp.laid.placed k line hline).eq_of_kept (line_eq hvirtual) hframe

/-- Only what shifts and rotates works on the accumulator, which it writes. -/
theorem writes_accumulator (h : (op.encode .accumulator).isSome) :
    (op.effects .accumulator).writes.a = true := by
  cases op <;> first | rfl | cases h

theorem effective_accumulator {l : Linkage} {m : Machine}
    (h : l.effective m operand = .accumulator) : operand = .accumulator := by
  cases operand <;> first | rfl | cases h

/-- An address that an operand stands for is not private. -/
theorem not_private {h : House} (hquiet : ∀ address ∈ e.linkage.touched s.machine operand,
    ¬ h.Private s.regs.sp address) {address : UInt16}
    (haddress : e.linkage.effective s.machine operand = .address address) :
    ¬ h.Private s.regs.sp address := by
  refine hquiet address ?_
  unfold Linkage.touched
  rw [haddress]
  cases operand with
  | zeroPage cell => exact List.mem_singleton_self _
  | absolute address => exact List.mem_singleton_self _
  | absoluteX address => exact List.mem_singleton_self _
  | absoluteY address => exact List.mem_singleton_self _
  | indirectY cell => simp [EffectiveOperand.toAddress]
  | _ => cases haddress

/-- The same is read in both codes. -/
theorem readOperand_eq {h : House} {held : Item → Prop} {m : Machine} (hs : Housed h held s m)
    (hquiet : ∀ address ∈ e.linkage.touched s.machine operand, ¬ h.Private s.regs.sp address) :
    s.machine.readOperand (e.linkage.effective s.machine operand) =
      m.readOperand (e.linkage.effective s.machine operand) := by
  cases heffective : e.linkage.effective s.machine operand with
  | address address => exact hs.bus.read (not_private hquiet heffective)
  | accumulator => exact hs.regs.a
  | _ => rfl

section Calm

variable (hp : Placing selected callClobbers exit live a block view base)
  (hs : Stands selected live a block view base k s d)
  (hquiet : ∀ address ∈ e.linkage.touched s.machine operand,
    ¬ (houseOf selected a base).Private s.regs.sp address)
  (hline : selected.code[k]? = some (.op op operand)) (hop : op ≠ .jsr)

include hp hs hquiet hline hop

/-- **An operand stands for the same address** in both codes. -/
theorem effective_eq :
    e.linkage.effective d.store.machine operand = e.linkage.effective s.machine operand := by
  have hx (haddress : operand.index.contains .x = true) :
      s.machine.regs.x = d.store.machine.regs.x :=
    hs.housed.regs.x (hp.index_live hline hop haddress)
  have hy (haddress : operand.index.contains .y = true) :
      s.machine.regs.y = d.store.machine.regs.y :=
    hs.housed.regs.y (hp.index_live hline hop haddress)
  cases operand with
  | absoluteX address => simp only [Linkage.effective, hx rfl]
  | absoluteY address => simp only [Linkage.effective, hy rfl]
  | indirectY cell =>
    have hlow := hs.housed.bus.read (hquiet cell.toUInt16 (by simp [Linkage.touched]))
    have hhigh := hs.housed.bus.read (hquiet (cell + 1).toUInt16 (by simp [Linkage.touched]))
    simp only [Linkage.effective, hy rfl, hlow, hhigh]
  | _ => rfl

/-- The same is seen of an instruction in both codes. -/
theorem writeEvents_eq :
    writeEvents e op operand d.store.machine = writeEvents e op operand s.machine := by
  unfold writeEvents
  rw [effective_eq hp hs hquiet hline hop]
  by_cases hwrites : op.writesMemory = true
  · rw [if_pos hwrites, if_pos hwrites]
    split
    · rename_i address heffective
      have hread := hs.housed.bus.read (not_private hquiet heffective)
      have hfollows := hp.follows hline hop
      have hstored := agree_stored operand hwrites hs.housed.regs hfollows.readsX hfollows.readsY
        (s.machine.bus.read address)
      rw [← hread]
      rw [show s.machine.regs = s.regs from rfl, hstored]
    · rfl
  · rw [if_neg hwrites, if_neg hwrites]

/-- **The block of an instruction that leaves the stack alone**. -/
theorem calm_block (hcalm : IsCalm op) (hvirtual : ∀ v, operand ≠ .virtual v)
    (hframe : ∀ o, operand ≠ .frame o) :
    ∃ d', Behind e selected live a block view base k (s.exec e.linkage op operand)
      (d.trace ++ writeEvents e op operand s.machine) d d' := by
  obtain ⟨hblock, hview⟩ := block_kept hp hline (fun _ v heq => hvirtual v (by cases heq; rfl))
    fun _ o heq => hframe o (by cases heq; rfl)
  have hexec : ∀ t : Store, t.exec e.linkage op operand =
      { t with machine := t.machine.execute op (e.linkage.effective t.machine operand) } := by
    intro t
    cases operand with
    | virtual v => exact absurd rfl (hvirtual v)
    | frame o => exact absurd rfl (hframe o)
    | _ => rfl
  have hencode := hp.sound.encoded k op operand hline
  refine single hp hline hs hblock hview hcalm.1 hencode (by rw [hexec])
    (writeEvents_eq hp hs hquiet hline hop) ?_
  rw [hexec, effective_eq hp hs hquiet hline hop]
  refine hs.housed.execute hp.fits hcalm (readOperand_eq hs.housed hquiet)
    (fun _ address haddress => not_private hquiet haddress) (hp.follows hline hop)
    fun v location hv hlocation => ?_
  refine ⟨hp.value_live hline hv fun _ => hvirtual v, ?_⟩
  rintro r rfl
  have hdefs := hp.not_written hline hv (hvirtual v) hlocation
  rw [defs_op hop, itemsOf_reg] at hdefs
  refine execute_keeps operand hcalm.1 _ (fun haccumulator => ?_) hdefs
  rintro rfl
  obtain rfl := effective_accumulator haccumulator
  rw [show (Line.op op .accumulator).effects.writes.contains .a = true from
    writes_accumulator hencode] at hdefs
  cases hdefs

end Calm

/-! ### Instructions on the stack -/

/-- Control passes through to the next line. -/
theorem next_data (hdata : isData op = true) (labels : Std.TreeMap String ℕ) :
    (Line.op op operand).next labels k = .ok [k + 1] := by
  have hbranch : op.isBranch = false := by
    cases op <;> first | rfl | exact Bool.noConfusion (show false = true from hdata)
  have hends : op.endsBlock = false := by
    cases op <;> first | rfl | exact Bool.noConfusion (show false = true from hdata)
  unfold Line.next
  split
  · rename_i heq
    cases heq
    rw [hbranch, hends, if_neg Bool.false_ne_true, if_neg Bool.false_ne_true]
  · rename_i heq
    cases heq
    cases hdata
  · rename_i heq
    cases heq
    rw [hends, if_neg Bool.false_ne_true]
  · rename_i hother
    exact absurd rfl (hother op operand)

theorem comes_data (hline : selected.code[k]? = some (.op op operand)) (hdata : isData op = true)
    {depth : ℤ} (h : Comes selected.code k depth) :
    Comes selected.code (k + 1) (depth + pushes (.op op operand)) :=
  h.next hline (next_data hdata _) (List.mem_singleton_self _)

/-- The instructions that move the stack pointer. -/
inductive OnStack : Opcode → Prop where
  | pha : OnStack .pha
  | php : OnStack .php
  | pla : OnStack .pla
  | plp : OnStack .plp

theorem onStack (hdata : isData op = true) (hcalm : ¬ IsCalm op) (htxs : op ≠ .txs) : OnStack op := by
  cases op <;> first
    | constructor
    | exact absurd rfl htxs
    | exact absurd (by decide) hcalm
    | exact Bool.noConfusion (show false = true from hdata)

/-- An instruction that moves the stack pointer has no operand. -/
theorem OnStack.implied (h : OnStack op) (hencode : (op.encode operand.mode).isSome) :
    operand = .implied := by
  cases h <;> cases operand <;> first | rfl | exact Bool.noConfusion hencode

/-- **The block of an instruction that moves the stack pointer.** -/
theorem stack_block (hp : Placing selected callClobbers exit live a block view base)
    (hs : Stands selected live a block view base k s d)
    (hline : selected.code[k]? = some (.op op .implied)) (hstack : OnStack op) :
    ∃ d', Behind e selected live a block view base k (s.exec e.linkage op .implied) d.trace d d' := by
  have hdata : isData op = true := by cases hstack <;> rfl
  obtain ⟨hblock, hview⟩ := block_kept hp hline (by simp) (by simp)
  have hk : k < selected.code.length := (List.getElem?_eq_some_iff.mp hline).1
  obtain ⟨hsp, hpos, hle⟩ := hp.stack hk.le hs.comes
  have hpos' : 0 < s.regs.sp := UInt8.lt_iff_toNat_lt.mpr hpos
  -- Something has been pushed where something is pulled.
  have hbelow : pushes (.op op .implied) = -1 → s.regs.sp < base := by
    intro hpull
    have hnext := (hp.sound.depth _ _ (comes_data hline hdata hs.comes)).2.1
    rw [hpull] at hnext
    exact UInt8.lt_iff_toNat_lt.mpr (by omega)
  have hgiven : ∀ item, After live k item → Before live k item ∨
      (Line.op op .implied).defs.contains item = true := fun item => before_or_given hp hline
  have hsingle : ∃ d', Behind e selected live a block view base k (s.exec e.linkage op .implied)
      (d.trace ++ []) d d' := single hp hline hs
    hblock hview hdata (hp.sound.encoded k op .implied hline) rfl
    (writeEvents_kept (by cases hstack <;> rfl)) ?_
  · rwa [List.append_nil] at hsingle
  · cases hstack with
    | pha =>
      exact (hs.housed.pha hp.fits hpos').mono fun item hitem =>
        (hgiven item hitem).resolve_right Bool.false_ne_true
    | php =>
      have hnz : Before live k .nz := by
        refine hp.solves.uses hline ?_
        rw [uses_op (by simp), itemsOf_nz]
        rfl
      exact (hs.housed.php hp.fits hpos' hnz).mono fun item hitem =>
        (hgiven item hitem).resolve_right Bool.false_ne_true
    | pla =>
      refine hs.housed.pla hp.fits (hbelow rfl) (fun item hitem => (hgiven item hitem).imp_right ?_)
        fun v hv hlocation => ?_
      · intro hdefs
        have hmem : item ∈ [Item.reg .a, .nz] := List.contains_iff_mem.mp hdefs
        simpa using hmem
      · cases hp.not_written hline hv (by simp) hlocation
    | plp =>
      refine hs.housed.plp hp.fits (hbelow rfl) fun item hitem => (hgiven item hitem).imp_right ?_
      intro hdefs
      have hmem : item ∈ [Item.nz, .carry] := List.contains_iff_mem.mp hdefs
      simpa using hmem

/-! ### All of them -/

/-- **The block of a line that control passes through** does what the line does. -/
theorem data_block (hp : Placing selected callClobbers exit live a block view base)
    (hhidden : ∀ address, (houseOf selected a base).IsCell address ∨
      (houseOf selected a base).IsFrame address → e.watched address = false)
    (hs : Stands selected live a block view base k s d)
    (hquiet : ∀ address ∈ e.linkage.touched s.machine operand,
      ¬ (houseOf selected a base).Private s.regs.sp address)
    (hline : selected.code[k]? = some (.op op operand)) (hdata : isData op = true) :
    ∃ d', Behind e selected live a block view base k (s.exec e.linkage op operand)
      (d.trace ++ writeEvents e op operand s.machine) d d' := by
  have hencode := hp.sound.encoded k op operand hline
  by_cases hvirtual : ∃ v, operand = .virtual v
  · obtain ⟨v, rfl⟩ := hvirtual
    rw [writeEvents_apart rfl, List.append_nil]
    exact value_block hp hs hhidden hline
  rw [not_exists] at hvirtual
  by_cases hframe : ∃ o, operand = .frame o
  · obtain ⟨o, rfl⟩ := hframe
    rw [writeEvents_apart rfl, List.append_nil]
    have ho := hp.sound.locals k op o hline
    refine hp.frame_block hhidden hline hs (UInt8.lt_of_lt_of_le ho hp.fits.locals) (.frame ho)
      hencode ?_
    have hplaced := hp.laid.placed k _ hline
    have hkeep : (Placement.line ⟨selected.name, live, a.locations⟩ (.op op (.frame o))) =
        .ok (some (.op op (.frame o))) := line_eq (by simp)
    generalize block k = lines at hplaced ⊢
    generalize view (k + 1) = view' at hplaced ⊢
    cases hplaced with
    | gone hgone =>
      rw [hkeep] at hgone
      cases hgone
    | frame hother hlines =>
      rw [hkeep] at hother
      cases hother
      exact accesses_of_frameLines hlines
    | kept hother hnot =>
      rw [hkeep] at hother
      cases hother
      exact absurd rfl (hnot op o)
  rw [not_exists] at hframe
  have hop : op ≠ .jsr := by
    rintro rfl
    cases hdata
  by_cases hcalm : IsCalm op
  · exact calm_block hp hs hquiet hline hop hcalm hvirtual hframe
  · have hstack := onStack hdata hcalm fun heq => hp.sound.noTxs k operand (heq ▸ hline)
    obtain rfl := hstack.implied hencode
    rw [writeEvents_apart rfl, List.append_nil]
    exact stack_block hp hs hline hstack

end Codegen6502.Proofs.Allocating.DataLines
