import Codegen6502.Proofs.Allocating.Assignment
import Codegen6502.Proofs.Allocating.Housing
import Codegen6502.Proofs.Processor.Passages

/-!
# A line and its block

What a line that control passes through does to the values and frame bytes of a function, its block
does to their places: it leads from states that are housed in front of the line to states that are
housed behind it (`Stands`, `Behind`), and sees the same writes to memory.

The frame is addressed through X by the number of bytes that the text has pushed so far (`pushed`).
That is right as long as control comes to every line with just so many bytes pushed (`Sound.depth`).
-/

namespace Codegen6502.Proofs.Allocating.Blockwise

open Allocation Processor.Memory Processor.LineRun Processor.Straight Processor.Agreement
open Processor.Passages Liveness.Flow Liveness.Intervals Assignment Blocks Housing

/-! ### Bytes on the stack -/

/-- What a line adds to the bytes on the stack. -/
def pushes : Line → ℤ
  | .op .pha _ | .op .php _ => 1
  | .op .pla _ | .op .plp _ => -1
  | _ => 0

/-- What the lines in front of one add to the bytes on the stack, in the order of the text. -/
def pushed (code : List Line) (k : ℕ) : ℤ := ((code.take k).map pushes).sum

/-- Control comes to a line, and a number of bytes has been pushed on the way. -/
inductive Comes (code : List Line) : ℕ → ℤ → Prop where
  | start : Comes code 0 0
  | next {k j : ℕ} {depth : ℤ} {line : Line} {ns : List ℕ} : Comes code k depth →
    code[k]? = some line → line.next (labelIndices code) k = .ok ns → j ∈ ns →
    Comes code j (depth + pushes line)

variable {code : List Line} {k : ℕ} {line : Line} {op : Opcode} {operand : Operand}

theorem pushed_succ (hline : code[k]? = some line) :
    pushed code (k + 1) = pushed code k + pushes line := by
  unfold pushed
  rw [List.take_add_one, hline, List.map_append, List.sum_append]
  simp

theorem after_depth (view : StackView) (line : Line) :
    (view.after line).depth = view.depth + pushes line := by
  cases line with
  | label name => exact (add_zero _).symm
  | comment text => exact (add_zero _).symm
  | op op operand => cases op <;> first | rfl | exact (add_zero _).symm

theorem pushes_eq_zero (h : (op.encode operand.mode).isSome) (hmode : operand.mode ≠ .implied) :
    pushes (.op op operand) = 0 := by
  cases op <;> first
    | rfl
    | (exfalso
       revert h hmode
       cases operand.mode <;> simp [Opcode.encode, Opcode.operandless])

/-- What is pushed depends on the instruction alone. -/
theorem pushes_congr (op : Opcode) (operand operand' : Operand) :
    pushes (.op op operand) = pushes (.op op operand') := by
  cases op <;> rfl

/-- A frame access leaves the number of bytes on the stack as it is. -/
theorem Accesses.depth {live : Liveness} {view view' : StackView} {o : UInt8} {lines : List Line}
    (h : Accesses live view k op o lines view') : view'.depth = view.depth := by
  cases h <;> rfl

/-- What a line pushes, its block pushes. -/
theorem PlacedAs.depth {p : Placement} {view view' : StackView} {lines : List Line}
    (h : PlacedAs p view k line lines view')
    (hidle : ∀ op operand, line = .op op operand → operand.isPreAllocation = true →
      pushes line = 0) : view'.depth = view.depth + pushes line := by
  by_cases hvirtual : ∃ op v, line = .op op (.virtual v)
  · obtain ⟨op, v, rfl⟩ := hvirtual
    have hop := hidle op _ rfl rfl
    rw [hop, add_zero]
    cases h with
    | gone _ => rfl
    | frame _ hlines => exact Accesses.depth (accesses_of_frameLines hlines)
    | kept hplaced hframe =>
      obtain ⟨location, -, haccess⟩ := accessed_of_access hplaced
      rw [after_depth]
      cases haccess with
      | @zeroPage cell => rw [pushes_congr op (.zeroPage cell) (.virtual v), hop, add_zero]
      | stack => exact absurd rfl (hframe _ _)
      | _ => exact add_zero _
  · have hkeep : p.line line = .ok (some line) := line_eq fun op v heq => hvirtual ⟨op, v, heq⟩
    cases h with
    | gone hgone =>
      rw [hkeep] at hgone
      cases hgone
    | @frame op o _ _ hplaced hlines =>
      rw [hkeep] at hplaced
      cases hplaced
      rw [Accesses.depth (accesses_of_frameLines hlines), hidle op _ rfl rfl, add_zero]
    | kept hplaced _ =>
      rw [hkeep] at hplaced
      cases hplaced
      exact after_depth ..

/-- **The view of the stack counts what the text pushes**, unless a line that is placed pushes. -/
theorem Laid.depth {p : Placement} {calls outCalls : Std.TreeMap ℕ CallTarget} {out : List Line}
    {block : ℕ → List Line} {view : ℕ → StackView} (h : Laid p calls code out outCalls block view)
    (hidle : ∀ (k : ℕ) (op : Opcode) (operand : Operand), code[k]? = some (.op op operand) →
      operand.isPreAllocation = true → pushes (.op op operand) = 0) {k : ℕ} (hk : k ≤ code.length) :
    (view k).depth = pushed code k := by
  induction k with
  | zero => rw [h.start]; rfl
  | succ k ih =>
    have hline : code[k]? = some (code.get ⟨k, hk⟩) := by simp [Nat.lt_of_succ_le hk]
    rw [pushed_succ hline, ← ih (Nat.le_of_succ_le hk)]
    refine PlacedAs.depth (h.placed k _ hline) fun op operand heq hpre => ?_
    rw [heq]
    exact hidle k op operand (hline.trans (congrArg some heq)) hpre

/-- An instruction with a byte of memory as operand. -/
theorem isCalm_of_encode {mode : Mode} (hmode : mode = .zeroPage ∨ mode = .absoluteX)
    (h : (op.encode mode).isSome) :
    IsCalm op ∧ (op.readsMemory = true ∨ op.writesMemory = true) := by
  rcases hmode with rfl | rfl <;> cases op <;> first | exact Bool.noConfusion h | decide

/-- An instruction that does not read the byte does the same whatever it is. -/
theorem cellOp_overwrites (hreads : op.readsMemory = false) (hwrites : op.writesMemory = true)
    (r : Registers) (byte other : UInt8) : cellOp op r byte = cellOp op r other := by
  cases op <;> first
    | exact Bool.noConfusion (show true = false from hreads)
    | exact Bool.noConfusion (show false = true from hwrites)
    | simp [cellOp, Machine.execute, Machine.writeOperand, read_alone_write, regs_alone]

/-! ### What is assumed -/

/-- The places of an allocated function behind its entry sequence. -/
def houseOf (selected : SelectedCode) (a : AllocatedCode) (base : UInt8) : House where
  locations := a.locations
  locals := selected.locals
  frameBytes := a.frameBytes
  base

/-- Selected code whose instructions exist, in the form that allocation gives them as well, and that
keeps to its stack. -/
structure Sound (selected : SelectedCode) (a : AllocatedCode) (base : UInt8) : Prop where
  encoded : ∀ (k : ℕ) (op : Opcode) (operand : Operand),
    selected.code[k]? = some (.op op operand) → (op.encode operand.mode).isSome
  noTxs : ∀ (k : ℕ) (operand : Operand), selected.code[k]? ≠ some (.op .txs operand)
  /-- Frame bytes are locals. -/
  locals : ∀ (k : ℕ) (op : Opcode) (o : UInt8), selected.code[k]? = some (.op op (.frame o)) →
    o < selected.locals
  /-- A value in the frame is only accessed by what can be indexed by X. -/
  indexed : ∀ (k : ℕ) (op : Opcode) (v : VReg) (o : UInt8),
    selected.code[k]? = some (.op op (.virtual v)) → a.locations[v.index]? = some (.stack o) →
    (op.encode .absoluteX).isSome
  /-- On every way to a line, what has been pushed is what the text in front of the line pushes; it
  is not below the entry, and leaves a byte of the stack free. -/
  depth : ∀ (k : ℕ) (depth : ℤ), Comes selected.code k depth →
    depth = pushed selected.code k ∧ 0 ≤ depth ∧ depth < base.toNat

/-- An allocated function with the liveness, the blocks and the views of the stack it was placed
with. -/
structure Placing (selected : SelectedCode) (callClobbers : Std.TreeMap ℕ Clobbers) (exit : RegSet)
    (live : Liveness) (a : AllocatedCode) (block : ℕ → List Line) (view : ℕ → StackView)
    (base : UInt8) : Prop where
  solves : Solves selected.code selected.calls exit live
  assigned : Assigned selected callClobbers live a
  laid : Laid ⟨selected.name, live, a.locations⟩ selected.calls selected.code a.code a.calls block
    view
  fits : (houseOf selected a base).Fits
  sound : Sound selected a base

/-- What is live in front of a line. -/
def Before (live : Liveness) (k : ℕ) (item : Item) : Prop := (live.liveIn k).contains item = true

/-- What is live behind a line. -/
def After (live : Liveness) (k : ℕ) (item : Item) : Prop := live.isLiveOut k item = true

variable {selected : SelectedCode} {callClobbers : Std.TreeMap ℕ Clobbers} {exit : RegSet}
  {live : Liveness} {a : AllocatedCode} {block : ℕ → List Line} {view : ℕ → StackView} {base : UInt8}

namespace Placing

variable (hp : Placing selected callClobbers exit live a block view base)

include hp

/-! ### Liveness around a line -/

/-- The items that an instruction needs and gives. -/
theorem follows (hline : selected.code[k]? = some (.op op operand)) (hop : op ≠ .jsr) :
    Follows (Before live k) (After live k) (op.effects operand) := by
  have huses : ∀ item, ((Line.op op operand).uses selected.calls[k]?).contains item = true →
      Before live k item := fun item => hp.solves.uses hline
  have hpasses : ∀ item, After live k item →
      (Line.op op operand).defs.contains item = false → Before live k item := fun item hitem =>
    hp.solves.passes hline hitem
  rw [uses_op hop] at huses
  rw [defs_op hop] at hpasses
  refine ⟨fun h => huses _ ?_, fun h => huses _ ?_, fun h => ?_, fun h => ?_, fun h => ?_⟩
  · simp [Line.effects, RegSet.union, RegSet.contains, h]
  · simp [Line.effects, RegSet.union, RegSet.contains, h]
  · cases hwrites : (op.effects operand).writes.x with
    | true => exact .inr rfl
    | false => exact .inl (hpasses _ h (by rw [itemsOf_reg]; exact hwrites))
  · cases hwrites : (op.effects operand).writes.y with
    | true => exact .inr rfl
    | false => exact .inl (hpasses _ h (by rw [itemsOf_reg]; exact hwrites))
  · cases hwrites : (op.effects operand).writesNZ with
    | true => exact .inr rfl
    | false => exact .inl (hpasses _ h (by rw [itemsOf_nz]; exact hwrites))

/-- The index register of an operand is live. -/
theorem index_live (hline : selected.code[k]? = some (.op op operand)) (hop : op ≠ .jsr)
    {r : Register} (hr : operand.index.contains r = true) : Before live k (.reg r) := by
  refine hp.solves.uses hline ?_
  rw [uses_op hop, itemsOf_reg]
  cases r <;> simp_all [Line.effects, RegSet.union, RegSet.contains]

/-- A value that is live behind an instruction and not written by it is live in front of it. -/
theorem value_live (hline : selected.code[k]? = some (.op op operand)) {v : VReg}
    (hv : After live k (.vreg v)) (hother : op.writesMemory = true → operand ≠ .virtual v) :
    Before live k (.vreg v) := by
  refine hp.solves.passes hline hv ?_
  by_cases hop : op = .jsr
  · subst hop
    rw [defs_jsr, itemsOf_vreg]
    rfl
  · rw [defs_op hop, itemsOf_vreg, decide_eq_false_iff_not]
    split_ifs with hwrites
    · intro h
      cases operand <;> simp_all [Operand.vreg?]
    · exact not_false

/-- A register that holds a live value is not written, but by accesses to the value. -/
theorem not_written (hline : selected.code[k]? = some (.op op operand)) {v : VReg}
    (hv : After live k (.vreg v)) (hother : operand ≠ .virtual v) {r : Register}
    (hr : a.locations[v.index]? = some (.reg r)) :
    (Line.op op operand).defs.contains (.reg r) = false := by
  rw [← hp.solves.writes hline]
  refine (hp.assigned.undisturbed v r hr k _ hline hv).1.resolve_left ?_
  rintro ⟨other, heq⟩
  cases heq
  exact hother rfl

/-- Values that concern one line are apart. -/
theorem apart {v w : VReg} (hline : selected.code[k]? = some line)
    (hv : Concerns live line selected.calls[k]? k v) (hw : Concerns live line selected.calls[k]? k w)
    (hne : v ≠ w) {location : Location} (hlocation : a.locations[v.index]? = some location) :
    a.locations[w.index]? ≠ some location := by
  obtain ⟨iv, hiv, hvk⟩ := intervals_cover hp.solves hline hv
  obtain ⟨iw, hiw, hwk⟩ := intervals_cover hp.solves hline hw
  exact hp.assigned.apart v w iv iw hiv hiw hne (overlaps_of_cover hvk hwk) location hlocation

theorem concerns_access {v : VReg} (hline : selected.code[k]? = some (.op op (.virtual v))) :
    Concerns live (.op op (.virtual v)) selected.calls[k]? k v := by
  obtain ⟨hcalm, hmemory⟩ := isCalm_of_encode (.inl rfl) (hp.sound.encoded k op _ hline)
  have hop : op ≠ .jsr := by
    rintro rfl
    exact absurd hcalm (by decide)
  rcases hmemory with h | h
  · refine .inr (.inl ?_)
    rw [uses_op hop, itemsOf_vreg]
    simp [h, Operand.vreg?]
  · refine .inr (.inr (.inl ?_))
    rw [defs_op hop, itemsOf_vreg]
    simp [h, Operand.vreg?]

/-! ### Views of the stack -/

/-- The view of the stack counts what the text pushes. -/
theorem view_depth (hk : k ≤ selected.code.length) : (view k).depth = pushed selected.code k := by
  refine Laid.depth hp.laid (fun k op operand hline hpre => ?_) hk
  refine pushes_eq_zero (hp.sound.encoded k op operand hline) ?_
  cases operand <;> first | (simp [Operand.mode]; done) | cases hpre

end Placing

/-! ### Bytes -/

/-- The address of the byte of memory that an operand stands for. -/
inductive Backed (h : House) : Operand → UInt16 → Prop where
  | virtual {v : VReg} {location : Location} {address : UInt16} :
    h.locations[v.index]? = some location → h.address? location = some address →
    Backed h (.virtual v) address
  | frame {o : UInt8} : o < h.locals → Backed h (.frame o) (h.frameAddress o)

theorem Backed.isPrivate {h : House} (hfits : h.Fits) {address : UInt16}
    (hb : Backed h operand address) : h.IsCell address ∨ h.IsFrame address := by
  cases hb with
  | virtual hlocation haddress => exact House.private_of_address hfits hlocation haddress
  | @frame o ho => exact .inr ⟨o, UInt8.lt_of_lt_of_le ho hfits.locals, rfl⟩

theorem Backed.isCalm {h : House} {address : UInt16} (hb : Backed h operand address)
    (hencode : (op.encode operand.mode).isSome) :
    IsCalm op ∧ (op.readsMemory = true ∨ op.writesMemory = true) := by
  cases hb with
  | virtual _ _ => exact isCalm_of_encode (.inl rfl) hencode
  | frame _ => exact isCalm_of_encode (.inr rfl) hencode

/-- A frame byte of a local is not the byte of a value. -/
theorem frameAddress_ne {h : House} (hfits : h.Fits) {o : UInt8} (ho : o < h.locals) {v : VReg}
    {location : Location} {address : UInt16} (hlocation : h.locations[v.index]? = some location)
    (haddress : h.address? location = some address) : h.frameAddress o ≠ address := by
  have ho' : o < h.frameBytes := UInt8.lt_of_lt_of_le ho hfits.locals
  intro heq
  cases location with
  | reg r => cases haddress
  | zeroPage cell =>
    cases haddress
    have hnat := congrArg UInt16.toNat heq
    have hcell := cell.toNat_lt
    rw [House.toNat_frameAddress hfits ho', UInt8.toNat_toUInt16] at hnat
    omega
  | stack o' =>
    cases haddress
    have hstack := hfits.stack v o' hlocation
    obtain rfl := House.frameAddress_inj hfits ho' hstack.2 heq
    exact absurd (UInt8.lt_of_lt_of_le ho hstack.1) (UInt8.lt_irrefl _)

section Bytes

variable (hp : Placing selected callClobbers exit live a block view base) {held : Item → Prop}
  {s : Store} {m : Machine} {address : UInt16} {e : Environment}

include hp

/-- What the byte holds that an instruction works on, if the instruction reads it. -/
theorem Placing.cellOp_backed (hline : selected.code[k]? = some (.op op operand))
    (hb : Backed (houseOf selected a base) operand address)
    (hs : Housed (houseOf selected a base) held s m)
    (hheld : ∀ v : VReg, Before live k (.vreg v) → held (.vreg v)) :
    (∀ v, operand = .virtual v → cellOp op s.regs (s.cells v) = cellOp op s.regs (m.bus.read address)) ∧
      ∀ o, operand = .frame o → s.frame o = m.bus.read address := by
  obtain ⟨hcalm, hmemory⟩ := hb.isCalm (hp.sound.encoded k op operand hline)
  have hop : op ≠ .jsr := by
    rintro rfl
    exact absurd hcalm (by decide)
  cases hb with
  | @virtual v location _ hlocation haddress =>
    refine ⟨fun w hw => ?_, fun o ho => Operand.noConfusion ho⟩
    cases hw
    cases hreads : op.readsMemory with
    | false => exact cellOp_overwrites hreads (hmemory.resolve_left (by simp [hreads])) ..
    | true =>
      have hlive : Before live k (.vreg v) := by
        refine hp.solves.uses hline ?_
        rw [uses_op hop, itemsOf_vreg]
        simp [hreads, Operand.vreg?]
      rw [hs.cells v location (hheld v hlive) hlocation, House.held_eq haddress]
  | @frame o ho =>
    refine ⟨fun v hv => Operand.noConfusion hv, fun o' ho' => ?_⟩
    cases ho'
    exact hs.frame o ho

/-- **An access to a value or a frame byte in memory** becomes the same instruction on its
address. -/
theorem Placing.access (hline : selected.code[k]? = some (.op op operand))
    (hb : Backed (houseOf selected a base) operand address)
    (hs : Housed (houseOf selected a base) held s m)
    (hheld : ∀ v : VReg, Before live k (.vreg v) → held (.vreg v))
    (hfollows : Follows held (After live k) (op.effects operand)) :
    Housed (houseOf selected a base) (After live k) (s.exec e.linkage op operand)
      (m.execute op (.address address)) := by
  obtain ⟨hcalm, -⟩ := hb.isCalm (hp.sound.encoded k op operand hline)
  obtain ⟨hcell, hframe⟩ := hp.cellOp_backed hline hb hs hheld
  have hregister : ∀ (w : VReg) (location : Location), After live k (.vreg w) →
      operand ≠ .virtual w → a.locations[w.index]? = some location → ∀ r, location = .reg r →
      (op.effects operand).writes.contains r = false := by
    rintro w location hw hother hlocation r rfl
    have hdefs := hp.not_written hline hw hother hlocation
    have hop : op ≠ .jsr := by
      rintro rfl
      exact absurd hcalm (by decide)
    rwa [defs_op hop, itemsOf_reg] at hdefs
  cases hb with
  | @virtual v location _ hlocation haddress =>
    have hbyte := hcell v rfl
    refine hs.access hp.fits hcalm (House.private_of_address hp.fits hlocation haddress) hfollows
      ?_ rfl (fun w other hw hother => ?_) fun o ho => ?_
    · rw [← hbyte]
      rfl
    · by_cases hvw : w = v
      · subst hvw
        rw [hlocation] at hother
        cases hother
        refine .inl ⟨?_, haddress⟩
        rw [← hbyte]
        exact Function.update_self ..
      · have hlive : Before live k (.vreg w) := hp.value_live hline hw fun _ heq => hvw (by cases heq; rfl)
        refine .inr ⟨Function.update_of_ne hvw .., hheld w hlive, fun hsame => ?_,
          hregister w other hw (fun heq => hvw (by cases heq; rfl)) hother⟩
        have heq := House.address_inj hp.fits hlocation hother haddress hsame
        refine hp.apart hline (hp.concerns_access hline) (.inl hlive) (Ne.symm hvw) hlocation ?_
        rw [heq]
        exact hother
    · exact .inr ⟨rfl, frameAddress_ne hp.fits ho hlocation haddress⟩
  | @frame o ho =>
    have hbyte := hframe o rfl
    refine hs.access hp.fits hcalm (.inr ⟨o, UInt8.lt_of_lt_of_le ho hp.fits.locals, rfl⟩) hfollows
      ?_ rfl (fun w other hw hother => ?_) fun o' ho' => ?_
    · rw [← hbyte]
      rfl
    · have hlive : Before live k (.vreg w) := hp.value_live hline hw fun _ heq => Operand.noConfusion heq
      refine .inr ⟨rfl, hheld w hlive, fun hsame => ?_,
        hregister w other hw (fun heq => Operand.noConfusion heq) hother⟩
      exact frameAddress_ne hp.fits ho hother hsame rfl
    · by_cases hoo : o' = o
      · subst hoo
        refine .inl ⟨?_, rfl⟩
        rw [← hbyte]
        exact Function.update_self ..
      · refine .inr ⟨Function.update_of_ne hoo .., fun heq => hoo ?_⟩
        exact House.frameAddress_inj hp.fits (UInt8.lt_of_lt_of_le ho' hp.fits.locals)
          (UInt8.lt_of_lt_of_le ho hp.fits.locals) heq

end Bytes

/-! ### Blocks -/

theorem reaches_pass {e : Environment} {calls : Std.TreeMap ℕ CallTarget} {d : Config}
    (hline : code[d.line]? = some (.op op operand)) (hdata : isData op = true)
    (hencode : (op.encode operand.mode).isSome) : Reaches e code calls d (d.pass e op operand) := by
  refine .single ?_
  unfold step
  rw [hline]
  simp [hdata, Option.isNone_eq_false_iff.mpr hencode]

/-- Nothing is seen of a write to an address that is not watched. -/
theorem writeEvents_hidden {e : Environment} {m : Machine} {address : UInt16}
    (heffective : e.linkage.effective m operand = .address address)
    (hhidden : e.watched address = false) : writeEvents e op operand m = [] := by
  unfold writeEvents
  rw [heffective]
  simp [hhidden]

/-- The allocated code is in front of the block of a line, and its state houses a store. -/
structure Stands (selected : SelectedCode) (live : Liveness) (a : AllocatedCode)
    (block : ℕ → List Line) (view : ℕ → StackView) (base : UInt8) (k : ℕ) (s : Store) (d : Config) :
    Prop where
  line : d.line = offset block k
  housed : Housed (houseOf selected a base) (Before live k) s d.store.machine
  comes : Comes selected.code k (base.toNat - s.regs.sp.toNat)
  indexed : ∀ depth, (view k).indexed = some depth →
    (d.store.regs.x.toNat : ℤ) + depth = base.toNat

/-- The allocated code has gone through a block, and its state houses a store; the trace has become
another one. -/
structure Behind (e : Environment) (selected : SelectedCode) (live : Liveness) (a : AllocatedCode)
    (block : ℕ → List Line) (view : ℕ → StackView) (base : UInt8) (k : ℕ) (s : Store)
    (trace : List Event) (d d' : Config) : Prop where
  reaches : Reaches e a.code a.calls d d'
  line : d'.line = offset block (k + 1)
  trace : d'.trace = trace
  captures : d'.captures = d.captures
  housed : Housed (houseOf selected a base) (After live k) s d'.store.machine
  indexed : ∀ depth, (view (k + 1)).indexed = some depth →
    (d'.store.regs.x.toNat : ℤ) + depth = base.toNat

/-- The address of an access through X that was loaded from the stack pointer. -/
theorem effective_indexed (h : House) (o : UInt8) {depth : ℤ} {m : Machine}
    (hx : (m.regs.x.toNat : ℤ) + depth = h.base.toNat) (l : Linkage) :
    l.effective m (.absoluteX (.absolute (UInt16.ofNat (indexedAddress o depth).toNat))) =
      .address (h.frameAddress o) := by
  have hx' := m.regs.x.toNat_lt
  refine congrArg EffectiveOperand.address (UInt16.toNat_inj.mp ?_)
  change (UInt16.ofNat (indexedAddress o depth).toNat + m.regs.x.toUInt16).toNat =
    (0x0101 + h.base.toUInt16 + o.toUInt16).toNat
  simp only [UInt16.toNat_add, UInt16.toNat_ofNat', UInt8.toNat_toUInt16, UInt16.reduceToNat,
    indexedAddress]
  omega

/-- What can be indexed by X neither needs nor changes X, and leaves N and Z alone only if it stores
the accumulator. -/
theorem effects_indexed (h : (op.encode .absoluteX).isSome) (operand : Operand) :
    (op.effects operand).reads.x = false ∧ (op.effects operand).writes.x = false ∧
      ((op.effects operand).writesNZ = false → op = .sta) := by
  cases op <;> first
    | exact Bool.noConfusion h
    | exact ⟨rfl, rfl, fun _ => rfl⟩
    | exact ⟨rfl, rfl, fun h => Bool.noConfusion h⟩

theorem writesNZ_eq (op : Opcode) (operand other : Operand) :
    (op.effects operand).writesNZ = (op.effects other).writesNZ := by
  cases op <;> rfl

section Blocks

variable (hp : Placing selected callClobbers exit live a block view base) {e : Environment}
  {s : Store} {d : Config}

include hp

/-- Where the stack pointer is in front of a line. -/
theorem Placing.stack (hk : k ≤ selected.code.length) {sp : UInt8}
    (hcomes : Comes selected.code k (base.toNat - sp.toNat)) :
    (sp.toNat : ℤ) + (view k).depth = base.toNat ∧ 0 < sp.toNat ∧ sp.toNat ≤ base.toNat := by
  obtain ⟨hdepth, hnonneg, hroom⟩ := hp.sound.depth k _ hcomes
  rw [hp.view_depth hk]
  omega

/-- The lines of a block stand one after the other. -/
theorem Placing.getElem? (hline : selected.code[k]? = some line) {j : ℕ} {placed : Line}
    (hj : (block k)[j]? = some placed) : a.code[offset block k + j]? = some placed := by
  rw [hp.laid.getElem? (List.getElem?_eq_some_iff.mp hline).1 (List.getElem?_eq_some_iff.mp hj).1, hj]

/-- X holds no value where there is a frame. -/
theorem Placing.x_free {o : UInt8} (ho : o < a.frameBytes) (v : VReg) :
    (houseOf selected a base).locations[v.index]? ≠ some (.reg .x) := by
  intro hv
  have hzero := hp.assigned.indexFree v hv
  rw [hzero] at ho
  have := UInt8.lt_iff_toNat_lt.mp ho
  simp at this

variable (hhidden : ∀ address, (houseOf selected a base).IsCell address ∨
    (houseOf selected a base).IsFrame address → e.watched address = false)
  (hline : selected.code[k]? = some (.op op operand))
  (hs : Stands selected live a block view base k s d) {o : UInt8} (ho : o < a.frameBytes)
  (hb : Backed (houseOf selected a base) operand ((houseOf selected a base).frameAddress o))
  (hindexed : (op.encode .absoluteX).isSome)

include hhidden hline hs ho hb hindexed

omit ho in
/-- A frame access through X as it is. -/
theorem Placing.frame_indexed {depth : ℤ} (hdepth : (view k).indexed = some depth)
    (hblock : block k = [indexedAccess op o depth]) (hview : view (k + 1) = view k) :
    ∃ d', Behind e selected live a block view base k (s.exec e.linkage op operand) d.trace d d' := by
  obtain ⟨hcalm, -⟩ := isCalm_of_encode (.inr rfl) hindexed
  have hop : op ≠ .jsr := by
    rintro rfl
    exact absurd hcalm (by decide)
  have hx := hs.indexed depth hdepth
  have heffective := effective_indexed (houseOf selected a base) o hx e.linkage
  have hget : a.code[d.line]? = some (indexedAccess op o depth) := by
    rw [hs.line]
    exact hp.getElem? hline (j := 0) (by rw [hblock]; rfl)
  have hmachine : (d.pass e op (.absoluteX (.absolute (UInt16.ofNat
      (indexedAddress o depth).toNat)))).store.machine =
      d.store.machine.execute op (.address ((houseOf selected a base).frameAddress o)) := by
    rw [← heffective]
    rfl
  refine ⟨_, reaches_pass hget hcalm.1 hindexed, ?_, ?_, rfl, ?_, fun depth' hdepth' => ?_⟩
  · rw [offset_succ, hblock, ← hs.line]
    rfl
  · refine (congrArg (d.trace ++ ·) (writeEvents_hidden heffective (hhidden _ ?_))).trans
      (List.append_nil _)
    exact hb.isPrivate hp.fits
  · rw [hmachine]
    exact hp.access hline hb hs.housed (fun _ h => h) (hp.follows hline hop)
  · rw [hview, hdepth] at hdepth'
    cases hdepth'
    have hkeep := execute_keeps operand hcalm.1 d.store.machine
      (t := .address ((houseOf selected a base).frameAddress o)) (r := .x) (by simp)
      (effects_indexed hindexed operand).2.1
    rw [Store.regs, hmachine]
    rw [show (d.store.machine.execute op _).regs.x = d.store.regs.x from hkeep]
    exact hx

/-- A frame access for which X is loaded from the stack pointer. -/
theorem Placing.frame_loading (hx : (live.liveIn k).contains (.reg .x) = false)
    (hnz : (op.effects (.frame 0)).writesNZ = true ∨ live.isLiveOut k .nz = false)
    (hblock : block k = [.op .tsx .implied, indexedAccess op o (view k).depth])
    (hview : view (k + 1) = { view k with indexed := some (view k).depth }) :
    ∃ d', Behind e selected live a block view base k (s.exec e.linkage op operand) d.trace d d' := by
  obtain ⟨hcalm, -⟩ := isCalm_of_encode (.inr rfl) hindexed
  obtain ⟨hreadsX, hwritesX, -⟩ := effects_indexed hindexed operand
  have hop : op ≠ .jsr := by
    rintro rfl
    exact absurd hcalm (by decide)
  have hk : k < selected.code.length := (List.getElem?_eq_some_iff.mp hline).1
  obtain ⟨hsp, -, -⟩ := hp.stack hk.le hs.comes
  have hget : ∀ j placed, (block k)[j]? = some placed → a.code[d.line + j]? = some placed := by
    intro j placed hj
    rw [hs.line]
    exact hp.getElem? hline hj
  -- Behind `TSX`: X is the stack pointer, and neither X nor the flags are those of the selected
  -- code.
  have hloaded := hs.housed.tsx (hp.x_free ho)
  have hindex : ((d.pass e .tsx .implied).store.machine.regs.x.toNat : ℤ) + (view k).depth =
      base.toNat := by
    change (d.store.machine.regs.sp.toNat : ℤ) + _ = _
    rw [← hs.housed.regs.sp]
    exact hsp
  have heffective := effective_indexed (houseOf selected a base) o hindex e.linkage
  have hmachine : ((d.pass e .tsx .implied).pass e op (.absoluteX (.absolute (UInt16.ofNat
      (indexedAddress o (view k).depth).toNat)))).store.machine =
      (d.store.machine.execute .tsx .none).execute op
        (.address ((houseOf selected a base).frameAddress o)) := by
    rw [← heffective]
    rfl
  refine ⟨_, (reaches_pass (hget 0 _ (by rw [hblock]; rfl)) rfl rfl).trans
    (reaches_pass (hget 1 (indexedAccess op o (view k).depth) (by rw [hblock]; rfl)) hcalm.1
      hindexed), ?_, ?_, rfl, ?_,
    fun depth' hdepth' => ?_⟩
  · rw [offset_succ, hblock, ← hs.line]
    rfl
  · refine (congrArg ((d.trace ++ []) ++ ·) (writeEvents_hidden heffective (hhidden _ ?_))).trans ?_
    · exact hb.isPrivate hp.fits
    · simp
  · rw [hmachine]
    have hfollows := hp.follows hline hop
    refine hp.access hline hb hloaded (fun v hv => ⟨⟨hv, by simp⟩, by simp⟩)
      ⟨fun h => ?_, fun h => ⟨⟨hfollows.readsY h, by simp⟩, by simp⟩, fun h => ?_,
        fun h => (hfollows.y h).imp_left fun h => ⟨⟨h, by simp⟩, by simp⟩, fun h => .inr ?_⟩
    · rw [hreadsX] at h
      cases h
    · refine absurd ((hfollows.x h).resolve_right (by simp [hwritesX])) ?_
      unfold Before
      rw [hx]
      exact Bool.false_ne_true
    · rw [writesNZ_eq op operand (.frame 0)]
      refine hnz.resolve_right ?_
      rw [show live.isLiveOut k .nz = true from h]
      exact Bool.noConfusion
  · rw [hview] at hdepth'
    cases hdepth'
    have hkeep := execute_keeps operand hcalm.1 (d.store.machine.execute .tsx .none)
      (t := .address ((houseOf selected a base).frameAddress o)) (r := .x) (by simp) hwritesX
    rw [Store.regs, hmachine]
    rw [show ((d.store.machine.execute .tsx .none).execute op _).regs.x = _ from hkeep]
    exact hindex

/-- A frame access with the flags saved around it. -/
theorem Placing.frame_saving (hx : (live.liveIn k).contains (.reg .x) = false)
    (hnz : (op.effects (.frame 0)).writesNZ = false)
    (hblock : block k = [.op .php .implied, .op .tsx .implied,
      indexedAccess op o ((view k).depth + 1), .op .plp .implied])
    (hview : view (k + 1) = { view k with indexed := some ((view k).depth + 1) }) :
    ∃ d', Behind e selected live a block view base k (s.exec e.linkage op operand) d.trace d d' := by
  obtain rfl := (effects_indexed hindexed (.frame 0)).2.2 hnz
  have hk : k < selected.code.length := (List.getElem?_eq_some_iff.mp hline).1
  obtain ⟨hsp, hpos, -⟩ := hp.stack hk.le hs.comes
  have hprivate := hb.isPrivate hp.fits
  have hget : ∀ j placed, (block k)[j]? = some placed → a.code[d.line + j]? = some placed := by
    intro j placed hj
    rw [hs.line]
    exact hp.getElem? hline hj
  have hnext : (d.store.machine.regs.sp - 1).toNat = s.regs.sp.toNat - 1 := by
    have hone : (1 : UInt8) ≤ s.regs.sp := UInt8.le_iff_toNat_le.mpr hpos
    rw [show d.store.machine.regs.sp = s.regs.sp from hs.housed.regs.sp.symm,
      UInt8.toNat_sub_of_le _ _ hone, UInt8.toNat_one]
  have hindex : (((d.pass e .php .implied).pass e .tsx .implied).store.machine.regs.x.toNat : ℤ) +
      ((view k).depth + 1) = base.toNat := by
    change ((d.store.machine.regs.sp - 1).toNat : ℤ) + _ = _
    rw [hnext]
    omega
  have heffective := effective_indexed (houseOf selected a base) o hindex e.linkage
  have hmachine : ((((d.pass e .php .implied).pass e .tsx .implied).pass e .sta
      (.absoluteX (.absolute (UInt16.ofNat
        (indexedAddress o ((view k).depth + 1)).toNat)))).pass e .plp .implied).store.machine =
      saved d.store.machine ((houseOf selected a base).frameAddress o) := by
    unfold saved
    rw [← heffective]
    rfl
  refine ⟨_, (((reaches_pass (hget 0 _ (by rw [hblock]; rfl)) rfl rfl).trans
    (reaches_pass (hget 1 _ (by rw [hblock]; rfl)) rfl rfl)).trans
    (reaches_pass (hget 2 _ (by rw [hblock]; rfl)) rfl rfl)).trans
    (reaches_pass (hget 3 _ (by rw [hblock]; rfl)) rfl rfl), ?_, ?_, rfl, ?_,
    fun depth' hdepth' => ?_⟩
  · rw [offset_succ, hblock, ← hs.line]
    rfl
  · refine (congrArg (fun events => ((d.trace ++ []) ++ []) ++ events ++ [])
      (writeEvents_hidden heffective (hhidden _ hprivate))).trans ?_
    simp
  · rw [hmachine]
    refine (Housed.saving hp.fits hs.housed (hp.x_free ho) hprivate fun m' _ _ hm' =>
      hp.access (e := e) hline hb hm' (fun _ h => h) (hp.follows hline (by simp))).mono
      fun item hitem => ⟨hitem, ?_⟩
    rintro rfl
    have hlive := (hp.follows hline (by simp)).x hitem
    have hbefore : Before live k (.reg .x) := hlive.resolve_right (by simp [Opcode.effects])
    unfold Before at hbefore
    rw [hx] at hbefore
    cases hbefore
  · rw [hview] at hdepth'
    cases hdepth'
    rw [Store.regs, hmachine, regs_saved hp.fits hs.housed hprivate]
    dsimp only
    rw [hnext]
    omega

/-- **The block of a frame access** does what the access does. -/
theorem Placing.frame_block (hlines : Accesses live (view k) k op o (block k) (view (k + 1))) :
    ∃ d', Behind e selected live a block view base k (s.exec e.linkage op operand) d.trace d d' := by
  generalize hblock : block k = lines at hlines
  generalize hview : view (k + 1) = view' at hlines
  cases hlines with
  | indexed hdepth => exact hp.frame_indexed hhidden hline hs hb hindexed hdepth hblock hview
  | saving _ hx hnz => exact hp.frame_saving hhidden hline hs ho hb hindexed hx hnz hblock hview
  | loading _ hx hnz => exact hp.frame_loading hhidden hline hs ho hb hindexed hx hnz hblock hview

end Blocks

end Codegen6502.Proofs.Allocating.Blockwise
