import Codegen6502.Proofs.Allocating.Assignment
import Codegen6502.Proofs.Allocating.NeededX
import Codegen6502.Proofs.Selecting.FrameReach

/-!
# What allocation comes to

Allocating the code that has been selected for a function succeeds or reports that the frame is too
large, apart from two ways in which it fails at an access to the frame (`Fault`).

* X is taken for needed where it would have to be loaded from the stack pointer.  This takes a call
  of a fixed address without a byte for X, a jump back into a capture of the same function, or the
  end of a body without a return of a word (`HoldsX`).
* The frame is so large that the access would lie past the stack page, because bytes have been
  pushed since the entry.

`allocate_outcome` says so for every function whose labels are placed, every layout of the zero page
and every set of clobbers.
-/

namespace Codegen6502.Proofs.Allocating.Outcomes

open Allocation Computations Selection Scan Assignment NeededX
open Liveness.Flow Liveness.Intervals
open Selecting.Growth Selecting.Shapes Selecting.Bodies Selecting.FrameReach

/-! ### Faults -/

/-- What makes X be taken for needed where nothing waits in it: a call of a fixed address is taken
to read every register, a jump to a capture needs what is needed behind the capture, and the exit of
a function that returns a word reads X even where no return has set it. -/
def HoldsX (f : FunctionDef) (b : Binding) : Prop :=
  (∃ address a y clobbers result, .asmCall address a none y clobbers result ∈ f.body) ∨
  ((∃ result buffer, .setJmp result buffer ∈ f.body) ∧
    ∃ buffer value, .longJmp buffer value ∈ f.body) ∨
  (exitsWithX b = true ∧ bodyEndsWithX b f.body = false)

/-- A byte of a frame of size `n` that lies past the stack page.  What is pushed at most is one byte
more than what the nodes push, for the flags. -/
structure PastPage (bindings : Std.TreeMap String Binding) (f : FunctionDef) (n : ℕ)
    (offset : UInt8) (depth : ℤ) : Prop where
  byte : offset.toNat < n ∨ ∃ node ∈ f.body, offset ∈ looseBytes node
  pushed : 0 ≤ depth ∧ depth ≤ pushDepth bindings f.body + 1
  past : (offset.toNat : ℤ) + depth < -1 ∨ 254 < (offset.toNat : ℤ) + depth

/-- The ways in which an access to a frame of size `n` fails. -/
inductive Fault (bindings : Std.TreeMap String Binding) (f : FunctionDef) (b : Binding) (name : String)
    (n : ℕ) : CompileError → Prop
  | heldX (i : ℕ) (h : HoldsX f b) : Fault bindings f b name n
      (.internal s!"'{name}': X is live across a frame access at instruction {i}")
  | pastPage (offset : UInt8) (depth : ℤ) (h : PastPage bindings f n offset depth) :
      Fault bindings f b name n
        (.internal s!"frame byte {offset.toNat} at push depth {depth} falls outside the stack page")

/-- What allocation comes to for a frame of size `n`. -/
inductive Outcome (bindings : Std.TreeMap String Binding) (f : FunctionDef) (b : Binding)
    (name : String) (n : ℕ) : Compile AllocatedCode → Prop
  | allocated (a : AllocatedCode) (h : n ≤ 255) : Outcome bindings f b name n (.ok a)
  | tooLarge (h : 255 < n) : Outcome bindings f b name n
      (.error (.invalidProgram name s!"stack frame of {n} bytes exceeds 255"))
  | failed (e : CompileError) (h : n ≤ 255) (hfault : Fault bindings f b name n e) :
      Outcome bindings f b name n (.error e)

/-! ### Computations that fail in known ways -/

/-- A computation that fails, if at all, with an error of a kind. -/
def Meets {α : Type} (F : CompileError → Prop) (x : Compile α) : Prop := ∀ e, x = .error e → F e

section Meets

variable {α β : Type} {F : CompileError → Prop} {x : Compile α} {g : α → Compile β}

theorem meets_ok {a : α} (h : x = .ok a) : Meets F x := by
  intro e he
  rw [h] at he
  cases he

theorem Meets.bind (h : Meets F x) (hg : ∀ a, x = .ok a → Meets F (g a)) : Meets F (x >>= g) := by
  intro e he
  cases hx : x with
  | ok a =>
    rw [hx] at he
    exact hg a hx e he
  | error e' =>
    rw [hx] at he
    cases he
    exact h e hx

end Meets

/-! ### The rules for a function -/

section Rules

variable {bindings : Std.TreeMap String Binding} {f : FunctionDef} {b : Binding} {locals : UInt8}

/-- The rules that the code of a function keeps. -/
def rulesOf (bindings : Std.TreeMap String Binding) (f : FunctionDef) (b : Binding)
    (locals : UInt8) : Rules where
  reach offset := offset < locals ∨ ∃ node ∈ f.body, offset ∈ looseBytes node
  names l := l = Naming.exitLabel f.name ∨
    ∃ id, .label id ∈ f.body ∧ l = Naming.nodeLabel f.name id
  places _ := True
  deepest := pushDepth bindings f.body
  strict := ¬HoldsX f b
  xAt := xAtExit f.name b
  resumes := ∃ result buffer, .setJmp result buffer ∈ f.body

theorem fits_rulesOf (hlocals : frameLocals f = .ok locals)
    (hkind : Convention.returnKind? b.returnType = some b.returnKind)
    (hlabels : ∀ node ∈ f.body, ∀ id ∈ targetsOf node, .label id ∈ f.body) :
    Fits (rulesOf bindings f b locals) bindings f b where
  inner n := ⟨by simp [rulesOf, xAtExit, innerLabel_ne_exitLabel], trivial⟩
  label _ _ := trivial
  target node hnode id hid :=
    ⟨Or.inr ⟨id, hlabels node hnode id hid, rfl⟩, by simp [rulesOf, xAtExit, nodeLabel_ne_exitLabel]⟩
  exit := Or.inl rfl
  placed := trivial
  exitX := by simp [rulesOf, xAtExit]
  reached node hnode := reached_of_loose hlocals hnode hkind (fun _ => Or.inl) fun o ho =>
    Or.inr ⟨node, hnode, ho⟩
  deep _ hnode := le_pushDepth hnode
  x node hnode := by
    cases node with
    | asmCall address a x y clobbers result =>
      rintro rfl hstrict
      exact hstrict (Or.inl ⟨address, a, y, clobbers, result, hnode⟩)
    | setJmp result buffer => exact ⟨result, buffer, hnode⟩
    | longJmp buffer value =>
      exact fun hstrict hresumes => hstrict (Or.inr (Or.inl ⟨hresumes, buffer, value, hnode⟩))
    | _ => trivial

end Rules

/-! ### The stack pointer -/

section View

variable {r : Rules} {known : String → Prop} {p q : Point} {view : StackView} {line : Line}
  {target? : Option CallTarget}

/-- The view of the stack agrees with a point of the walk. -/
def Tracks (r : Rules) (view : StackView) (p : Point) : Prop :=
  view.depth = p.depth ∧
    ∀ depth, view.indexed = some depth → 0 ≤ depth ∧ depth ≤ r.deepest + 1

/-- The instructions that leave the stack pointer alone and do not copy it. -/
def leavesStack : Opcode → Bool
  | .pha | .php | .pla | .plp | .tsx => false
  | _ => true

theorem after_of_leavesStack (view : StackView) {opcode : Opcode} (operand : Operand)
    (h : leavesStack opcode = true) : (view.after (.op opcode operand)).depth = view.depth ∧
      ((view.after (.op opcode operand)).indexed = view.indexed ∨
        (view.after (.op opcode operand)).indexed = none) := by
  have htsx : opcode ≠ .tsx := by
    rintro rfl
    cases h
  constructor
  · unfold StackView.after
    cases opcode <;> first | rfl | cases h
  · simp only [StackView.after, if_neg htsx]
    split
    · exact Or.inr rfl
    · exact Or.inl rfl

theorem Tracks.leave {opcode : Opcode} {operand : Operand} (h : Tracks r view p)
    (hop : leavesStack opcode = true) (hdepth : q.depth = p.depth) :
    Tracks r (view.after (.op opcode operand)) q := by
  obtain ⟨hdepth', hindexed⟩ := h
  obtain ⟨hafter, hor⟩ := after_of_leavesStack view operand hop
  refine ⟨by rw [hafter, hdepth', hdepth], fun depth hsome => ?_⟩
  rcases hor with heq | heq
  · exact hindexed depth (heq ▸ hsome)
  · rw [heq] at hsome
    cases hsome

/-- **The view keeps agreeing** along a line that is kept. -/
theorem Tracks.step (h : Tracks r view p) (hstep : Step r known p q (line, target?)) :
    Tracks r (view.after line) q := by
  cases hstep with
  | @plain d x opcode operand hop hwithin haccess hdeep hx =>
    refine h.leave ?_ rfl
    revert hop
    cases opcode <;> first | exact fun _ => rfl | (intro hop; cases hop)
  | push n x =>
    refine ⟨?_, h.2⟩
    change view.depth + 1 = _
    rw [h.1]
    push_cast
    rfl
  | pull n x =>
    refine ⟨?_, h.2⟩
    change view.depth - 1 = _
    rw [h.1]
    push_cast
    omega
  | setX d x x' hset hdeep =>
    obtain rfl | rfl | ⟨i, rfl⟩ := hset
    · exact h.leave rfl rfl
    · refine ⟨h.1, fun depth hsome => ?_⟩
      obtain rfl : view.depth = depth := Option.some.inj hsome
      have hle : (d : ℤ) ≤ r.deepest := by exact_mod_cast hdeep
      have hd : view.depth = d := h.1
      omega
    · exact h.leave rfl rfl
  | useX d x x' huse hx =>
    obtain rfl | rfl | ⟨cell, rfl⟩ := huse <;> exact h.leave rfl rfl
  | call d x x' hoperand hx hresumes => exact h.leave rfl rfl
  | @branch opcode target x hop hknown hx =>
    refine h.leave ?_ rfl
    revert hop
    cases opcode <;> first | exact fun _ => rfl | (intro hop; cases hop)
  | jump x x' hknown hx => exact h.leave rfl rfl
  | escape x x' hescape => exact h.leave rfl rfl
  | label x hplaces hx => exact ⟨h.1, fun depth hsome => by cases hsome⟩

end View

/-! ### Placing -/

section Place

variable {bindings : Std.TreeMap String Binding} {f : FunctionDef} {b : Binding} {locals : UInt8}
  {n : ℕ} {points : ℕ → Point} {p : Placement} {code : List Line}

/-- An access to a frame byte at a depth that is known. -/
theorem meets_frameAccess {offset : UInt8} {depth : ℤ} (opcode : Opcode) (name : String)
    (hbyte : offset.toNat < n ∨ ∃ node ∈ f.body, offset ∈ looseBytes node)
    (hpushed : 0 ≤ depth ∧ depth ≤ pushDepth bindings f.body + 1) :
    Meets (Fault bindings f b name n) (frameAccess opcode offset depth) := by
  intro e he
  unfold frameAccess at he
  dsimp only at he
  split at he
  · cases he
  · rename_i hpage
    cases he
    refine .pastPage offset depth ⟨hbyte, hpushed, ?_⟩
    simp only [Bool.and_eq_true, decide_eq_true_eq] at hpage
    omega

/-- What is known of code while it is placed. -/
structure Placeable (bindings : Std.TreeMap String Binding) (f : FunctionDef) (b : Binding)
    (locals : UInt8) (n : ℕ) (points : ℕ → Point) (p : Placement) (code : List Line) : Prop where
  size : locals.toNat ≤ n
  step : ∀ (k : ℕ) (line : Line), code[k]? = some line → ∃ known target?,
    Step (rulesOf bindings f b locals) known (points k) (points (k + 1)) (line, target?)
  located : ∀ (k : ℕ) (opcode : Opcode) (v : VReg), code[k]? = some (.op opcode (.virtual v)) →
    isAccess opcode = true → ∃ location, p.locations[v.index]? = some location ∧
      (∀ o, location = .stack o → o.toNat < n) ∧
      ∀ reg, location = .reg reg → opcode = .lda ∨ opcode = .sta
  liveX : ¬HoldsX f b → ∀ k, (p.live.liveIn k).contains (.reg .x) = true → (points k).x = true

/-- The operands that are placed are those of plain lines. -/
theorem plain_of_preAllocation {r : Rules} {known : String → Prop} {p q : Point} {opcode : Opcode}
    {operand : Operand} {target? : Option CallTarget}
    (h : Step r known p q (.op opcode operand, target?)) (hpre : operand.isPreAllocation = true) :
    isPlain opcode = true ∧ Within r.reach operand ∧ isAccess opcode = true ∧
      p.depth ≤ r.deepest ∧ (r.strict → p.x = false) ∧ q = p := by
  cases h with
  | plain hop hwithin haccess hdeep hx =>
    exact ⟨hop, hwithin, haccess hpre, hdeep, fun hs => hx hs hpre, rfl⟩
  | setX d x x' hset hdeep =>
    obtain hline | hline | ⟨i, hline⟩ := hset <;> cases hline <;> cases hpre
  | useX d x x' huse hx =>
    obtain hline | hline | ⟨cell, hline⟩ := huse <;> cases hline <;> cases hpre
  | call d x x' hoperand hx hresumes =>
    rw [hpre] at hoperand
    cases hoperand
  | _ => cases hpre

variable (h : Placeable bindings f b locals n points p code)

include h

/-- **An access to the frame** fails only in the known ways, and leaves a view that still agrees. -/
theorem meets_frameLines {view : StackView} {k : ℕ} {opcode : Opcode} {offset : UInt8}
    (hbyte : offset.toNat < n ∨ ∃ node ∈ f.body, offset ∈ looseBytes node)
    (hview : Tracks (rulesOf bindings f b locals) view (points k))
    (hdeep : (points k).depth ≤ pushDepth bindings f.body)
    (hx : ¬HoldsX f b → (points k).x = false) :
    Meets (Fault bindings f b p.function n) (p.frameLines view k opcode offset) ∧
      ∀ lines view', p.frameLines view k opcode offset = .ok (lines, view') →
        Tracks (rulesOf bindings f b locals) view' (points k) := by
  have hdeep' : ((points k).depth : ℤ) ≤ pushDepth bindings f.body := by exact_mod_cast hdeep
  unfold Placement.frameLines
  split
  · rename_i depth hindexed
    refine ⟨(meets_frameAccess opcode _ hbyte (hview.2 depth hindexed)).bind fun _ _ => meets_ok rfl,
      fun lines view' hok => ?_⟩
    obtain ⟨line, -, hok⟩ := bind_eq_ok.mp hok
    cases hok
    exact hview
  · split
    · rename_i hlive
      refine ⟨?_, fun lines view' hok => by cases hok⟩
      intro e he
      cases he
      refine .heldX k (by_contra fun hheld => ?_)
      have hneeded := h.liveX hheld k hlive
      rw [hx hheld] at hneeded
      cases hneeded
    · dsimp only
      have hdepth := hview.1
      refine ⟨(meets_frameAccess opcode _ hbyte ?_).bind fun _ _ => meets_ok rfl, ?_⟩
      · split <;> omega
      · intro lines view' hok
        obtain ⟨line, -, hok⟩ := bind_eq_ok.mp hok
        cases hok
        refine ⟨hdepth, fun depth hsome => ?_⟩
        have hsome' := Option.some.inj hsome
        rw [← hsome']
        change 0 ≤ _ ∧ _ ≤ (pushDepth bindings f.body : ℤ) + 1
        split <;> omega

/-- A line with its virtual register placed. -/
theorem exists_line {k : ℕ} {line : Line} (hline : code[k]? = some line) :
    ∃ placed, p.line line = .ok placed ∧
      (placed = some line ∨ ∃ opcode v, line = .op opcode (.virtual v) ∧
        (placed = none ∨ (∃ opcode' operand, placed = some (.op opcode' operand) ∧
            leavesStack opcode' = true ∧ operand.isPreAllocation = false) ∨
          ∃ o, placed = some (.op opcode (.frame o)) ∧ o.toNat < n)) := by
  by_cases hvirtual : ∃ opcode v, line = .op opcode (.virtual v)
  · obtain ⟨opcode, v, rfl⟩ := hvirtual
    obtain ⟨known, target?, hstep⟩ := h.step k _ hline
    obtain ⟨hplain, -, haccess, -⟩ := plain_of_preAllocation hstep rfl
    obtain ⟨location, hlocation, hstack, hreg⟩ := h.located k opcode v hline haccess
    simp only [Placement.line, Placement.access, hlocation]
    have hleaves : leavesStack opcode = true := by
      revert hplain
      cases opcode <;> first | exact fun _ => rfl | (intro hplain; cases hplain)
    cases location with
    | zeroPage cell =>
      exact ⟨_, rfl, Or.inr ⟨opcode, v, rfl, Or.inr (Or.inl ⟨_, _, rfl, hleaves, rfl⟩)⟩⟩
    | stack o => exact ⟨_, rfl, Or.inr ⟨opcode, v, rfl, Or.inr (Or.inr ⟨o, rfl, hstack o rfl⟩)⟩⟩
    | reg reg =>
      rcases hreg reg rfl with rfl | rfl <;> cases reg <;>
        first
          | exact ⟨_, rfl, Or.inr ⟨_, v, rfl, Or.inl rfl⟩⟩
          | exact ⟨_, rfl, Or.inr ⟨_, v, rfl, Or.inr (Or.inl ⟨_, _, rfl, rfl, rfl⟩)⟩⟩
  · refine ⟨some line, ?_, Or.inl rfl⟩
    unfold Placement.line
    split
    · exact absurd ⟨_, _, rfl⟩ hvirtual
    · rfl

/-- An access that stands in the code. -/
theorem meets_access {k : ℕ} {line : Line} (hline : code[k]? = some line) {opcode : Opcode}
    {operand : Operand} (hop : line = .op opcode operand) (hpre : operand.isPreAllocation = true)
    {view : StackView} (hview : Tracks (rulesOf bindings f b locals) view (points k)) {offset : UInt8}
    (hbyte : offset.toNat < n ∨ ∃ node ∈ f.body, offset ∈ looseBytes node) :
    Meets (Fault bindings f b p.function n) (p.frameLines view k opcode offset) ∧
      ∀ lines view', p.frameLines view k opcode offset = .ok (lines, view') →
        Tracks (rulesOf bindings f b locals) view' (points (k + 1)) := by
  subst hop
  obtain ⟨known, target?, hstep⟩ := h.step k _ hline
  obtain ⟨-, -, -, hdeep, hx, hpoint⟩ := plain_of_preAllocation hstep hpre
  rw [hpoint]
  exact meets_frameLines h hbyte hview hdeep hx

/-- **Placing** fails only in the known ways. -/
theorem meets_place (calls : Std.TreeMap ℕ CallTarget) : ∀ (rest : List Line) (k pos : ℕ)
    (view : StackView), code.drop k = rest →
    Tracks (rulesOf bindings f b locals) view (points k) →
    Meets (Fault bindings f b p.function n) (p.place calls view k pos rest)
  | [], _, _, _, _, _ => meets_ok rfl
  | line :: rest, k, pos, view, hdrop, hview => by
    have hline : code[k]? = some line := by
      rw [← List.head?_drop, hdrop]
      rfl
    have hrest : code.drop (k + 1) = rest := by
      rw [← List.drop_drop, hdrop]
      rfl
    obtain ⟨known, target?, hstep⟩ := h.step k line hline
    obtain ⟨placed, hplaced, hcases⟩ := exists_line h hline
    have ih := fun pos view => meets_place calls rest (k + 1) pos view hrest
    rw [Placement.place]
    refine (meets_ok hplaced).bind fun placed' hplaced' => ?_
    obtain rfl : placed = placed' := by
      rw [hplaced] at hplaced'
      exact Except.ok.inj hplaced'
    split
    · -- The line disappears.
      rcases hcases with hkept | ⟨opcode, v, rfl, -⟩
      · cases hkept
      · refine ih pos view ?_
        rw [(plain_of_preAllocation hstep rfl).2.2.2.2.2]
        exact hview
    · -- The line is an access to the frame, of its own or for a virtual register.
      rename_i opcode offset
      obtain ⟨hmeets, htracks⟩ : Meets (Fault bindings f b p.function n)
            (p.frameLines view k opcode offset) ∧
          ∀ lines view', p.frameLines view k opcode offset = .ok (lines, view') →
            Tracks (rulesOf bindings f b locals) view' (points (k + 1)) := by
        rcases hcases with hkept | ⟨opcode', v, hvirtual, hnone | hplain | ⟨o, hframe, ho⟩⟩
        · obtain rfl := Option.some.inj hkept
          refine meets_access h hline rfl rfl hview ?_
          exact (plain_of_preAllocation hstep rfl).2.1.imp_left fun hlt =>
            lt_of_lt_of_le (UInt8.lt_iff_toNat_lt.mp hlt) h.size
        · cases hnone
        · obtain ⟨opcode', operand, heq, -, hpre⟩ := hplain
          cases heq
          cases hpre
        · cases hframe
          exact meets_access h hline hvirtual rfl hview (Or.inl ho)
      refine hmeets.bind fun out hlines => ?_
      obtain ⟨lines, view'⟩ := out
      exact (ih _ view' (htracks lines view' hlines)).bind fun _ _ => meets_ok rfl
    · rename_i line' hnotFrame
      refine (ih _ _ ?_).bind fun _ _ => meets_ok rfl
      rcases hcases with hkept | ⟨opcode', v, rfl, hnone | hplain | ⟨o, hframe, -⟩⟩
      · obtain rfl := Option.some.inj hkept
        exact hview.step hstep
      · cases hnone
      · obtain ⟨opcode', operand, heq, hleaves, -⟩ := hplain
        obtain rfl := Option.some.inj heq
        refine hview.leave hleaves ?_
        rw [(plain_of_preAllocation hstep rfl).2.2.2.2.2]
      · obtain rfl := Option.some.inj hframe
        exact absurd rfl (hnotFrame _ _)

end Place

/-! ### Whole functions -/

section Functions

variable {conv : Convention} {bindings : Std.TreeMap String Binding} {limits : Limits}
  {f : FunctionDef} {b : Binding} {s : SelectedCode}

/-- The size of the frame: locals and slots. -/
def frameSize (z : ZeroPage) (s : SelectedCode) (b : Binding)
    (callClobbers : Std.TreeMap ℕ Clobbers) (live : Liveness) : ℕ :=
  s.locals.toNat + (assign (problemOf z s b callClobbers live)).1.slotEnds.length

/-- **Every virtual register that is accessed has a location**, in the frame if there is room, and a
register only if it is loaded and stored. -/
theorem exists_location {z : ZeroPage} {callClobbers : Std.TreeMap ℕ Clobbers} {live : Liveness}
    (hlive : Liveness.compute s.code s.calls b.returnKind.registers = .ok live)
    (hsize : frameSize z s b callClobbers live ≤ 255) {k : ℕ} {opcode : Opcode} {v : VReg}
    (hk : s.code[k]? = some (.op opcode (.virtual v))) (haccess : isAccess opcode = true) :
    ∃ location,
      (assign (problemOf z s b callClobbers live)).1.locations[v.index]? = some location ∧
      (∀ o, location = .stack o → o.toNat < frameSize z s b callClobbers live) ∧
      ∀ reg, location = .reg reg → opcode = .lda ∨ opcode = .sta := by
  have hjsr : opcode ≠ .jsr := by
    rintro rfl
    cases haccess
  have hconcerns : Concerns live (.op opcode (.virtual v)) s.calls[k]? k v := by
    simp only [Concerns, uses_op hjsr, defs_op hjsr, itemsOf_vreg, Operand.vreg?]
    rcases Bool.or_eq_true_iff.mp haccess with hreads | hwrites
    · exact Or.inr (Or.inl (by simp [hreads]))
    · exact Or.inr (Or.inr (Or.inl (by simp [hwrites])))
  obtain ⟨interval, hinterval, -⟩ := intervals_cover (solves_of_compute hlive) hk hconcerns
  obtain ⟨useX, -, hassign, -⟩ := assign_cases (problemOf z s b callClobbers live)
  unfold frameSize at hsize ⊢
  rw [hassign] at hsize ⊢
  obtain ⟨slotOf, hscanned⟩ := scanned_scan { problemOf z s b callClobbers live with useX }
  obtain ⟨location, hlocation, -⟩ := hscanned.active (v.index, interval) (mem_order.mpr hinterval)
  refine ⟨location, hlocation, fun o ho => ?_, fun reg hreg => ?_⟩
  · rw [ho] at hlocation
    exact (scan_stack hsize hlocation).2
  · rw [hreg] at hlocation
    exact (scan_reg hlocation).2.1 (k, opcode) (mem_accesses.mpr hk)

/-- The result of an allocation, from the lines and calls that have been placed. -/
def allocatedAs (z : ZeroPage) (s : SelectedCode) (b : Binding)
    (callClobbers : Std.TreeMap ℕ Clobbers) (live : Liveness)
    (placed : List Line × List (ℕ × CallTarget)) : AllocatedCode where
  name := s.name
  code := placed.1
  calls := .ofList placed.2
  frameBytes := UInt8.ofNat (frameSize z s b callClobbers live)
  locations := (assign (problemOf z s b callClobbers live)).1.locations
  slots := (assign (problemOf z s b callClobbers live)).1.slotEnds.length
  reruns := (assign (problemOf z s b callClobbers live)).2

theorem allocate_eq {z : ZeroPage} {callClobbers : Std.TreeMap ℕ Clobbers} {live : Liveness}
    (hlive : Liveness.compute s.code s.calls b.returnKind.registers = .ok live) :
    allocate z s b callClobbers =
      if frameSize z s b callClobbers live > 255 then
        .error (.invalidProgram s.name
          s!"stack frame of {frameSize z s b callClobbers live} bytes exceeds 255")
      else
        Placement.place ⟨s.name, live, (assign (problemOf z s b callClobbers live)).1.locations⟩
          s.calls {} 0 0 s.code >>= fun placed =>
            .ok (allocatedAs z s b callClobbers live placed) := by
  unfold allocate
  rw [hlive]
  rfl

/-- The code of a function whose labels are placed can be placed. -/
theorem exists_placeable (h : selectFunction conv bindings limits f = .ok s)
    (hb : bindings[f.name]? = some b) (hbound : Bound conv bindings)
    (hlabels : ∀ node ∈ f.body, ∀ id ∈ targetsOf node, .label id ∈ f.body)
    (z : ZeroPage) (callClobbers : Std.TreeMap ℕ Clobbers) :
    ∃ live points, Liveness.compute s.code s.calls b.returnKind.registers = .ok live ∧
      points 0 = idle ∧ (frameSize z s b callClobbers live ≤ 255 →
        Placeable bindings f b s.locals (frameSize z s b callClobbers live) points
          ⟨s.name, live, (assign (problemOf z s b callClobbers live)).1.locations⟩ s.code) := by
  obtain ⟨b', hb', hkind⟩ := bound_of_selected h hbound
  obtain rfl : b = b' := by
    rw [hb] at hb'
    exact Option.some.inj hb'
  obtain ⟨-, -, -, -, -, -, -, hlocals, -, -, -⟩ := selectFunction_ok h hb
  obtain ⟨es, hes⟩ := selected_outline h hb hbound (fits_rulesOf hlocals hkind hlabels)
  obtain ⟨points, halong⟩ := exists_along hes.walk
  have hnames : ∀ name, (rulesOf bindings f b s.locals).names name → .label name ∈ s.code := by
    rintro name (rfl | ⟨id, hid, rfl⟩)
    · exact hes.exit
    · exact hes.labels id hid
  obtain ⟨live, hlive⟩ := exists_live hes hnames b.returnKind.registers
  refine ⟨live, points, hlive, halong.first, fun hsize => ⟨Nat.le_add_right .., ?_, ?_, ?_⟩⟩
  · intro k line hline
    obtain ⟨target?, hk, -⟩ := entry_of_line hes hline
    exact ⟨_, target?, halong.step k _ hk⟩
  · exact fun k opcode v hk haccess => exists_location hlive hsize hk haccess
  · intro hheld k hk
    refine liveX hes halong hheld (fun hexit => ?_) hlive hk
    by_contra hend
    exact hheld (Or.inr (Or.inr ⟨hexit, by simpa using hend⟩))

/-- **What allocating a function comes to**: it succeeds, or the frame is too large, or an access to
the frame fails in one of the known ways. -/
theorem allocate_outcome (h : selectFunction conv bindings limits f = .ok s)
    (hb : bindings[f.name]? = some b) (hbound : Bound conv bindings)
    (hlabels : ∀ node ∈ f.body, ∀ id ∈ targetsOf node, .label id ∈ f.body)
    (z : ZeroPage) (callClobbers : Std.TreeMap ℕ Clobbers) :
    ∃ live, Liveness.compute s.code s.calls b.returnKind.registers = .ok live ∧
      Outcome bindings f b s.name (frameSize z s b callClobbers live)
        (allocate z s b callClobbers) := by
  obtain ⟨live, points, hlive, hfirst, hplaceable⟩ :=
    exists_placeable h hb hbound hlabels z callClobbers
  refine ⟨live, hlive, ?_⟩
  rw [allocate_eq hlive]
  split_ifs with hsize
  · exact .tooLarge hsize
  · have hle := Nat.not_lt.mp hsize
    have hstart : Tracks (rulesOf bindings f b s.locals) {} (points 0) := by
      rw [hfirst]
      exact ⟨rfl, fun depth hsome => by cases hsome⟩
    have hmeets := meets_place (hplaceable hle) s.calls s.code 0 0 {} rfl hstart
    cases hplace : Placement.place ⟨s.name, live,
        (assign (problemOf z s b callClobbers live)).1.locations⟩ s.calls {} 0 0 s.code with
    | ok placed => exact .allocated _ hle
    | error e => exact .failed e hle (hmeets e hplace)

end Functions

/-! ### A call of a fixed address -/

/-- A function that calls a fixed address with a byte of its frame in A. -/
def fixedFunction : FunctionDef where
  signature := { name := "f", params := [], returnType := .void }
  body := [.asmCall 0x0700 (some (.memory (.frameByte 0))) none none { a := true } none, .ret none]

/-- The program of this function alone. -/
def fixedProgram : Program := { name := "m", functions := [fixedFunction] }

/-- Whether allocating a function fails with an internal error. -/
def failsInternally (conv : Convention) (p : Program) (f : FunctionDef) : Compile Bool := do
  let bindings ← Compilation.bindAll conv p
  let s ← selectFunction conv bindings {} f
  match bindings[f.name]? with
  | some b =>
    match allocate conv.zeroPage s b ∅ with
    | .error (.internal _) => return true
    | _ => return false
  | none => return false

/-- Its allocation fails although its frame has one byte: the call is taken to read X, and the byte
cannot be loaded without X. -/
theorem fixed_faults : ∃ bindings b s live e,
    Compilation.bindAll plainConvention fixedProgram = .ok bindings ∧
    bindings["f"]? = some b ∧ selectFunction plainConvention bindings {} fixedFunction = .ok s ∧
    allocate plainConvention.zeroPage s b ∅ = .error (.internal e) ∧
    Fault bindings fixedFunction b s.name (frameSize plainConvention.zeroPage s b ∅ live)
      (.internal e) := by
  have hcheck : (failsInternally plainConvention fixedProgram fixedFunction).toOption.any id =
      true := by decide +kernel
  obtain ⟨fails, hfails, rfl⟩ := ok_of_any hcheck
  obtain ⟨bindings, hbind, hfails⟩ := bind_eq_ok.mp hfails
  obtain ⟨s, hselect, hfails⟩ := bind_eq_ok.mp hfails
  split at hfails
  · rename_i b hb
    have hlabels : ∀ node ∈ fixedFunction.body, ∀ id ∈ targetsOf node,
        .label id ∈ fixedFunction.body := by simp [fixedFunction, targetsOf]
    obtain ⟨live, -, houtcome⟩ := allocate_outcome hselect hb (bound_bindAll hbind) hlabels
      plainConvention.zeroPage ∅
    split at hfails
    · rename_i e he
      rw [he] at houtcome
      cases houtcome with
      | failed e' hsize hfault => exact ⟨bindings, b, s, live, e, hbind, hb, hselect, he, hfault⟩
    · cases hfails
  · cases hfails

end Codegen6502.Proofs.Allocating.Outcomes
