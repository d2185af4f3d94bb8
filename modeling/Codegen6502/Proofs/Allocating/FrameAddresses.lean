import Codegen6502.Proofs.Allocating.Depths
import Codegen6502.Proofs.Allocating.Preservation
import Codegen6502.Proofs.Selecting.Knowing

/-!
# Where frame accesses go

Allocated code reaches its frame through X, which it has loaded from the stack pointer, perhaps some
lines before, and adds the number of bytes that it had pushed by then.  `Keeps` is what a run
upholds of that: the stack pointer is below its value at the start by what the text pushes, and
where the view of the stack counts on X, X holds what the stack pointer was when it was loaded.

* `Keeps.run`: so it is while what is pushed fits below the start (`HasRoom`);
* `frame_bytes_found`: the pushes of a function balance, and every access of its allocated code goes
  to its frame byte;
* `wrapped_access_strays`: where the stack pointer wraps, an access goes 256 bytes too high.
-/

namespace Codegen6502.Proofs.Allocating.FrameAddresses

open Allocation Selection Computations Processor.LineRun Processor.Stepping
open Blocks Blockwise Housing Simulation Preservation Depths Outcomes
open Selecting.Growth Selecting.Shapes Selecting.Bodies Selecting.FrameReach
open Selecting.Knowing (exec_keeps)

variable {code : List Line} {calls : Std.TreeMap ℕ CallTarget} {base : UInt8} {e : Environment}
  {c c' : Config} {op : Opcode} {operand : Operand}

/-! ### What a run upholds -/

/-- The stack pointer is where the text leaves it, X where the view of the stack counts on it, and
captures hold such a stack pointer as well. -/
structure Keeps (code : List Line) (base : UInt8) (c : Config) : Prop where
  stack : (c.sp.toNat : ℤ) + pushed code c.line = base.toNat
  /-- Control comes to a label from elsewhere, where X may hold anything. -/
  indexed : (∀ name, code[c.line]? ≠ some (.label name)) →
    ∀ depth, (viewAt code c.line).indexed = some depth →
      (c.store.regs.x.toNat : ℤ) + depth = base.toNat
  captures : ∀ capture ∈ c.captures, (capture.2.toNat : ℤ) + pushed code capture.1 = base.toNat ∧
    (viewAt code capture.1).indexed = none

/-- What has been pushed so far in a run has always fit below where the stack pointer was at
first. -/
def HasRoom (e : Environment) (code : List Line) (calls : Std.TreeMap ℕ CallTarget) (n : ℕ)
    (c : Config) : Prop :=
  ∀ m ≤ n, ∀ c', run e code calls m c = some c' → pushed code c'.line ≤ c.sp.toNat

theorem keeps_start (hline : c.line = 0) (hcaptures : c.captures = []) : Keeps code c.sp c where
  stack := by rw [hline]; exact add_zero _
  indexed _ depth hdepth := by
    rw [hline] at hdepth
    cases hdepth
  captures capture hcapture := by
    rw [hcaptures] at hcapture
    exact absurd hcapture List.not_mem_nil

/-- Control passes on to the next line. -/
theorem Keeps.next (h : Keeps code base c) {line : Line} (hline : code[c.line]? = some line)
    (hnext : c'.line = c.line + 1) (hcaptures : c'.captures = c.captures)
    (hsp : (c'.sp.toNat : ℤ) + pushes line = c.sp.toNat)
    (hx : ∀ depth, ((viewAt code c.line).after line).indexed = some depth →
      (c'.store.regs.x.toNat : ℤ) + depth = base.toNat) : Keeps code base c' where
  stack := by
    have hstack := h.stack
    rw [hnext, pushed_succ hline]
    omega
  indexed _ depth hdepth := by
    rw [hnext, viewAt_succ hline] at hdepth
    exact hx depth hdepth
  captures := by
    rw [hcaptures]
    exact h.captures

/-- An instruction that control passes through. -/
theorem Keeps.pass (h : Keeps code base c) (hlevel : Level code)
    (hline : code[c.line]? = some (.op op operand)) (hencode : (op.encode operand.mode).isSome)
    (hdata : isData op = true) (hroom : pushed code (c.line + 1) ≤ base.toNat) :
    Keeps code base (c.pass e op operand) := by
  have hstack := h.stack
  have hnext := pushed_succ hline
  have hnonneg := hlevel.nonneg (c.line + 1)
  have hbase := base.toNat_lt
  have hsp : ((c.pass e op operand).sp.toNat : ℤ) + pushes (.op op operand) = c.sp.toNat := by
    have hexec := sp_exec (l := e.linkage) (s := c.store) hdata
      (fun heq => hlevel.noTxs c.line operand (heq ▸ hline)) hencode
      (fun hpush => by change 0 < c.sp.toNat; omega) (fun hpull => by change c.sp.toNat < 0xFF; omega)
    change ((c.store.exec e.linkage op operand).regs.sp.toNat : ℤ) + _ = c.store.regs.sp.toNat
    omega
  refine h.next hline rfl rfl hsp fun depth hdepth => ?_
  by_cases htsx : op = .tsx
  · -- X is the stack pointer, and the view takes note of the depth.
    subst htsx
    obtain rfl : (viewAt code c.line).depth = depth := Option.some.inj hdepth
    rw [depth_viewAt]
    cases operand <;> exact h.stack
  · simp only [StackView.after, if_neg htsx] at hdepth
    split at hdepth
    · cases hdepth
    · rename_i hkeeps
      have hx : regValue (c.store.exec e.linkage op operand).regs .x = regValue c.store.regs .x :=
        exec_keeps hdata hencode (by simpa [RegSet.contains, Line.effects] using hkeeps)
      change (((c.store.exec e.linkage op operand).regs.x).toNat : ℤ) + depth = _
      rw [show (c.store.exec e.linkage op operand).regs.x = c.store.regs.x from hx]
      exact h.indexed (fun name => by rw [hline]; simp) depth hdepth

/-- **One line of level code** upholds what is known of the stack pointer and X. -/
theorem Keeps.step (h : Keeps code base c) (hlevel : Level code)
    (hstep : step e code calls c = some c') (hroom : pushed code c'.line ≤ base.toNat) :
    Keeps code base c' := by
  have hstack := h.stack
  cases goes_of_step hstep with
  | @pseudo line hline hpseudo =>
    cases line with
    | label name => exact h.next hline rfl rfl (add_zero _) fun depth hdepth => by cases hdepth
    | comment text => exact h.next hline rfl rfl (add_zero _) (h.indexed fun name => by rw [hline]; simp)
    | op op operand => cases hpseudo
  | data hline hencode hdata => exact h.pass hlevel hline hencode hdata hroom
  | @stay op target hline hop =>
    have hsame : pushes (.branch op target) = 0 ∧
        (viewAt code c.line).after (.branch op target) = viewAt code c.line := by
      cases op <;> first | exact ⟨rfl, rfl⟩ | cases hop
    refine h.next hline rfl rfl (by rw [hsame.1]; exact add_zero _) ?_
    rw [hsame.2]
    exact h.indexed fun name => by rw [hline]; simp [Line.branch]
  | @goto line target i trace hline hgoes hi =>
    have hturn : isTurn line = true := by
      cases hgoes with
      | branch hop => simp [isTurn, Line.branch, hop]
      | jump => rfl
    refine ⟨?_, fun hne => absurd hi (hne target), h.captures⟩
    rw [hlevel.turn _ _ hline hturn] at hstack
    change (c.sp.toNat : ℤ) + pushed code i = _
    rw [hlevel.turn i _ hi rfl]
    exact hstack
  | @behind operand after hline hafter =>
    have hsp : after.sp = c.sp := by rw [hafter, sp_answered]
    have hnone : (viewAt code (c.line + 1)).indexed = none := by rw [viewAt_succ hline]; rfl
    have hsame : pushed code (c.line + 1) = pushed code c.line := by
      rw [pushed_succ hline]
      exact add_zero _
    rw [← hsame] at hstack
    refine ⟨by rw [← hsp] at hstack; exact hstack, fun _ depth hdepth => ?_, fun capture hcapture => ?_⟩
    · dsimp only at hdepth
      rw [hnone] at hdepth
      cases hdepth
    · dsimp only at hcapture
      split at hcapture
      · rcases List.mem_append.mp hcapture with hcapture | hcapture
        · exact h.captures capture hcapture
        · rw [List.mem_singleton.mp hcapture]
          exact ⟨hstack, hnone⟩
      · exact h.captures capture hcapture
  | back hafter hcapture hat =>
    obtain rfl := hat
    obtain ⟨hsp, hnone⟩ := h.captures _ hcapture
    refine ⟨hsp, fun _ depth hdepth => ?_, by rw [hafter, captures_answered]; exact h.captures⟩
    dsimp only at hdepth
    rw [hnone] at hdepth
    cases hdepth

/-- **A run of level code** upholds it while there is room. -/
theorem Keeps.run (hlevel : Level code) {n : ℕ} (h : Keeps code c.sp c)
    (hroom : HasRoom e code calls n c) (hrun : run e code calls n c = some c') :
    Keeps code c.sp c' := by
  refine run_invariant h (fun m hm c₁ c₂ hc₁ hstep hkeeps => ?_) hrun
  refine hkeeps.step hlevel hstep (hroom (m + 1) hm c₂ ?_)
  rw [run_succ, hc₁]
  exact hstep

/-! ### Accesses to the frame -/

/-- Line `q` of placed code is the access of some line to frame byte `o`: to a byte that the line
names, or that its virtual register is kept in. -/
def IsAccess (p : Placement) (code : List Line) (block : ℕ → List Line) (q : ℕ) (o : UInt8)
    (operand : Operand) : Prop :=
  ∃ k line op j, code[k]? = some line ∧ p.line line = .ok (some (.op op (.frame o))) ∧
    q = offset block k + j ∧ (block k)[j]? = some (.op op operand)

section Placed

variable {p : Placement} {out : List Line} {outCalls : Std.TreeMap ℕ CallTarget}
  {block : ℕ → List Line} {view : ℕ → StackView}

/-- **An access goes through X** as the view of the stack has it, whether X was loaded for it or
before, between pushes or with the flags saved around it. -/
theorem indexed_of_isAccess (h : Laid p calls code out outCalls block view)
    (hcode : Countable code calls) {q : ℕ} {o : UInt8} (haccess : IsAccess p code block q o operand) :
    ∃ op depth, (viewAt out q).indexed = some depth ∧ out[q]? = some (.op op operand) ∧
      .op op operand = indexedAccess op o depth := by
  obtain ⟨k, line, op, j, hline, hframe, rfl, hj⟩ := haccess
  have hk := (List.getElem?_eq_some_iff.mp hline).1
  have hlt := (List.getElem?_eq_some_iff.mp hj).1
  refine ⟨op, ?_⟩
  rw [viewAt_placed h hcode hk hlt.le, h.getElem? hk hlt, hj]
  obtain ⟨placing, hline', hpre⟩ := preAllocation_of_frame hframe
  have hop : isPlain op = true := hcode.plain k op placing (hline' ▸ hline) hpre
  have hplaced := h.placed k line hline
  generalize block k = lines, view (k + 1) = behind at hplaced hj hlt
  cases hplaced with
  | gone hline =>
    rw [hframe] at hline
    cases hline
  | kept hline hkept =>
    rw [hframe] at hline
    cases hline
    exact absurd rfl (hkept _ _)
  | frame hline hlines =>
    rw [hframe] at hline
    cases hline
    cases accesses_of_frameLines hlines with
    | @indexed depth hindexed =>
      obtain rfl : j = 0 := by simpa using hlt
      exact ⟨depth, hindexed, rfl, (Option.some.inj hj).symm⟩
    | saving =>
      obtain rfl | rfl | rfl | rfl : j = 0 ∨ j = 1 ∨ j = 2 ∨ j = 3 := by
        simp only [List.length_cons, List.length_nil] at hlt
        omega
      case inr.inr.inl => exact ⟨(view k).depth + 1, rfl, rfl, (Option.some.inj hj).symm⟩
      -- Saving and loading the flags and X are no accesses.
      all_goals cases hj; cases hop
    | loading =>
      obtain rfl | rfl : j = 0 ∨ j = 1 := by
        simp only [List.length_cons, List.length_nil] at hlt
        omega
      · cases hj
        cases hop
      · exact ⟨(view k).depth, rfl, rfl, (Option.some.inj hj).symm⟩

/-- **An access goes to its frame byte** where the run upholds what is known of X. -/
theorem effective_of_isAccess (h : Laid p calls code out outCalls block view)
    (hcode : Countable code calls) (hc : Keeps out base c) {o : UInt8}
    (haccess : IsAccess p code block c.line o operand) (l : Linkage) :
    l.effective c.store.machine operand = .address (0x0101 + base.toUInt16 + o.toUInt16) := by
  obtain ⟨op, depth, hdepth, hline, heq⟩ := indexed_of_isAccess h hcode haccess
  have hx := hc.indexed (fun name => by rw [hline]; simp) depth hdepth
  obtain rfl : operand = .absoluteX (.absolute (UInt16.ofNat (indexedAddress o depth).toNat)) :=
    (Line.op.inj heq).2
  exact effective_indexed ⟨∅, 0, 0, base⟩ o hx l

end Placed

/-! ### Whole functions -/

section Functions

variable {conv : Convention} {bindings : Std.TreeMap String Binding} {limits : Limits}
  {f : FunctionDef} {b : Binding} {s : SelectedCode}

/-- **Pushes balance, and frame bytes are found at every depth.** -/
theorem frame_bytes_found (h : selectFunction conv bindings limits f = .ok s)
    (hb : bindings[f.name]? = some b) (hbound : Bound conv bindings) :
    Balanced s.code s.calls ∧
      ∀ (z : ZeroPage) (callClobbers : Std.TreeMap ℕ Clobbers) (a : AllocatedCode),
        allocate z s b callClobbers = .ok a → Balanced a.code a.calls ∧
          ∃ live block view,
            Liveness.compute s.code s.calls b.returnKind.registers = .ok live ∧
            Laid ⟨s.name, live, a.locations⟩ s.calls s.code a.code a.calls block view ∧
            ∀ (e : Environment) (n : ℕ) (c d : Config), c.line = 0 → c.captures = [] →
              run e a.code a.calls n c = some d → HasRoom e a.code a.calls n c →
              ∀ (o : UInt8) (operand : Operand),
                IsAccess ⟨s.name, live, a.locations⟩ s.code block d.line o operand →
                  e.linkage.effective d.store.machine operand =
                    .address (0x0101 + c.sp.toUInt16 + o.toUInt16) := by
  have hcode := countable_selected h hb hbound
  refine ⟨hcode.level.balanced hcode.captures, fun z callClobbers a ha => ?_⟩
  obtain ⟨live, -, hlive, -⟩ := (Scan.allocate_spec ha).out
  obtain ⟨block, view, hlaid⟩ := laid_of_allocate ha hlive
  have hlevel := level_placed hlaid hcode
  refine ⟨hlevel.balanced (captures_placed hlaid hcode), live, block, view, hlive, hlaid,
    fun e n c d hline hcaptures hrun hroom o operand haccess => ?_⟩
  exact effective_of_isAccess hlaid hcode
    ((keeps_start hline hcaptures).run hlevel hroom hrun) haccess e.linkage

end Functions

/-! ### An access behind a push -/

/-- A function that pushes A for a call while it loads X from its frame. -/
def stackingFunction : FunctionDef where
  signature := { name := "f", params := [], returnType := .void }
  body := [.asmCall 0x0700 (some (.constant 7)) (some (.memory (.frameByte 0))) none {} none, .ret none]

/-- The program of this function alone. -/
def stackingProgram : Program := { name := "m", functions := [stackingFunction] }

/-- What is selected for it. -/
def stackingCode : List Line :=
  [.op .lda (.byte 7), .bare .pha, .op .lda (.frame 0), .bare .tax, .bare .pla,
    .op .jsr (.fixed 0x0700), .label "f_exit"]

/-- What allocation makes of that. -/
def stackingPlaced : List Line :=
  [.op .lda (.byte 7), .bare .pha, .bare .tsx, .op .lda (.absoluteX (.absolute 0x0102)), .bare .tax,
    .bare .pla, .op .jsr (.fixed 0x0700), .label "f_exit"]

/-- A start with a given stack pointer. -/
def stackingStart (sp : UInt8) : Config where
  line := 0
  store := ⟨{ startOf startBus with regs := { sp, p := 0x22 } }, fun _ => 0, fun _ => 0⟩

theorem exists_stacking : ∃ bindings b s a,
    Compilation.bindAll plainConvention stackingProgram = .ok bindings ∧ bindings["f"]? = some b ∧
      selectFunction plainConvention bindings {} stackingFunction = .ok s ∧
      allocate plainConvention.zeroPage s b ∅ = .ok a ∧
      s.code = stackingCode ∧ a.code = stackingPlaced := by
  have hcheck : (do
      let bindings ← Compilation.bindAll plainConvention stackingProgram
      let s ← selectFunction plainConvention bindings {} stackingFunction
      bindings["f"]?.elim (return false) fun b => do
        let a ← allocate plainConvention.zeroPage s b ∅
        return decide (s.code = stackingCode) && decide (a.code = stackingPlaced)
      : Compile Bool).toOption.any id = true := by
    decide +kernel
  obtain ⟨fits, hfits, rfl⟩ := ok_of_any hcheck
  obtain ⟨bindings, hbind, hfits⟩ := bind_eq_ok.mp hfits
  obtain ⟨s, hselect, hfits⟩ := bind_eq_ok.mp hfits
  cases hb : bindings["f"]? with
  | none =>
    rw [hb] at hfits
    cases hfits
  | some b =>
    rw [hb] at hfits
    obtain ⟨a, ha, hfits⟩ := bind_eq_ok.mp hfits
    have htrue := Except.ok.inj hfits
    simp only [Bool.and_eq_true, decide_eq_true_eq] at htrue
    exact ⟨bindings, b, s, a, hbind, hb, hselect, ha, htrue.1, htrue.2⟩

/-- The access to the frame is the fourth line. -/
theorem stacking_access {p : Placement} {calls outCalls : Std.TreeMap ℕ CallTarget}
    {block : ℕ → List Line} {view : ℕ → StackView}
    (h : Laid p calls stackingCode stackingPlaced outCalls block view) :
    IsAccess p stackingCode block 3 0 (.absoluteX (.absolute 0x0102)) := by
  obtain ⟨hfirst, hview⟩ := (h.placed 0 _ rfl).eq_of_kept rfl fun _ _ heq => by cases heq
  obtain ⟨hsecond, hview'⟩ := (h.placed 1 _ rfl).eq_of_kept rfl fun _ _ heq => by cases heq
  have hthird : view 2 = { depth := 1 } := by rw [hview', hview, h.start]; rfl
  refine ⟨2, _, .lda, 1, rfl, rfl, by simp [offset_succ, hfirst, hsecond], ?_⟩
  have hplaced := h.placed 2 (.op .lda (.frame 0)) rfl
  rw [hthird] at hplaced
  generalize block 2 = lines, view (2 + 1) = behind at hplaced
  cases hplaced with
  | gone hline => cases hline
  | kept hline hframe =>
    cases hline
    exact absurd rfl (hframe _ _)
  | frame hline hlines =>
    cases hline
    cases accesses_of_frameLines hlines with
    | indexed hindexed => cases hindexed
    | saving _ _ hnz => cases hnz
    | loading => rfl

/-- The first lines go on one after the other. -/
theorem run_stacking (calls : Std.TreeMap ℕ CallTarget) (sp : UInt8) {m : ℕ} (hm : m ≤ 3) :
    ∃ d, run plainEnvironment stackingPlaced calls m (stackingStart sp) = some d ∧ d.line = m ∧
      (m = 3 → d.store.regs.x = sp - 1) := by
  interval_cases m <;> exact ⟨_, rfl, rfl, fun h => by first | rfl | cases h⟩

/-- Its byte is found with A on the stack. -/
theorem stacked_byte_found : ∃ bindings b s a live block view d,
    Compilation.bindAll plainConvention stackingProgram = .ok bindings ∧ bindings["f"]? = some b ∧
      selectFunction plainConvention bindings {} stackingFunction = .ok s ∧
      Balanced s.code s.calls ∧
      allocate plainConvention.zeroPage s b ∅ = .ok a ∧ Balanced a.code a.calls ∧
      Laid ⟨s.name, live, a.locations⟩ s.calls s.code a.code a.calls block view ∧
      run plainEnvironment a.code a.calls 3 (stackingStart 0xF0) = some d ∧
      HasRoom plainEnvironment a.code a.calls 3 (stackingStart 0xF0) ∧
      IsAccess ⟨s.name, live, a.locations⟩ s.code block d.line 0 (.absoluteX (.absolute 0x0102)) ∧
      plainEnvironment.linkage.effective d.store.machine (.absoluteX (.absolute 0x0102)) =
        .address 0x01F1 := by
  obtain ⟨bindings, b, s, a, hbind, hb, hselect, ha, hcode, hplaced⟩ := exists_stacking
  obtain ⟨hbalanced, hallocated⟩ := frame_bytes_found hselect hb (bound_bindAll hbind)
  obtain ⟨hbalanced', live, block, view, -, hlaid, hfound⟩ := hallocated _ _ a ha
  obtain ⟨d, hrun, hline, -⟩ := run_stacking a.calls 0xF0 (le_refl 3)
  have haccess := stacking_access (hcode ▸ hplaced ▸ hlaid)
  have hroom : HasRoom plainEnvironment a.code a.calls 3 (stackingStart 0xF0) := by
    intro m hm c' hc'
    obtain ⟨d', hrun', hline', -⟩ := run_stacking a.calls 0xF0 hm
    rw [hplaced, hrun'] at hc'
    cases hc'
    rw [hplaced, hline']
    interval_cases m <;> decide
  rw [← hplaced] at hrun
  rw [← hcode, ← hline] at haccess
  exact ⟨bindings, b, s, a, live, block, view, d, hbind, hb, hselect, hbalanced, ha, hbalanced', hlaid,
    hrun, hroom, haccess, hfound plainEnvironment 3 _ d rfl rfl hrun hroom 0 _ haccess⟩

/-- **Without room it is not**: where the push makes the stack pointer wrap, the access goes 256
bytes too high. -/
theorem wrapped_access_strays : ∃ bindings b s a live block view d,
    Compilation.bindAll plainConvention stackingProgram = .ok bindings ∧ bindings["f"]? = some b ∧
      selectFunction plainConvention bindings {} stackingFunction = .ok s ∧
      allocate plainConvention.zeroPage s b ∅ = .ok a ∧
      Laid ⟨s.name, live, a.locations⟩ s.calls s.code a.code a.calls block view ∧
      run plainEnvironment a.code a.calls 3 (stackingStart 0) = some d ∧
      IsAccess ⟨s.name, live, a.locations⟩ s.code block d.line 0 (.absoluteX (.absolute 0x0102)) ∧
      plainEnvironment.linkage.effective d.store.machine (.absoluteX (.absolute 0x0102)) =
        .address 0x0201 ∧
      (0x0201 : UInt16) ≠ 0x0101 + (stackingStart 0).sp.toUInt16 + (0 : UInt8).toUInt16 := by
  obtain ⟨bindings, b, s, a, hbind, hb, hselect, ha, hcode, hplaced⟩ := exists_stacking
  obtain ⟨live, -, hlive, -⟩ := (Scan.allocate_spec ha).out
  obtain ⟨block, view, hlaid⟩ := laid_of_allocate ha hlive
  obtain ⟨d, hrun, hline, hx⟩ := run_stacking a.calls 0 (le_refl 3)
  have haccess := stacking_access (hcode ▸ hplaced ▸ hlaid)
  rw [← hplaced] at hrun
  rw [← hcode, ← hline] at haccess
  refine ⟨bindings, b, s, a, live, block, view, d, hbind, hb, hselect, ha, hlaid, hrun, haccess, ?_,
    by decide⟩
  change EffectiveOperand.address (0x0102 + d.store.regs.x.toUInt16) = _
  rw [hx rfl]
  rfl

end Codegen6502.Proofs.Allocating.FrameAddresses
