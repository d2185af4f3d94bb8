import Codegen6502.Proofs.Allocating.Scan
import Codegen6502.Proofs.Calls.HandlerSaves

/-!
# Values that live through calls

A value that is live after a call is kept in a cell of the pool only if nothing that the call
reaches overwrites the cell, as far as the table of clobber sets knows.  The table is made from the
stores in bodies and from declarations.  What a routine at a fixed address is declared to overwrite
counts where that routine is called, but not in the set of the function that calls it.

* `writesCell_functionOf`, `writesCell_routine`: the cells that emitted code stores to;
* `has_targetClobbers`: the cells of the pool that a call is taken to overwrite;
* `live_cell_spared`: what holds of the cell of a value that is live after a call.
-/

namespace Codegen6502.Proofs.Calls.LiveAcross

open Compilation Computations Search ClobberSets Closure Pipeline Table Emitted HandlerSaves
open Allocating.Scan Relation

/-! ### Stores to cells -/

/-- A store to a cell with a zero-page operand. -/
def WritesCell (z : UInt8) (line : Line) : Prop :=
  ∃ opcode : Opcode, opcode.writesMemory = true ∧ line = .op opcode (.zeroPage z)

theorem has_ofLine_cell {line : Line} {z : UInt8} (h : WritesCell z line) :
    Has (.ofLine line) (.cell z) := by
  obtain ⟨opcode, hw, rfl⟩ := h
  have hne : opcode ≠ .jsr := by rintro rfl; simp [Opcode.writesMemory, Opcode.isReadModifyWrite] at hw
  rw [ofLine_op hne]
  simp [Has, has, Clobbers.containsCell, contains_ofList, hw]

theorem writesCell_of_has {line : Line} {z : UInt8} (h : Has (.ofLine line) (.cell z)) :
    WritesCell z line := by
  cases line with
  | label name => exact absurd h (not_has_empty _)
  | comment text => exact absurd h (not_has_empty _)
  | op opcode operand =>
    by_cases hjsr : opcode = .jsr
    · subst hjsr
      exact absurd h (not_has_empty _)
    · simp only [Has, has, Clobbers.containsCell, ofLine_op hjsr] at h
      split at h
      · rename_i cell
        split at h
        · rename_i hw
          rw [contains_ofList] at h
          have hz : z = cell := by simpa using h
          exact ⟨opcode, hw, by rw [hz]⟩
        · simp at h
      · simp at h

/-- Setting up and releasing a frame stores to no cell. -/
theorem not_writesCell_frame {n : UInt8} {z : UInt8} {line : Line}
    (h : line ∈ (Sequence.reserve n).code ∨ line ∈ (Sequence.release n).code) :
    ¬ WritesCell z line := by
  rintro ⟨opcode, hw, rfl⟩
  by_cases hn : n = 0
  · simp [Sequence.reserve, Sequence.release, hn] at h
  · simp [Sequence.reserve, Sequence.release, hn, Sequence.moveSP, Line.bare, Operand.byte] at h

theorem not_writesCell_return {n : UInt8} {kind : ReturnKind} {z : UInt8} {line : Line}
    (h : line ∈ (Sequence.releaseAndReturn n kind).code) : ¬ WritesCell z line := by
  intro hw
  unfold Sequence.releaseAndReturn at h
  split_ifs at h
  · obtain ⟨opcode, -, rfl⟩ := hw
    simp [Line.bare] at h
  · -- Apart from the release there are only fixed lines, none with a zero-page operand.
    have hfixed : ∀ code : List Line, (∀ opcode, Line.op opcode (.zeroPage z) ∉ code) →
        line ∉ code := by
      intro code hcode hmem
      obtain ⟨opcode, -, rfl⟩ := hw
      exact hcode opcode hmem
    cases kind with
    | void | struct _ =>
      rcases List.mem_append.mp h with h | h
      · exact not_writesCell_frame (Or.inr h) hw
      · exact hfixed _ (by simp [Line.bare]) h
    | byte | word =>
      rcases List.mem_append.mp h with h | h
      · rcases List.mem_append.mp h with h | h
        · exact hfixed _ (by simp [Line.bare]) h
        · exact not_writesCell_frame (Or.inr h) hw
      · exact hfixed _ (by simp [Line.bare]) h

/-- Saving stores to no cell, and restoring to the saved ones. -/
theorem writesCell_save {scheme : SaveScheme} {z : UInt8} {line : Line}
    (h : line ∈ scheme.prologue.code ∨ line ∈ scheme.epilogue.code) (hw : WritesCell z line) :
    z ∈ scheme.savedCells := by
  obtain ⟨opcode, hop, rfl⟩ := hw
  have hnumbered : ∀ (start k : ℕ) (cells : List UInt8) (z : UInt8),
      (k, z) ∈ SaveScheme.numbered start cells → z ∈ cells := by
    intro start k cells z hz
    unfold SaveScheme.numbered at hz
    obtain ⟨⟨z', k'⟩, hz', heq⟩ := List.mem_map.mp hz
    cases heq
    exact (List.mem_zipIdx hz').2.2 ▸ List.getElem_mem _
  cases scheme with
  | area name regs cells =>
    simp only [SaveScheme.prologue, SaveScheme.epilogue, code_ofLines, List.mem_append,
      List.mem_map, List.mem_flatMap, List.mem_reverse, SaveScheme.slot] at h
    rcases h with (⟨⟨k, r⟩, -, heq⟩ | ⟨⟨k, c⟩, hc, heq⟩) | ((⟨⟨k, c⟩, hc, heq⟩ | ⟨⟨k, r⟩, -, heq⟩) | heq)
    · cases heq
    · simp only [List.mem_cons, List.not_mem_nil, or_false] at heq
      rcases heq with heq | heq <;> cases heq
      simp [Opcode.writesMemory, Opcode.isReadModifyWrite] at hop
    · simp only [List.mem_cons, List.not_mem_nil, or_false] at heq
      rcases heq with heq | heq <;> cases heq
      exact hnumbered _ k cells _ hc
    · cases heq
    · simp [Line.bare] at heq
  | stacked cells =>
    simp only [SaveScheme.prologue, SaveScheme.epilogue, code_ofLines, List.mem_append,
      List.mem_flatMap, List.mem_reverse] at h
    rcases h with (h | ⟨c, hc, heq⟩) | (⟨c, hc, heq⟩ | h)
    · simp [Line.bare] at h
    · simp only [List.mem_cons, List.not_mem_nil, or_false] at heq
      rcases heq with heq | heq
      · cases heq
        simp [Opcode.writesMemory, Opcode.isReadModifyWrite] at hop
      · simp [Line.bare] at heq
    · simp only [List.mem_cons, List.not_mem_nil, or_false] at heq
      rcases heq with heq | heq
      · simp [Line.bare] at heq
      · cases heq
        exact hc
    · simp [Line.bare] at h

/-- **The cells that a function stores to**: those of its body, and what a handler restores. -/
theorem writesCell_functionOf {b : Binding} {frameBytes : UInt8} {saves : Clobbers}
    {body : List Line} {z : UInt8} {line : Line}
    (h : line ∈ (functionOf b frameBytes saves body).code) (hw : WritesCell z line) :
    Has (.writtenBy body) (.cell z) ∨ b.isInterrupt = true ∧ saves.cells.contains z = true := by
  simp only [functionOf, List.mem_append] at h
  have hlabel : line ≠ .label b.name := by
    obtain ⟨opcode, -, rfl⟩ := hw
    simp
  have hflag : ∀ opcode, line ≠ .bare opcode := by
    obtain ⟨opcode, -, rfl⟩ := hw
    intro opcode'
    cases opcode' <;> simp [Line.bare]
  rcases h with (h | h) | h
  · unfold Convention.prologue at h
    cases hentry : b.entry with
    | subroutine =>
      simp only [hentry, code_append, code_ofLines, List.mem_append, List.mem_singleton] at h
      rcases h with h | h
      · exact absurd h hlabel
      · exact absurd hw (not_writesCell_frame (Or.inl h))
    | interrupt =>
      simp only [hentry, code_append, code_ofLines, List.mem_append, List.mem_singleton] at h
      rcases h with (h | h) | h
      · exact absurd h hlabel
      · exact Or.inr ⟨by simp [Binding.isInterrupt, EntryKind.isInterrupt, hentry],
          mem_toList.mp (writesCell_save (Or.inl h) hw)⟩
      · exact absurd hw (not_writesCell_frame (Or.inl h))
    | nestedInterrupt =>
      simp only [hentry, code_append, code_ofLines, List.mem_append, List.mem_singleton] at h
      rcases h with ((h | h) | h) | h
      · exact absurd h hlabel
      · exact Or.inr ⟨by simp [Binding.isInterrupt, EntryKind.isInterrupt, hentry],
          mem_toList.mp (writesCell_save (Or.inl h) hw)⟩
      · exact absurd hw (not_writesCell_frame (Or.inl h))
      · exact absurd h (hflag _)
  · exact Or.inl ((has_writtenBy body _).mpr ⟨line, h, has_ofLine_cell hw⟩)
  · unfold Convention.epilogue at h
    cases hentry : b.entry with
    | subroutine =>
      simp only [hentry] at h
      exact absurd hw (not_writesCell_return h)
    | interrupt =>
      simp only [hentry, code_append, List.mem_append] at h
      rcases h with h | h
      · exact absurd hw (not_writesCell_frame (Or.inr h))
      · exact Or.inr ⟨by simp [Binding.isInterrupt, EntryKind.isInterrupt, hentry],
          mem_toList.mp (writesCell_save (Or.inr h) hw)⟩
    | nestedInterrupt =>
      simp only [hentry, code_append, code_ofLines, List.mem_append, List.mem_singleton] at h
      rcases h with (h | h) | h
      · exact absurd h (hflag _)
      · exact absurd hw (not_writesCell_frame (Or.inr h))
      · exact Or.inr ⟨by simp [Binding.isInterrupt, EntryKind.isInterrupt, hentry],
          mem_toList.mp (writesCell_save (Or.inr h) hw)⟩

/-- A support routine stores to no cell but the copy of the bank register. -/
theorem writesCell_routine {r : Routine} {layout : ZeroPage} {bankSelect : UInt16} {z : UInt8}
    {line : Line} (h : line ∈ r.code layout bankSelect) (hw : WritesCell z line) :
    z = layout.bankShadow := by
  obtain ⟨opcode, hop, rfl⟩ := hw
  cases r <;>
    simp [Routine.code, Routine.trampolineCode, Routine.trampolineReturnCode, Routine.setJmpCode,
      Routine.longJmpCode, Routine.selectBank, Line.bare, Line.branch, Operand.byte, Operand.fixed,
      Operand.symbolByte, Routine.stackByte] at h
  · rcases h with ⟨rfl, -⟩ | ⟨-, h⟩
    · simp [Opcode.writesMemory, Opcode.isReadModifyWrite] at hop
    · exact h
  · exact h.2
  · obtain ⟨rfl, -⟩ := h
    simp [Opcode.writesMemory, Opcode.isReadModifyWrite] at hop
  · rcases h with ⟨-, h⟩ | ⟨rfl, -⟩
    · exact h
    · simp [Opcode.writesMemory, Opcode.isReadModifyWrite] at hop

/-- In a valid layout the copy of the bank register is not in the pool. -/
theorem bankShadow_not_mem_pool {options : Options} (h : options.validate = .ok ()) :
    options.zeroPage.bankShadow ∉ options.zeroPage.pool := by
  intro hmem
  unfold Options.validate Options.fault? at h
  have hfault : options.zeroPage.fault? = none := by
    cases hf : options.zeroPage.fault? with
    | none => rfl
    | some fault => simp [hf] at h
  obtain ⟨k, hk, hshadow⟩ := List.mem_map.mp hmem
  obtain ⟨hk, hpage⟩ := List.mem_filter.mp hk
  obtain ⟨i, hi, rfl⟩ := List.mem_map.mp hk
  rw [List.mem_range] at hi
  have hpage' : options.zeroPage.poolBase.toNat + i ≤ 255 := by simpa using hpage
  have hnat : options.zeroPage.bankShadow.toNat = options.zeroPage.poolBase.toNat + i := by
    rw [← hshadow, UInt8.toNat_ofNat']
    omega
  unfold ZeroPage.fault? at hfault
  simp only [hnat] at hfault
  split_ifs at hfault with _ _ hpool
  simp only [Bool.or_eq_true, Bool.and_eq_true, decide_eq_true_eq, not_or, not_and] at hpool
  omega

/-! ### What a call is taken to overwrite -/

variable {x : Compilation} {p : Program} {progress : Progress}

/-- The function that a call goes to. -/
def Callee (target : CallTarget) (m : String) : Prop :=
  target = .function m ∨ ∃ bank, target = .trampoline bank m

theorem bodyCalls_of_call {f : String} {code : SelectedCode} (hs : x.selected[f]? = some code)
    {c : ℕ} {target : CallTarget} (hc : code.calls[c]? = some target) {n : String}
    (hn : n ∈ target.names) : BodyCalls x f n := by
  refine ⟨code, hs, ?_⟩
  unfold SelectedCode.callees
  rw [Components.mem_sortedNames, List.mem_append]
  exact Or.inr (List.mem_flatMap.mpr ⟨target, mem_values.mpr ⟨c, hc⟩, hn⟩)

theorem names_of_callee {target : CallTarget} {m : String} (h : Callee target m) :
    m ∈ target.names := by
  rcases h with rfl | ⟨bank, rfl⟩ <;> simp [CallTarget.names]

/-- The cells of the pool that a call in `f` is taken to overwrite: those that a routine at a fixed
address is declared to; those that anything reached from the callee overwrites by itself; and all of
them where the callee leads back to `f`. -/
def Avoided (x : Compilation) (progress : Progress) (f : String) (target : CallTarget) (z : UInt8) :
    Prop :=
  (∃ address set, target = .fixed address set ∧ set.containsCell z = true) ∨
    ∃ m, Callee target m ∧
      (BodyReaches x m f ∨ ∃ k, BodyReaches x m k ∧ Has (own progress.clobbers k) (.cell z))

/-- A support routine is taken to overwrite no cell of the pool. -/
theorem not_has_routineClobbers (hshadow : x.convention.zeroPage.bankShadow ∉ x.convention.zeroPage.pool)
    {z : UInt8} (hz : z ∈ x.convention.zeroPage.pool) (r : Routine) :
    ¬ Has (x.routineClobbers r) (.cell z) := by
  intro h
  obtain ⟨line, hline, hz'⟩ := (has_writtenBy _ _).mp h
  refine hshadow ?_
  rw [← writesCell_routine hline (writesCell_of_has hz')]
  exact hz

/-- **What a call is taken to overwrite**, for the cells of the pool. -/
theorem has_targetClobbers (hfilled : Filled x p progress)
    (hshadow : x.convention.zeroPage.bankShadow ∉ x.convention.zeroPage.pool) {f : String}
    {code : SelectedCode} (hs : x.selected[f]? = some code) {t : ClobberTable}
    (ht : ∀ m, BodyReaches x f m →
      (BodyReaches x m f → val t m = .everything x.convention.zeroPage) ∧
      (¬ BodyReaches x m f → val t m = val progress.clobbers m))
    {c : ℕ} {target : CallTarget} (hc : code.calls[c]? = some target) {z : UInt8}
    (hz : z ∈ x.convention.zeroPage.pool) :
    Has (x.targetClobbers t target) (.cell z) ↔ Avoided x progress f target z := by
  have hcallee : ∀ m, Callee target m → (Has (val t m) (.cell z) ↔
      BodyReaches x m f ∨ ∃ k, BodyReaches x m k ∧ Has (own progress.clobbers k) (.cell z)) := by
    intro m hm
    have hcall : BodyReaches x f m :=
      ReflTransGen.single (bodyCalls_of_call hs hc (names_of_callee hm))
    by_cases hback : BodyReaches x m f
    · rw [(ht m hcall).1 hback]
      exact ⟨fun _ => Or.inl hback, fun _ => has_pool_everything hz⟩
    · rw [(ht m hcall).2 hback, hfilled.has_val]
      exact ⟨Or.inr, fun h => h.resolve_left hback⟩
  unfold Avoided
  cases target with
  | function m =>
    have hm : Callee (.function m) m := Or.inl rfl
    rw [show x.targetClobbers t (.function m) = val t m from rfl, hcallee m hm]
    constructor
    · exact fun h => Or.inr ⟨m, hm, h⟩
    · rintro (⟨address, set, heq, -⟩ | ⟨m', hm' | ⟨bank, heq⟩, h⟩)
      · cases heq
      · cases hm'
        exact h
      · cases heq
  | trampoline bank m =>
    have hm : Callee (.trampoline bank m) m := Or.inr ⟨bank, rfl⟩
    have hset : x.targetClobbers t (.trampoline bank m) =
        ((x.routineClobbers (.trampoline bank)).union
          (x.routineClobbers .trampolineReturn)).union (val t m) := rfl
    rw [hset, has_union, has_union, hcallee m hm]
    constructor
    · rintro ((h | h) | h)
      · exact absurd h (not_has_routineClobbers hshadow hz _)
      · exact absurd h (not_has_routineClobbers hshadow hz _)
      · exact Or.inr ⟨m, hm, h⟩
    · rintro (⟨address, set, heq, -⟩ | ⟨m', heq | ⟨bank', hm'⟩, h⟩)
      · cases heq
      · cases heq
      · cases hm'
        exact Or.inr h
  | routine r =>
    rw [show x.targetClobbers t (.routine r) = x.routineClobbers r from rfl]
    constructor
    · exact fun h => absurd h (not_has_routineClobbers hshadow hz r)
    · rintro (⟨address, set, heq, -⟩ | ⟨m', heq | ⟨bank', heq⟩, -⟩) <;> cases heq
  | fixed address set =>
    constructor
    · exact fun h => Or.inl ⟨address, set, rfl, h⟩
    · rintro (⟨address', set', heq, h⟩ | ⟨m', heq | ⟨bank', heq⟩, -⟩)
      · cases heq
        exact h
      · cases heq
      · cases heq

/-! ### Values of a program -/

variable {target : Target} {options : Options} {s : Stages}

/-- A cell that emitted code of a function stores to is in the function's closed set. -/
theorem has_val_of_writesCell
    (hstart : Started (conventionOf target options) options.limits p s.compilation)
    (hpassed : Passed target options p s) (hfilled : Filled s.compilation p s.progress)
    (hvalid : options.validate = .ok ()) {z : UInt8} (hz : z ∈ options.zeroPage.pool)
    {e : EmittedFunction} (he : e ∈ s.emission.functions) {line : Line} (hline : line ∈ e.code)
    (hw : WritesCell z line) : Has (val s.progress.clobbers e.header.name) (.cell z) := by
  rcases mem_emitted hpassed he with ⟨r, -, rfl⟩ | ⟨d, hd, a, b, ha, hb, rfl⟩
  · have hconv : s.compilation.convention.zeroPage = options.zeroPage := by
      rw [hstart.convention_eq]
      rfl
    have hshadow := writesCell_routine hline hw
    rw [hconv] at hshadow
    exact absurd (hshadow ▸ hz) (bankShadow_not_mem_pool hvalid)
  · have hname : b.name = d.name := by
      obtain ⟨d', -, hd', hbind⟩ := hstart.bindings.mem_of_get _ b hb
      exact (bind_spec hbind).1.trans hd'
    rw [show (functionOf b a.frameBytes (s.saving.saves.getD d.name {}) a.code).header.name = d.name
      from hname]
    rcases writesCell_functionOf hline hw with hbody | ⟨hint, hsaved⟩
    · obtain ⟨code, -, hcode⟩ := hstart.selected.get_of_mem d hd
      obtain ⟨a', t, -, ha', hown, -⟩ := hfilled.allocated d.name code hcode b hb
      rw [ha] at ha'
      cases ha'
      refine (hfilled.has_val d.name _).mpr ⟨d.name, ReflTransGen.refl, ?_⟩
      rw [hown]
      exact hbody
    · rw [Std.TreeMap.getD_eq_getD_getElem?, saves_spec hpassed ha hb hint] at hsaved
      rw [Option.getD_some, cells_interruptSaves] at hsaved
      exact hsaved

/-- **The cell of a value that is live after a call.**  Take a program that compiles, a call in one
of its functions and a virtual register of the function that is live after the call and was given
the cell `z` of the pool.

* The allocation avoided, for each call, exactly the cells of `Avoided`; `z` is none of them.
* If the call goes to a fixed address, the routine there is not declared to overwrite `z`.
* No code that is reached from the callee stores to `z`, and no support routine does.
* No external function that is reached from the callee is declared to overwrite `z`.

Nothing is said of the fixed addresses that functions reached from the callee call: `Avoided` has
no cell on their account. -/
theorem live_cell_spared {name : String} {options : Options} {p : Program} {out : Output}
    (hok : compile name options p = .ok out) :
    ∃ target s, Target.ofName name = .ok target ∧ stages target options p = .ok s ∧
      ∀ f code b, s.compilation.selected[f]? = some code → s.compilation.bindings[f]? = some b →
        ∃ a calls, s.progress.allocated[f]? = some a ∧
          allocate options.zeroPage code b calls = .ok a ∧
          ∀ (c : ℕ) call, code.calls[c]? = some call →
            (∃ set, calls[c]? = some set ∧ ∀ y ∈ options.zeroPage.pool,
              (set.containsCell y = true ↔ Avoided s.compilation s.progress f call y)) ∧
            ∀ live, Liveness.compute code.code code.calls b.returnKind.registers = .ok live →
              ∀ v z, live.isLiveOut c (.vreg v) = true →
                a.locations[v.index]? = some (.zeroPage z) →
                ¬ Avoided s.compilation s.progress f call z ∧
                (∀ address set, call = .fixed address set → set.containsCell z = false) ∧
                (∀ m, Callee call m → ∀ k, BodyReaches s.compilation m k →
                  (∀ e ∈ s.emission.functions, e.header.name = k →
                    ∀ line ∈ e.code, ¬ WritesCell z line) ∧
                  ∀ d ∈ declared p, d.name = k → ∀ set, d.signature.clobbers = some set →
                    z ∉ set.zeroPage) ∧
                ∀ r : Routine, ∀ line ∈ r.code options.zeroPage options.map.bankSelect,
                  ¬ WritesCell z line := by
  obtain ⟨target, s, htarget, hvalid, hs, hout⟩ := compile_stages hok
  have hpassed := passed hs
  have hstart := start_spec hpassed.started
  have hapart := apart hstart hpassed hout
  have hfilled := allocateAll_filled hstart hapart hpassed.allocated
  have hshadow := bankShadow_not_mem_pool hvalid
  have hconv : s.compilation.convention.zeroPage = options.zeroPage := by
    rw [hstart.convention_eq]
    rfl
  refine ⟨target, s, htarget, hs, fun f code b hcode hb => ?_⟩
  obtain ⟨a, t, halloc, ha, -, ht⟩ := hfilled.allocated f code hcode b hb
  rw [hconv] at halloc
  refine ⟨a, s.compilation.callClobbers t code, ha, halloc, fun c call hc => ?_⟩
  have hset : (s.compilation.callClobbers t code)[c]? =
      some (s.compilation.targetClobbers t call) := by
    unfold callClobbers
    rw [Std.TreeMap.getElem?_map, hc]
    rfl
  have havoided : ∀ y ∈ options.zeroPage.pool,
      ((s.compilation.targetClobbers t call).containsCell y = true ↔
        Avoided s.compilation s.progress f call y) := fun y hy =>
    has_targetClobbers hfilled (hconv.symm ▸ hshadow) hcode ht hc (hconv.symm ▸ hy)
  refine ⟨⟨_, hset, havoided⟩, fun live hlive v z hout hloc => ?_⟩
  obtain ⟨hz, hspared⟩ := cell_spared halloc hlive hloc
  have hnot : ¬ Avoided s.compilation s.progress f call z := by
    rw [← havoided z hz, hspared c _ hset hout]
    simp
  refine ⟨hnot, fun address set heq => ?_, fun m hm k hreach => ⟨?_, ?_⟩, fun r line hline hw => ?_⟩
  · rw [Bool.eq_false_iff]
    exact fun hcell => hnot (Or.inl ⟨address, set, heq, hcell⟩)
  · rintro e he rfl line hline hw
    have hval := has_val_of_writesCell hstart hpassed hfilled hvalid hz he hline hw
    obtain ⟨k', hreach', hown⟩ := (hfilled.has_val _ _).mp hval
    exact hnot (Or.inr ⟨m, hm, Or.inr ⟨k', hreach.trans hreach', hown⟩⟩)
  · rintro d hd rfl set hset' hmem
    refine hnot (Or.inr ⟨m, hm, Or.inr ⟨d.name, hreach, ?_⟩⟩)
    obtain ⟨b', hb', hget⟩ := hstart.bindings.get_of_mem d (List.mem_filter.mp hd).1
    rw [hfilled.own_declared d hd, hget, Option.bind_some, (bind_spec hb').2.2.2, hset']
    simp [Has, has, Clobbers.containsCell, DeclaredClobbers.toClobbers, contains_ofList, hmem]
  · exact hshadow (writesCell_routine hline hw ▸ hz)

/-- A function that keeps a value through a call, and a callee that calls a fixed address at which
the first cell of the pool is declared to be overwritten. -/
def indirectAsm : Program where
  name := "m"
  functions :=
    [{ signature := { name := "f", params := [], returnType := .void }
       body := [.copy 0 (.memory (.absolute 0x0600)) .u8, .call none "g" [] .void none,
         .store (.temp 0) (.absolute 0x0601) .u8, .ret none] },
     { signature := { name := "g", params := [], returnType := .void }
       body := [.asmCall 0x0700 none none none { zeroPage := [0x93] } none, .ret none] }]

/-- Whether register 0 is live after the call in line 2 of `f` and in the cell that a call in `g`
is declared to overwrite. -/
def keepsInCell (s : Stages) : Bool :=
  match s.compilation.selected["f"]?, s.compilation.bindings["f"]?, s.progress.allocated["f"]?,
    s.compilation.selected["g"]? with
  | some code, some b, some a, some callee =>
    match Liveness.compute code.code code.calls b.returnKind.registers with
    | .ok live =>
      code.calls[2]? = some (.function "g") && live.isLiveOut 2 (.vreg ⟨0⟩) &&
        a.locations[(0 : UInt32)]? = some (.zeroPage 0x93) &&
        callee.calls[0]? = some (.fixed 0x0700 { cells := .ofList [0x93] })
    | .error _ => false
  | _, _, _, _ => false

/-- In this program a value is live in a cell that a call below is declared to overwrite. -/
theorem indirectAsm_not_avoided :
    ∃ out s a callee, compile "null" {} indirectAsm = .ok out ∧
      stages .nothing {} indirectAsm = .ok s ∧ s.progress.allocated["f"]? = some a ∧
      a.locations[(0 : UInt32)]? = some (.zeroPage 0x93) ∧
      s.compilation.selected["g"]? = some callee ∧
      callee.calls[0]? = some (.fixed 0x0700 { cells := .ofList [0x93] }) ∧
      ¬ Avoided s.compilation s.progress "f" (.function "g") 0x93 := by
  have hok : ∃ out, compile "null" {} indirectAsm = .ok out := by
    have : (compile "null" {} indirectAsm).isOk = true := by decide +kernel
    cases h : compile "null" {} indirectAsm with
    | ok out => exact ⟨out, rfl⟩
    | error e => rw [h] at this; cases this
  have hcheck : (stages .nothing {} indirectAsm).toOption.any keepsInCell = true := by
    decide +kernel
  obtain ⟨out, hok⟩ := hok
  obtain ⟨target, s, htarget, hs, hall⟩ := live_cell_spared hok
  have htarget' : target = .nothing := by
    have : Target.ofName "null" = .ok .nothing := by decide
    rw [this] at htarget
    cases htarget
    rfl
  subst htarget'
  rw [hs] at hcheck
  change keepsInCell s = true at hcheck
  unfold keepsInCell at hcheck
  split at hcheck
  · rename_i code b a callee hcode hb ha hcallee
    split at hcheck
    · rename_i live hlive
      simp only [Bool.and_eq_true, decide_eq_true_eq] at hcheck
      obtain ⟨⟨⟨hcall, hout⟩, hloc⟩, hfixed⟩ := hcheck
      obtain ⟨a', calls, ha', -, hcalls⟩ := hall "f" code b hcode hb
      rw [ha] at ha'
      cases ha'
      obtain ⟨-, hspared⟩ := hcalls 2 _ hcall
      exact ⟨out, s, a, callee, hok, hs, ha, hloc, hcallee, hfixed,
        (hspared live hlive ⟨0⟩ 0x93 hout hloc).1⟩
    · cases hcheck
  · cases hcheck

end Codegen6502.Proofs.Calls.LiveAcross
