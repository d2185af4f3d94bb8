import Codegen6502.Proofs.Calls.Emitted

/-!
# What interrupt handlers save

A handler saves the registers of its closed clobber set, and those that its own entry and exit
sequences use.  Clobber sets are made from bodies; the sequences that set up and release the frames
of the functions that a handler calls are in none of them.

* `saves_spec`: the set that a handler's sequences are made from;
* `has_interruptSaves`: its registers;
* `unsaved_iff`: a register that code of a handler's run overwrites is not saved exactly when only
  the frame sequences of called functions overwrite it.
-/

namespace Codegen6502.Proofs.Calls.HandlerSaves

open Compilation Computations Search ClobberSets Closure Pipeline Table Emitted Relation

/-- An instruction other than a call that overwrites a register. -/
def Writes (r : Register) (line : Line) : Prop :=
  ∃ opcode operand, line = .op opcode operand ∧ opcode ≠ .jsr ∧
    line.effects.writes.contains r = true

theorem has_ofLine {line : Line} {r : Register} : Has (.ofLine line) (.reg r) ↔ Writes r line := by
  cases line with
  | label name => simp [Writes, Clobbers.ofLine]
  | comment text => simp [Writes, Clobbers.ofLine]
  | op opcode operand =>
    by_cases hjsr : opcode = .jsr
    · subst hjsr
      simp [Writes, Clobbers.ofLine]
    · rw [ofLine_op hjsr]
      constructor
      · intro h
        exact ⟨opcode, operand, rfl, hjsr, h⟩
      · rintro ⟨opcode', operand', -, -, h⟩
        exact h

/-! ### Saved sets -/

/-- **The registers that a handler saves**: those that its run overwrites as far as the table knows,
and those that its own sequences use. -/
theorem has_interruptSaves (set : Clobbers) (frameBytes : UInt8) (r : Register) :
    (Convention.interruptSaves set frameBytes).containsReg r = true ↔
      Has set (.reg r) ∨ 0 < frameBytes ∧ r ≠ .y ∨ r = .a ∧ ∃ z, Has set (.cell z) := by
  have hreg : (Convention.interruptSaves set frameBytes).containsReg r = true ↔
      Has (Convention.interruptSaves set frameBytes) (.reg r) := Iff.rfl
  have hcells : ∀ s : Clobbers, s.cells.isEmpty = false ↔ ∃ z, Has s (.cell z) := by
    intro s
    rw [Bool.eq_false_iff, Ne, cells_isEmpty_iff, not_forall]
    simp [Has, has, Clobbers.containsCell]
  rw [hreg]
  unfold Convention.interruptSaves
  by_cases hframe : frameBytes > 0
  · have hcell : ∀ z, Has ((set.insertReg .a).insertReg .x) (.cell z) ↔ Has set (.cell z) := by
      intro z
      rw [has_insertReg, has_insertReg]
      simp
    have hne : ((set.insertReg .a).insertReg .x).cells.isEmpty = false ↔ ∃ z, Has set (.cell z) := by
      rw [hcells]
      simp only [hcell]
    simp only [hframe, if_true]
    split
    · rw [has_insertReg, has_insertReg]
      have hnone : ¬ ∃ z, Has set (.cell z) := by
        rw [← hne]
        simp_all
      cases r <;> simp [hnone]
    · rw [has_insertReg, has_insertReg, has_insertReg]
      cases r <;> simp
  · simp only [hframe, if_false]
    have hno : ¬ 0 < frameBytes := hframe
    split
    · have hnone : ¬ ∃ z, Has set (.cell z) := by
        rw [← hcells]
        simp_all
      simp [hnone]
    · have hsome : ∃ z, Has set (.cell z) := by
        rw [← hcells]
        simp_all
      rw [has_insertReg]
      cases r <;> simp [hsome]

theorem cells_interruptSaves (set : Clobbers) (frameBytes : UInt8) :
    (Convention.interruptSaves set frameBytes).cells = set.cells := by
  unfold Convention.interruptSaves
  dsimp only
  split_ifs <;> rfl

variable {target : Target} {options : Options} {p : Program} {s : Stages}

/-- The sets of all handlers. -/
theorem saves_spec (h : Passed target options p s) {n : String} {a : AllocatedCode} {b : Binding}
    (ha : s.progress.allocated[n]? = some a) (hb : s.compilation.bindings[n]? = some b)
    (hint : b.isInterrupt = true) :
    s.saving.saves[n]? =
      some (Convention.interruptSaves (val s.progress.clobbers n) a.frameBytes) := by
  obtain ⟨data, hfold⟩ := h.saved
  have hinv := foldlM_invariant hfold (fun done saving =>
    (n, a) ∈ done → saving.saves[n]? =
      some (Convention.interruptSaves (val s.progress.clobbers n) a.frameBytes)) (by simp) ?_
  · exact hinv (Std.TreeMap.mem_toList_iff_getElem?_eq_some.mpr ha)
  intro done entry rest t t' hsplit ht hstep hmem
  obtain ⟨m, a'⟩ := entry
  have ha' : s.progress.allocated[m]? = some a' := by
    rw [← Std.TreeMap.mem_toList_iff_getElem?_eq_some, hsplit]
    simp
  unfold saveHandler at hstep
  by_cases hmn : m = n
  · subst hmn
    have hbind : s.compilation.bindings[m]?.filter (·.isInterrupt) = some b := by
      simp [hb, hint]
    rw [ha] at ha'
    cases ha'
    simp only [hbind] at hstep
    obtain ⟨data', -, hstep⟩ := bind_eq_ok.mp hstep
    cases hstep
    exact Std.TreeMap.getElem?_insert_self
  · have hdone : (n, a) ∈ done := by
      rcases List.mem_append.mp hmem with hmem | hmem
      · exact hmem
      · obtain ⟨rfl, -⟩ := Prod.mk.inj (List.mem_singleton.mp hmem)
        exact absurd rfl hmn
    dsimp only at hstep
    split at hstep
    · obtain ⟨data', -, hstep⟩ := bind_eq_ok.mp hstep
      cases hstep
      change (t.saves.insert m _)[n]? = _
      rw [Std.TreeMap.getElem?_insert, if_neg, ht hdone]
      simpa using hmn
    · cases hstep
      exact ht hdone

/-! ### The handler's own sequences -/

theorem writes_moveSP {flag op : Opcode} {n : UInt8} {r : Register} {line : Line}
    (hflag : flag = .sec ∨ flag = .clc) (hop : op = .sbc ∨ op = .adc)
    (hline : line ∈ Sequence.moveSP flag op n) (hw : Writes r line) : r ≠ .y := by
  rintro rfl
  obtain ⟨opcode, operand, rfl, -, hw⟩ := hw
  rcases hflag with rfl | rfl <;> rcases hop with rfl | rfl <;>
    simp [Sequence.moveSP, Line.bare] at hline <;>
    rcases hline with ⟨rfl, rfl⟩ | ⟨rfl, rfl⟩ | ⟨rfl, rfl⟩ | ⟨rfl, rfl⟩ | ⟨rfl, rfl⟩ | ⟨rfl, rfl⟩ <;>
    simp [Line.effects, Opcode.effects, RegSet.contains] at hw

/-- Setting up and releasing a frame overwrites A and X. -/
theorem writes_reserve {n : UInt8} {r : Register} {line : Line}
    (hline : line ∈ (Sequence.reserve n).code ∨ line ∈ (Sequence.release n).code)
    (hw : Writes r line) : 0 < n ∧ r ≠ .y := by
  by_cases hn : n = 0
  · simp [Sequence.reserve, Sequence.release, hn] at hline
  · refine ⟨UInt8.pos_iff_ne_zero.mpr hn, ?_⟩
    simp only [Sequence.reserve, Sequence.release, hn, if_false] at hline
    rcases hline with hline | hline
    · exact writes_moveSP (Or.inl rfl) (Or.inl rfl) hline hw
    · exact writes_moveSP (Or.inr rfl) (Or.inr rfl) hline hw

/-- Saving to the area overwrites A, and only where a cell is saved. -/
theorem writes_savePrologue {n : String} {saves : Clobbers} {r : Register} {line : Line}
    (hline : line ∈ (SaveScheme.inArea n saves).prologue.code) (hw : Writes r line) :
    r = .a ∧ ∃ z, saves.cells.contains z = true := by
  simp only [SaveScheme.inArea, SaveScheme.prologue, code_ofLines, List.mem_append, List.mem_map,
    List.mem_flatMap] at hline
  obtain ⟨opcode, operand, rfl, -, hw⟩ := hw
  rcases hline with ⟨⟨k, q⟩, -, heq⟩ | ⟨⟨k, z⟩, hz, hline⟩
  · cases q <;> cases heq <;> cases r <;>
      simp [Line.effects, Opcode.effects, RegSet.contains, SaveScheme.storeOp] at hw
  · have hzmem : saves.cells.contains z = true := by
      rw [← mem_toList]
      unfold SaveScheme.numbered at hz
      obtain ⟨⟨z', k'⟩, hz', heq⟩ := List.mem_map.mp hz
      cases heq
      exact (List.mem_zipIdx hz').2.2 ▸ List.getElem_mem _
    refine ⟨?_, z, hzmem⟩
    simp only [List.mem_cons, List.not_mem_nil, or_false] at hline
    rcases hline with heq | heq <;> cases heq <;> cases r <;>
      simp [Line.effects, Opcode.effects, RegSet.contains] at hw ⊢

/-- What the handler itself overwrites before it restores is saved. -/
theorem saved_of_handler {b : Binding} (hentry : b.entry = .interrupt) {set : Clobbers}
    {frameBytes : UInt8} {body : List Line} (hbody : Sub (.writtenBy body) set) {r : Register}
    {line : Line}
    (hline : line ∈ (Convention.prologue b frameBytes
      (Convention.interruptSaves set frameBytes)).code ++ body ++ (Sequence.release frameBytes).code)
    (hw : Writes r line) :
    (Convention.interruptSaves set frameBytes).containsReg r = true := by
  rw [has_interruptSaves]
  simp only [Convention.prologue, hentry, code_append, code_ofLines, List.mem_append,
    List.mem_singleton] at hline
  rcases hline with (((rfl | hline) | hline) | hline) | hline
  · obtain ⟨opcode, operand, heq, -⟩ := hw
    cases heq
  · obtain ⟨rfl, z, hz⟩ := writes_savePrologue hline hw
    rw [cells_interruptSaves] at hz
    exact Or.inr (Or.inr ⟨rfl, z, hz⟩)
  · exact Or.inr (Or.inl (writes_reserve (Or.inl hline) hw))
  · exact Or.inl (hbody _ ((has_writtenBy body _).mpr ⟨line, hline, has_ofLine.mpr hw⟩))
  · exact Or.inr (Or.inl (writes_reserve (Or.inr hline) hw))

/-! ### Handlers of a program -/

/-- The code of a function that runs when a handler does; of the handler itself, what comes before
its restoring sequence. -/
def ranCode (h : String) (saves : Clobbers) (f : EmittedFunction) : List Line :=
  if f.header.name = h then
    f.code.take (f.code.length - (SaveScheme.inArea h saves).epilogue.code.length)
  else f.code

theorem ranCode_handler {b : Binding} (hentry : b.entry = .interrupt) (frameBytes : UInt8)
    (saves : Clobbers) (body : List Line) :
    ranCode b.name saves (functionOf b frameBytes saves body) =
      (Convention.prologue b frameBytes saves).code ++ body ++
        (Sequence.release frameBytes).code := by
  have hcode : (functionOf b frameBytes saves body).code =
      ((Convention.prologue b frameBytes saves).code ++ body ++
        (Sequence.release frameBytes).code) ++ (SaveScheme.inArea b.name saves).epilogue.code := by
    simp [functionOf, Convention.epilogue, hentry]
  have hname : (functionOf b frameBytes saves body).header.name = b.name := rfl
  unfold ranCode
  rw [if_pos hname, hcode, List.length_append, Nat.add_sub_cancel, List.take_left' rfl]

/-- A register that nothing in a handler's run overwrites but the frame sequences of the functions
that the handler calls: it is in no body, declaration or support routine, and the handler's own
sequences do not use it. -/
def OnlyInFrames (s : Stages) (h : String) (frameBytes : UInt8) (r : Register) : Prop :=
  (∀ k, BodyReaches s.compilation h k → ¬ Has (own s.progress.clobbers k) (.reg r)) ∧
    ¬ (0 < frameBytes ∧ r ≠ .y) ∧
    ¬ (r = .a ∧ ∃ k z, BodyReaches s.compilation h k ∧ Has (own s.progress.clobbers k) (.cell z))

theorem saved_iff (hfilled : Filled s.compilation p s.progress) (h : String) (frameBytes : UInt8)
    (r : Register) :
    (Convention.interruptSaves (val s.progress.clobbers h) frameBytes).containsReg r = true ↔
      ¬ OnlyInFrames s h frameBytes r := by
  rw [has_interruptSaves, hfilled.has_val]
  simp only [hfilled.has_val]
  unfold OnlyInFrames
  constructor
  · rintro (⟨k, hk, hr⟩ | hframe | ⟨rfl, z, k, hk, hz⟩) ⟨hbody, hown, hcell⟩
    · exact hbody k hk hr
    · exact hown hframe
    · exact hcell ⟨rfl, k, z, hk, hz⟩
  · intro hnot
    by_contra hno
    push Not at hno
    obtain ⟨hbody, hown, hcell⟩ := hno
    refine hnot ⟨hbody, fun ⟨hpos, hy⟩ => hy (hown hpos), ?_⟩
    rintro ⟨rfl, k, z, hk, hz⟩
    exact hcell rfl z k hk hz

/-- **What handlers save.**  Take a handler that stays masked, in a program that compiles, and a
register that some function which the handler reaches overwrites.  The register is missing from the
set that the handler's sequences save exactly when only frame sequences of other functions overwrite
it. -/
theorem unsaved_iff {name : String} {options : Options} {p : Program} {out : Output}
    (hok : compile name options p = .ok out) :
    ∃ target s, Target.ofName name = .ok target ∧ stages target options p = .ok s ∧
      ∀ h b, s.compilation.bindings[h]? = some b → b.isExternal = false → b.entry = .interrupt →
        ∃ a saves, s.progress.allocated[h]? = some a ∧
          saves = Convention.interruptSaves (s.progress.clobbers.closedOrUnknown h) a.frameBytes ∧
          functionOf b a.frameBytes saves a.code ∈ s.emission.functions ∧
          ∀ f ∈ s.emission.functions, f.header.name ∈ (defined p).map (·.name) →
            Reaches (s.compilation.callGraph p) h f.header.name →
            ∀ r, (∃ line ∈ ranCode h saves f, Writes r line) →
              (saves.containsReg r = false ↔
                f.header.name ≠ h ∧ OnlyInFrames s h a.frameBytes r) := by
  obtain ⟨target, s, htarget, -, hs, hout⟩ := compile_stages hok
  have hpassed := passed hs
  have hstart := start_spec hpassed.started
  have hapart := apart hstart hpassed hout
  have hfilled := allocateAll_filled hstart hapart hpassed.allocated
  refine ⟨target, s, htarget, hs, fun h b hb hbody hentry => ?_⟩
  obtain ⟨code, hcode⟩ := hstart.selected_of_binding hb hbody
  obtain ⟨a, t, -, ha, hown, -⟩ := hfilled.allocated h code hcode b hb
  have hsaves : s.saving.saves.getD h {} =
      Convention.interruptSaves (val s.progress.clobbers h) a.frameBytes := by
    rw [Std.TreeMap.getD_eq_getD_getElem?, saves_spec hpassed ha hb (by simp [Binding.isInterrupt,
      EntryKind.isInterrupt, hentry])]
    rfl
  have hname : b.name = h := by
    obtain ⟨d, -, hd, hbind⟩ := hstart.bindings.mem_of_get h b hb
    exact (bind_spec hbind).1.trans hd
  subst hname
  refine ⟨a, _, ha, rfl, ?_, fun f hf hdefined hreach r hwrites => ?_⟩
  · obtain ⟨d, hd, hdname, -⟩ := hstart.selected.mem_of_get b.name code hcode
    obtain ⟨f, hf, a', b', ha', hb', rfl⟩ := emitted_of_defined hpassed hd
    rw [hdname] at hf
    rw [hdname, ha] at ha'
    rw [hdname, hb] at hb'
    cases ha'
    cases hb'
    rwa [hsaves] at hf
  · have hsaved := saved_iff hfilled b.name a.frameBytes r
    rw [Bool.eq_false_iff, Ne, hsaved, not_not]
    refine ⟨fun honly => ⟨?_, honly⟩, fun ⟨_, honly⟩ => honly⟩
    -- Everything that the handler itself overwrites is saved.
    intro hself
    have hf' := emitted_unique hstart hapart hpassed hf hdefined (hself ▸ ha) (hself ▸ hb)
    rw [hself, hsaves] at hf'
    obtain ⟨line, hline, hw⟩ := hwrites
    rw [hf', ranCode_handler hentry] at hline
    refine hsaved.mp (saved_of_handler hentry (fun i hi => ?_) hline hw) honly
    refine (hfilled.has_val b.name i).mpr ⟨b.name, ReflTransGen.refl, ?_⟩
    rw [hown]
    exact hi

/-- A handler that calls a function with a frame and a result in A. -/
def framedCallee : Program where
  name := "m"
  functions :=
    [{ signature := { name := "h", params := [], returnType := .void, entry := .interrupt }
       body := [.call none "f" [] .u8 none, .ret none] },
     { signature := { name := "f", params := [], returnType := .u8 }
       body := [.store (.constant 1) (.frameByte 0) .u8, .ret (some (.memory (.frameByte 0)))] }]

/-- Whether the handler saves all but Y although the function that it calls has a `TAY`. -/
def missesY (s : Stages) : Bool :=
  match s.compilation.bindings["h"]?, s.progress.allocated["h"]? with
  | some b, some a =>
    !b.isExternal && b.entry = .interrupt &&
      ((s.compilation.callGraph framedCallee).callees "h").contains "f" &&
      !(Convention.interruptSaves (s.progress.clobbers.closedOrUnknown "h")
        a.frameBytes).containsReg .y &&
      s.emission.functions.any fun f => f.header.name = "f" && f.code.contains (.bare .tay)
  | _, _ => false

/-- In this program Y is overwritten and not saved. -/
theorem framedCallee_unsaved :
    ∃ out s a, compile "null" {} framedCallee = .ok out ∧
      stages .nothing {} framedCallee = .ok s ∧ s.progress.allocated["h"]? = some a ∧
      (Convention.interruptSaves (s.progress.clobbers.closedOrUnknown "h")
        a.frameBytes).containsReg .y = false ∧ OnlyInFrames s "h" a.frameBytes .y := by
  have hok : ∃ out, compile "null" {} framedCallee = .ok out := by
    have : (compile "null" {} framedCallee).isOk = true := by decide +kernel
    cases h : compile "null" {} framedCallee with
    | ok out => exact ⟨out, rfl⟩
    | error e => rw [h] at this; cases this
  have hcheck : (stages .nothing {} framedCallee).toOption.any missesY = true := by decide +kernel
  obtain ⟨out, hok⟩ := hok
  obtain ⟨target, s, htarget, hs, hall⟩ := unsaved_iff hok
  have htarget' : target = .nothing := by
    have : Target.ofName "null" = .ok .nothing := by decide
    rw [this] at htarget
    cases htarget
    rfl
  subst htarget'
  rw [hs] at hcheck
  change missesY s = true at hcheck
  unfold missesY at hcheck
  split at hcheck
  · rename_i b a hb ha
    simp only [Bool.and_eq_true, Bool.not_eq_true', decide_eq_true_eq, List.contains_iff_mem,
      List.any_eq_true] at hcheck
    obtain ⟨⟨⟨⟨hbody, hentry⟩, hcall⟩, hy⟩, f, hf, hname, htay⟩ := hcheck
    obtain ⟨a', saves, ha', rfl, -, hiff⟩ := hall "h" b hb hbody hentry
    rw [ha] at ha'
    cases ha'
    refine ⟨out, s, a, hok, hs, ha, hy, ?_⟩
    refine ((hiff f hf (by rw [hname]; decide) (hname ▸ ReflTransGen.single hcall) .y ?_).mp hy).2
    refine ⟨.bare .tay, ?_, .tay, .implied, rfl, by decide, by decide⟩
    unfold ranCode
    rwa [if_neg (by rw [hname]; decide)]
  · cases hcheck

end Codegen6502.Proofs.Calls.HandlerSaves
