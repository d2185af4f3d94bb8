import Codegen6502.Proofs.Allocating.Simulation

/-!
# Allocation preserves meaning

`allocated_simulates`: whatever a run of selected code does, a run of the code that allocation makes
of it does as well: the same branches are taken to the same labels, the same calls go to the same
places with the same records, the same bytes are written to the same addresses, and where the
selected code ends, the allocated code ends at the same line, with the same in the registers of the
result.

It is not enough for this that pushes and pulls agree on all ways to a line (`Admissible`):
allocation counts them in the order of the text, and `Sound` asks that control comes to every line
with the same count.  `admissible_not_enough` is about code with which each of the demands is
missed.
-/

namespace Codegen6502.Proofs.Allocating.Preservation

open Allocation Processor.Memory Processor.LineRun Processor.Straight Processor.Agreement
open Processor.Passages
open Computations Liveness.Flow Assignment Scan Blocks Housing Blockwise DataLines Simulation

/-! ### What is preserved -/

/-- A configuration of the allocated code looks like one of the selected code: they have seen the
same, memory agrees outside the private places, and the result is the same at the end. -/
structure LooksLike (selected : SelectedCode) (a : AllocatedCode) (base : UInt8) (exit : RegSet)
    (c d : Config) : Prop where
  trace : d.trace = c.trace
  bus : SameBus ((houseOf selected a base).Private c.sp) c.store.machine.bus d.store.machine.bus
  sp : d.sp = c.sp
  result : c.line = selected.code.length → d.line = a.code.length ∧
    ∀ r, exit.contains r = true → regValue d.store.regs r = regValue c.store.regs r

/-- **Whatever the selected code comes to, the allocated code comes to**, and where that ends it
ends at the same line. -/
def Simulates (e : Environment) (selected : SelectedCode) (a : AllocatedCode) (base : UInt8)
    (exit : RegSet) (s : Store) (m : Machine) : Prop :=
  ∀ (n : ℕ) (c : Config), run e selected.code selected.calls n { line := 0, store := s } = some c →
    ∃ (j : ℕ) (d : Config),
      run e a.code a.calls j { line := 0, store := { s with machine := m } } = some d ∧
      LooksLike selected a base exit c d ∧
      (step e selected.code selected.calls c = none →
        step e a.code a.calls d = none ∧ a.code[d.line]? = selected.code[c.line]?)

variable {selected : SelectedCode} {callClobbers : Std.TreeMap ℕ Clobbers} {exit : RegSet}
  {live : Liveness} {a : AllocatedCode} {block : ℕ → List Line} {view : ℕ → StackView} {base : UInt8}
  {reached : ℕ → Prop} {e : Environment} {c d : Config}

/-! ### Runs -/

/-- **One line.** -/
theorem step_mirrored (hp : Placing selected callClobbers exit live a block view base)
    (hreached : Resumable selected.code selected.calls live reached)
    (hhidden : ∀ address, (houseOf selected a base).IsCell address ∨
      (houseOf selected a base).IsFrame address → e.watched address = false)
    (hm : Mirrors selected live a block view base reached c d)
    (hdiscreet : Discreet e selected callClobbers (houseOf selected a base) c) :
    (∀ c', step e selected.code selected.calls c = some c' →
      ∃ d', Reaches e a.code a.calls d d' ∧
        Mirrors selected live a block view base reached c' d') ∧
      (step e selected.code selected.calls c = none →
        step e a.code a.calls d = none ∧ a.code[d.line]? = selected.code[c.line]?) := by
  by_cases hdata : ∃ op operand, selected.code[c.line]? = some (.op op operand) ∧ isData op = true
  · obtain ⟨op, operand, hline, hop⟩ := hdata
    have hstep : step e selected.code selected.calls c = some (c.pass e op operand) := by
      unfold step
      rw [hline]
      simp [hop, Option.isNone_eq_false_iff.mpr (hp.sound.encoded c.line op operand hline)]
    rw [hstep]
    refine ⟨fun c' hc' => ?_, fun hnone => nomatch hnone⟩
    cases hc'
    exact data_mirrored hp hreached hhidden hm hdiscreet hline hop
  · have hcontrol : ∀ op operand, selected.code[c.line]? = some (.op op operand) →
        isData op = false := fun op operand hline => by
      rw [← Bool.not_eq_true]
      exact fun hop => hdata ⟨op, operand, hline, hop⟩
    have hsame := line_mirrored hp hm hcontrol
    have hrel := control_mirrored hp hreached hm hdiscreet hcontrol
    generalize hd : step e a.code a.calls d = after at hrel
    generalize step e selected.code selected.calls c = next at hrel
    cases hrel with
    | some hmirrors =>
      refine ⟨fun c' hc' => ?_, fun hnone => nomatch hnone⟩
      cases hc'
      exact ⟨_, .single hd, hmirrors⟩
    | none => exact ⟨fun c' hc' => (nomatch hc'), fun _ => ⟨rfl, hsame⟩⟩

/-- **A whole run**, by induction on its length. -/
theorem run_mirrored (hp : Placing selected callClobbers exit live a block view base)
    (hreached : Resumable selected.code selected.calls live reached)
    (hhidden : ∀ address, (houseOf selected a base).IsCell address ∨
      (houseOf selected a base).IsFrame address → e.watched address = false)
    {n : ℕ} : ∀ {c d c' : Config}, Mirrors selected live a block view base reached c d →
      (∀ n c', run e selected.code selected.calls n c = some c' →
        Discreet e selected callClobbers (houseOf selected a base) c') →
      run e selected.code selected.calls n c = some c' →
      ∃ d', Reaches e a.code a.calls d d' ∧
        Mirrors selected live a block view base reached c' d' := by
  induction n with
  | zero =>
    intro c d c' hm _ hrun
    cases hrun
    exact ⟨d, .refl d, hm⟩
  | succ n ih =>
    intro c d c' hm hdiscreet hrun
    obtain ⟨next, hstep, hrest⟩ := Option.bind_eq_some_iff.mp hrun
    obtain ⟨after, hafter, hm'⟩ :=
      (step_mirrored hp hreached hhidden hm (hdiscreet 0 c rfl)).1 next hstep
    obtain ⟨d', hd', hm''⟩ := ih hm' (fun n c' hc' => hdiscreet (n + 1) c' (by
      rw [run, hstep]
      exact hc')) hrest
    exact ⟨d', hafter.trans hd', hm''⟩

theorem looksLike (hp : Placing selected callClobbers exit live a block view base)
    (hm : Mirrors selected live a block view base reached c d) :
    LooksLike selected a base exit c d := by
  refine ⟨hm.trace, hm.housed.bus, hm.housed.regs.sp.symm, fun hend => ⟨?_, fun r hr => ?_⟩⟩
  · rw [hm.line, hend, hp.laid.length]
  · have hlive : Before live c.line (.reg r) := by
      unfold Before
      rw [hend, hp.solves.exit]
      exact List.contains_iff_mem.mpr (List.mem_map.mpr ⟨r, (mem_toList _ r).mpr hr, rfl⟩)
    cases r with
    | a => exact hm.housed.regs.a.symm
    | x => exact (hm.housed.regs.x hlive).symm
    | y => exact (hm.housed.regs.y hlive).symm

/-! ### Allocation -/

section Allocated

variable {z : ZeroPage} {binding : Binding} (h : allocate z selected binding callClobbers = .ok a)
  (hlive : Liveness.compute selected.code selected.calls binding.returnKind.registers = .ok live)
  (hframe : base.toNat + a.frameBytes.toNat ≤ 0xFF)

include h hlive hframe

theorem fits_of_allocate : (houseOf selected a base).Fits := by
  have hassigned := assigned_of_allocate h hlive
  refine ⟨hframe, UInt8.le_iff_toNat_le.mpr hassigned.locals, fun v o hv => ?_⟩
  obtain ⟨hle, hlt⟩ := hassigned.stack v o hv
  exact ⟨UInt8.le_iff_toNat_le.mpr hle, UInt8.lt_iff_toNat_lt.mpr hlt⟩

/-- The blocks of an allocated function. -/
theorem placing_of_allocate (hsound : Sound selected a base) :
    ∃ block view,
      Placing selected callClobbers binding.returnKind.registers live a block view base := by
  obtain ⟨block, view, hlaid⟩ := laid_of_allocate h hlive
  exact ⟨block, view, solves_of_compute hlive, assigned_of_allocate h hlive, hlaid,
    fits_of_allocate h hlive hframe, hsound⟩

/-- **Allocation preserves meaning.**  The runs start behind an entry sequence that has reserved the
frame, with what is live there in its location. -/
theorem allocated_simulates (hsound : Sound selected a base)
    (hhidden : ∀ address, (houseOf selected a base).IsCell address ∨
      (houseOf selected a base).IsFrame address → e.watched address = false)
    {s : Store} {m : Machine} (hstart : Housed (houseOf selected a base) (Before live 0) s m)
    (hbase : s.regs.sp = base)
    (hdiscreet : ∀ n c, run e selected.code selected.calls n { line := 0, store := s } = some c →
      Discreet e selected callClobbers (houseOf selected a base) c) :
    Simulates e selected a base binding.returnKind.registers s m := by
  obtain ⟨block, view, hp⟩ := placing_of_allocate h hlive hframe hsound
  obtain ⟨reached, hreached⟩ := hp.solves.resumable
  have hm : Mirrors selected live a block view base reached { line := 0, store := s }
      { line := 0, store := { s with machine := m } } := by
    refine ⟨rfl, Nat.zero_le _, hstart, ?_, fun _ depth hdepth => ?_, rfl, rfl, by simp, by simp⟩
    · change Comes _ 0 ((base.toNat : ℤ) - (s.regs.sp.toNat : ℤ))
      rw [hbase, sub_self]
      exact .start
    · rw [hp.laid.start] at hdepth
      cases hdepth
  intro n c hrun
  obtain ⟨d, ⟨j, hd⟩, hm'⟩ := run_mirrored hp hreached hhidden hm hdiscreet hrun
  exact ⟨j, d, hd, looksLike hp hm',
    (step_mirrored hp hreached hhidden hm' (hdiscreet n c hrun)).2⟩

end Allocated

/-! ### Code that keeps a value in a register -/

/-- A number of pushed bytes for every line, if every step of control agrees with it. -/
def isLevelled (code : List Line) (level : ℕ → ℤ) : Bool :=
  level 0 = 0 && code.zipIdx.all fun (line, k) =>
    match line.next (labelIndices code) k with
    | .ok ns => ns.all fun j => level j = level k + pushes line
    | .error _ => true

theorem comes_level {code : List Line} {level : ℕ → ℤ} (h : isLevelled code level = true) {k : ℕ}
    {depth : ℤ} (hcomes : Comes code k depth) : depth = level k := by
  unfold isLevelled at h
  simp only [Bool.and_eq_true, decide_eq_true_eq, List.all_eq_true] at h
  obtain ⟨hstart, hlines⟩ := h
  induction hcomes with
  | start => exact hstart.symm
  | @next k j depth line ns _ hline hns hj ih =>
    have hall := hlines (line, k) (List.mem_zipIdx_iff_getElem?.mpr hline)
    dsimp only at hall
    rw [hns] at hall
    have hlevel := List.all_eq_true.mp hall j hj
    rw [decide_eq_true_eq] at hlevel
    rw [hlevel, ih]

/-- A function that returns a byte. -/
def byteBinding : Binding where
  name := "f"
  entry := .subroutine
  bank := .common
  placement := .common
  variadic := false
  params := []
  returnKind := .byte
  returnType := .u8
  visible := true
  declaredClobbers := none
  resultSlot := none
  vaCountSlot := none
  vaPtrSlot := none

/-- Code without calls. -/
def selectedOf (code : List Line) (locals : UInt8) : SelectedCode :=
  { name := "f", code, calls := ∅, routines := [], locals, vregs := 1 }

/-- A machine behind an entry sequence that has left `$F0` as stack pointer; Z is set. -/
def startOf (bus : Bus) : Machine :=
  { Machine.create 0xA000 0x2000 0xD500 with bus, regs := { sp := 0xF0, p := 0x22 } }

/-- Memory with a byte in the first place above the stack pointer. -/
def startBus : Bus := (Bus.create 0xA000 0x2000 0xD500).write 0x01F1 7

theorem read_startBus {address : UInt16} (h : address.toNat < 0x200) :
    startBus.read address = if 0x01F1 = address then 7 else 0 := by
  have hwindow : (Bus.create 0xA000 0x2000 0xD500).inWindow address = false := by
    have : ¬ (0xA000 : UInt16) ≤ address := fun hle => by
      have := UInt16.le_iff_toNat_le.mp hle
      simp only [UInt16.reduceToNat] at this
      omega
    simp [Bus.inWindow, Bus.create, this]
  have hzero : (Bus.create 0xA000 0x2000 0xD500).read address = 0 := by
    unfold Bus.read
    rw [hwindow]
    simp [Bus.create, Ram.get, Vector.get]
  unfold startBus
  rw [read_write ⟨by decide, by decide⟩, hzero]

theorem low_startBus {address : UInt16} (h : address.toNat < 0x200) : Plain startBus address := by
  unfold startBus Plain
  simp only [inWindow_write, bankSelect_write]
  refine ⟨?_, ?_⟩
  · have : ¬ (0xA000 : UInt16) ≤ address := fun hle => by
      have := UInt16.le_iff_toNat_le.mp hle
      simp only [UInt16.reduceToNat] at this
      omega
    simp [Bus.inWindow, Bus.create, this]
  · rintro rfl
    simp [Bus.create] at h

/-- Names stand for nothing, calls do nothing, and writes above the stack page are seen. -/
def plainEnvironment : Environment where
  linkage := ⟨fun _ => 0, 0⟩
  watched address := 0x200 ≤ address
  answer _ := ⟨0, 0, 0, 0, fun _ => none, 0, none⟩

/-- Code that keeps a frame byte in a value while the byte is overwritten, a byte is pushed and a
function is called. -/
def keeping : SelectedCode :=
  { selectedOf [.op .lda (.frame 0), .op .sta (.virtual ⟨0⟩), .op .lda (.byte 1),
      .op .sta (.frame 0), .bare .pha, .jsr "g", .op .lda (.virtual ⟨0⟩),
      .op .sta (.fixed 0x2000), .bare .pla] 1 with
    calls := .ofList [(5, CallTarget.function "g")] }

/-- The function overwrites the first cell of the pool. -/
def keepingClobbers : Std.TreeMap ℕ Clobbers :=
  .ofList [(5, ({ cells := .ofList [0x93] } : Clobbers))]

theorem keeping_lines {k : ℕ} {op : Opcode} {operand : Operand}
    (h : keeping.code[k]? = some (.op op operand)) :
    (op.encode operand.mode).isSome ∧ op ≠ .txs ∧ (∀ o, operand = .frame o → o < 1) ∧
      (∀ v, operand = .virtual v → (op.encode .absoluteX).isSome) ∧
      (isData op = true → ∀ m, plainEnvironment.linkage.touched m operand ⊆ [0x2000]) := by
  have hmem := List.mem_of_getElem? h
  simp only [keeping, selectedOf, Line.bare, Line.jsr, List.mem_cons, Line.op.injEq,
    List.not_mem_nil, or_false] at hmem
  rcases hmem with ⟨rfl, rfl⟩ | ⟨rfl, rfl⟩ | ⟨rfl, rfl⟩ | ⟨rfl, rfl⟩ | ⟨rfl, rfl⟩ | ⟨rfl, rfl⟩ |
    ⟨rfl, rfl⟩ | ⟨rfl, rfl⟩ | ⟨rfl, rfl⟩ <;>
  exact ⟨by decide, by decide, by simp [Operand.byte, Operand.fixed, Operand.symbol],
    by simp [Opcode.encode, Opcode.computing, Operand.byte, Operand.fixed, Operand.symbol],
    by simp [isData, Linkage.touched, Linkage.effective, Linkage.address, Operand.fixed,
      EffectiveOperand.toAddress, Operand.byte]⟩

theorem sound_keeping (a : AllocatedCode) : Sound keeping a 0xF0 := by
  refine ⟨fun k op operand h => (keeping_lines h).1, fun k operand h => (keeping_lines h).2.1 rfl,
    fun k op o h => (keeping_lines h).2.2.1 o rfl,
    fun k op v o h _ => (keeping_lines h).2.2.2.1 v rfl, fun k depth hcomes => ?_⟩
  have hlevelled : isLevelled keeping.code (pushed keeping.code) = true := by decide +kernel
  have hlevel := comes_level hlevelled hcomes
  have hbounds : ∀ k, 0 ≤ pushed keeping.code k ∧ pushed keeping.code k ≤ 1 := by
    intro k
    by_cases hk : k < 9
    · interval_cases k <;> decide
    · unfold pushed
      rw [List.take_of_length_le (show keeping.code.length ≤ k from Nat.le_of_not_lt hk)]
      decide
  obtain ⟨hnonneg, hle⟩ := hbounds k
  exact ⟨hlevel, hlevel ▸ hnonneg, by rw [hlevel]; exact lt_of_le_of_lt hle (by decide)⟩

/-- The value is kept in the second cell of the pool. -/
theorem keeping_simulated : ∃ a, allocate {} keeping byteBinding keepingClobbers = .ok a ∧
    a.locations[(0 : UInt32)]? = some (.zeroPage 0x94) ∧
    Simulates plainEnvironment keeping a 0xF0 byteBinding.returnKind.registers
      ((houseOf keeping a 0xF0).storeOf (startOf startBus)) (startOf startBus) := by
  have hcheck : (allocate {} keeping byteBinding keepingClobbers).toOption.any (fun a =>
      a.frameBytes = 1 && a.locations[(0 : UInt32)]? = some (.zeroPage 0x94)) = true := by
    decide +kernel
  obtain ⟨a, ha, htest⟩ := ok_of_any hcheck
  simp only [Bool.and_eq_true, decide_eq_true_eq] at htest
  obtain ⟨hframe, hlocation⟩ := htest
  obtain ⟨live, -, hlive, -⟩ := (allocate_spec ha).out
  have hframe' : (0xF0 : UInt8).toNat + a.frameBytes.toNat ≤ 0xFF := by rw [hframe]; decide
  have hfits := fits_of_allocate ha hlive hframe'
  refine ⟨a, ha, hlocation, allocated_simulates ha hlive hframe' (sound_keeping a)
    (fun address haddress => ?_) (housed_storeOf (fun _ => low_startBus) (UInt8.le_refl _)) rfl
    fun n c _ => ⟨fun op operand hline hdata address haddress => ?_,
      fun _ _ _ _ => ⟨fun _ _ => rfl, fun _ _ _ => .inl rfl⟩⟩⟩
  · have := House.low_of_private hfits haddress
    refine decide_eq_false fun hle => ?_
    have := UInt16.le_iff_toNat_le.mp hle
    simp only [UInt16.reduceToNat] at this
    omega
  · have hmem := (keeping_lines hline).2.2.2.2 hdata _ haddress
    rw [List.mem_singleton] at hmem
    subst hmem
    exact fun hprivate => absurd (House.low_of_mem hfits hprivate) (by decide)

/-! ### Code whose meaning is not preserved -/

/-- Code that does not touch the stack pointer or leave, whose branches go to labels that it has,
whose frame bytes are locals, and whose pushes and pulls agree on all ways to a line. -/
structure Admissible (selected : SelectedCode) : Prop where
  stays : ∀ (k : ℕ) (op : Opcode) (operand : Operand), selected.code[k]? = some (.op op operand) →
    op ∉ [.txs, .rts, .rti, .brk]
  targets : ∀ line ∈ selected.code, ∀ target, line.target? = some target →
    .label target ∈ selected.code
  locals : ∀ (k : ℕ) (op : Opcode) (o : UInt8), selected.code[k]? = some (.op op (.frame o)) →
    o < selected.locals
  depth : ∀ (k : ℕ) (depth depth' : ℤ), Comes selected.code k depth → Comes selected.code k depth' →
    depth = depth'

/-- A test for admissible code, by the number of bytes that are on the stack in front of each
line. -/
def isAdmissible (selected : SelectedCode) (level : ℕ → ℤ) : Bool :=
  isLevelled selected.code level && selected.code.all fun line =>
    (match line with
      | .op op operand => op ∉ [.txs, .rts, .rti, .brk] &&
          match operand with
          | .frame o => decide (o < selected.locals)
          | _ => true
      | _ => true) &&
    line.target?.all fun target => .label target ∈ selected.code

theorem admissible_of_check {level : ℕ → ℤ} (h : isAdmissible selected level = true) :
    Admissible selected := by
  unfold isAdmissible at h
  rw [Bool.and_eq_true, List.all_eq_true] at h
  obtain ⟨hlevel, hlines⟩ := h
  simp only [Bool.and_eq_true] at hlines
  refine ⟨fun k op operand hline => ?_, fun line hline target htarget => ?_, fun k op o hline => ?_,
    fun k depth depth' h h' => (comes_level hlevel h).trans (comes_level hlevel h').symm⟩
  · have hall := (hlines _ (List.mem_of_getElem? hline)).1
    simp only [Bool.and_eq_true, decide_eq_true_eq] at hall
    exact hall.1
  · have hall := (hlines line hline).2
    rw [htarget] at hall
    exact of_decide_eq_true hall
  · have hall := (hlines _ (List.mem_of_getElem? hline)).1
    simp only [Bool.and_eq_true, decide_eq_true_eq] at hall
    exact hall.2

theorem exec_sta_frame (k : Linkage) (s : Store) (o : UInt8) :
    s.exec k .sta (.frame o) = s.setFrame o s.regs.a := by
  simp only [Store.exec, cellOp_sta]
  rfl

/-- Two runs that have ended have ended the same. -/
theorem run_ends {code : List Line} {calls : Std.TreeMap ℕ CallTarget} : ∀ {n n' : ℕ} {c d d' : Config},
    run e code calls n c = some d → step e code calls d = none →
    run e code calls n' c = some d' → step e code calls d' = none → d = d' := by
  intro n
  induction n with
  | zero =>
    intro n' c d d' hd hend hd' _
    cases hd
    cases n' with
    | zero => exact Option.some.inj hd'
    | succ n' =>
      obtain ⟨next, hnext, -⟩ := Option.bind_eq_some_iff.mp hd'
      rw [hend] at hnext
      cases hnext
  | succ n ih =>
    intro n' c d d' hd hend hd' hend'
    obtain ⟨next, hnext, hrest⟩ := Option.bind_eq_some_iff.mp hd
    cases n' with
    | zero =>
      cases hd'
      rw [hend'] at hnext
      cases hnext
    | succ n' =>
      obtain ⟨next', hnext', hrest'⟩ := Option.bind_eq_some_iff.mp hd'
      rw [hnext] at hnext'
      cases hnext'
      exact ih hrest hend hrest' hend'

/-- Runs that end differently. -/
theorem not_simulates {s : Store} {m : Machine} {n j : ℕ} {c d : Config}
    (hexit : exit.contains .a = true)
    (hrun : run e selected.code selected.calls n { line := 0, store := s } = some c)
    (hend : c.line = selected.code.length)
    (hallocated : run e a.code a.calls j { line := 0, store := { s with machine := m } } = some d)
    (hstop : step e a.code a.calls d = none)
    (hdiffer : d.line = a.code.length → d.store.regs.a ≠ c.store.regs.a) :
    ¬ Simulates e selected a base exit s m := by
  intro hsimulates
  obtain ⟨j', d', hrun', hlooks, hends⟩ := hsimulates n c hrun
  have hnone : step e selected.code selected.calls c = none := by
    unfold step
    rw [hend, List.getElem?_length]
  obtain rfl := run_ends hallocated hstop hrun' (hends hnone).1
  obtain ⟨hline, hresult⟩ := hlooks.result hend
  exact hdiffer hline (hresult .a hexit)

/-- Admissible code with a run that allocation does not keep, from a state in which everything is in
its place. -/
structure Fails (z : ZeroPage) (selected : SelectedCode) : Prop where
  bound : Convention.bindSignature ⟨z, false, "null", 0xD500⟩
    { name := "f", params := [], returnType := .u8 } = .ok byteBinding
  admissible : Admissible selected
  run : ∃ a, allocate z selected byteBinding ∅ = .ok a ∧
    (0xF0 : UInt8).toNat + a.frameBytes.toNat ≤ 0xFF ∧
    Housed (houseOf selected a 0xF0) (fun _ => True)
      ((houseOf selected a 0xF0).storeOf (startOf startBus)) (startOf startBus) ∧
    ¬ Simulates plainEnvironment selected a 0xF0 byteBinding.returnKind.registers
      ((houseOf selected a 0xF0).storeOf (startOf startBus)) (startOf startBus)

/-- A byte is pushed on both sides of a branch, so the text counts two of them. -/
def branching : SelectedCode :=
  selectedOf [.branch .beq "there", .bare .pha, .jmp "join", .label "there", .bare .pha,
    .label "join", .bare .pla, .op .lda (.frame 0)] 1

/-- A byte is pulled that has not been pushed. -/
def pulling : SelectedCode :=
  selectedOf [.op .lda (.byte 1), .op .sta (.frame 0), .bare .pla] 1

/-- A byte of the frame is read by its address. -/
def peeking : SelectedCode :=
  selectedOf [.op .lda (.byte 1), .op .sta (.frame 0), .op .lda (.fixed 0x01F1)] 1

/-- A value is loaded by an instruction that cannot be indexed by X. -/
def indexing : SelectedCode := selectedOf [.op .ldx (.virtual ⟨0⟩), .bare .txa] 0

/-- Code fails that passes the test and has two runs that end differently. -/
theorem fails_of_runs {z : ZeroPage} {selected : SelectedCode} (level : ℕ → ℤ) (lines : List Line)
    (hbound : Convention.bindSignature ⟨z, false, "null", 0xD500⟩
      { name := "f", params := [], returnType := .u8 } = .ok byteBinding)
    (hadmissible : isAdmissible selected level = true)
    (hallocate : (allocate z selected byteBinding ∅).toOption.any (fun a =>
      a.frameBytes = 1 && a.code = lines) = true)
    (hruns : ∀ (s : Store) (calls : Std.TreeMap ℕ CallTarget), s.machine = startOf startBus →
      s.frame 0 = 7 → ∃ n c j d,
        run plainEnvironment selected.code selected.calls n { line := 0, store := s } = some c ∧
        c.line = selected.code.length ∧
        run plainEnvironment lines calls j { line := 0, store := s } = some d ∧
        step plainEnvironment lines calls d = none ∧
        (d.line = lines.length → d.store.regs.a ≠ c.store.regs.a)) : Fails z selected := by
  obtain ⟨a, ha, htest⟩ := ok_of_any hallocate
  simp only [Bool.and_eq_true, decide_eq_true_eq] at htest
  obtain ⟨hframe, hcode⟩ := htest
  refine ⟨hbound, admissible_of_check hadmissible, a, ha, by rw [hframe]; decide,
    housed_storeOf (fun _ => low_startBus) (UInt8.le_refl _), ?_⟩
  have hfirst : ((houseOf selected a 0xF0).storeOf (startOf startBus)).frame 0 = 7 := by
    have haddress : (houseOf selected a 0xF0).frameAddress 0 = 0x01F1 := by
      simp only [House.frameAddress, houseOf]
      decide
    simp only [House.storeOf, startOf, haddress]
    exact read_startBus (by decide)
  obtain ⟨n, c, j, d, hrun, hend, hallocated, hstop, hdiffer⟩ :=
    hruns ((houseOf selected a 0xF0).storeOf (startOf startBus)) a.calls rfl hfirst
  refine not_simulates rfl hrun hend (d := d) (j := j) ?_ ?_ ?_
  · rw [hcode]
    exact hallocated
  · rw [hcode]
    exact hstop
  · rw [hcode]
    exact hdiffer

theorem fails_pulling : Fails {} pulling := by
  refine fails_of_runs (fun k => if k = 3 then -1 else 0)
    [.op .lda (.byte 1), .bare .tsx, .op .sta (.absoluteX (.absolute 0x0101)), .bare .pla]
    rfl (by decide +kernel) (by decide +kernel) fun s calls hs hframe => ?_
  obtain ⟨machine, cells, frame⟩ := s
  cases hs
  have hselected : startBus.read 0x01F1 = 7 := read_startBus (by decide)
  have hallocated : (startBus.write 0x01F1 1).read 0x01F1 = 1 := by
    rw [read_write (low_startBus (by decide)), if_pos rfl]
  generalize startBus = bus at hselected hallocated
  refine ⟨3, _, 4, _, rfl, rfl, rfl, rfl, fun _ => ?_⟩
  dsimp only [Config.pass]
  rw [exec_sta_frame]
  change (bus.write 0x01F1 1).read (Machine.stackAddress 0xF1) ≠ bus.read (Machine.stackAddress 0xF1)
  rw [show Machine.stackAddress 0xF1 = 0x01F1 by decide, hselected, hallocated]
  decide

theorem fails_peeking : Fails {} peeking := by
  refine fails_of_runs (fun _ => 0)
    [.op .lda (.byte 1), .bare .tsx, .op .sta (.absoluteX (.absolute 0x0101)), .op .lda (.fixed 0x01F1)]
    rfl (by decide +kernel) (by decide +kernel) fun s calls hs hframe => ?_
  obtain ⟨machine, cells, frame⟩ := s
  cases hs
  have hselected : startBus.read 0x01F1 = 7 := read_startBus (by decide)
  have hallocated : (startBus.write 0x01F1 1).read 0x01F1 = 1 := by
    rw [read_write (low_startBus (by decide)), if_pos rfl]
  generalize startBus = bus at hselected hallocated
  refine ⟨3, _, 4, _, rfl, rfl, rfl, rfl, fun _ => ?_⟩
  dsimp only [Config.pass]
  rw [exec_sta_frame]
  change (bus.write 0x01F1 1).read 0x01F1 ≠ bus.read 0x01F1
  rw [hselected, hallocated]
  decide

theorem fails_indexing : Fails { poolSize := 0 } indexing := by
  refine fails_of_runs (fun _ => 0) [.bare .tsx, .op .ldx (.absoluteX (.absolute 0x0101)), .bare .txa]
    rfl (by decide +kernel) (by decide +kernel) fun s calls hs hframe => ?_
  exact ⟨2, _, 1, _, rfl, rfl, rfl, rfl, fun hline => by cases hline⟩

/-- A run whose first line is a branch that is taken. -/
theorem run_taken {code : List Line} {calls : Std.TreeMap ℕ CallTarget} {s : Store} {target : String}
    {i n : ℕ} (hline : code[0]? = some (.branch .beq target)) (hzero : s.regs.flag .z = true)
    (htarget : (labelIndices code)[target]? = some i) :
    run e code calls (n + 1) { line := 0, store := s } =
      run e code calls n { line := i, store := s, trace := [.branch target true] } := by
  have hstep : step e code calls { line := 0, store := s } =
      some { line := i, store := s, trace := [.branch target true] } := by
    rw [step_control hline rfl rfl, if_pos (show Opcode.beq.isBranch = true from rfl)]
    unfold Config.branch Config.goto isTaken
    dsimp only
    rw [hzero, if_pos rfl, htarget]
    rfl
  rw [run, hstep]
  rfl

/-- The code that allocation makes of it. -/
def branchingPlaced : List Line :=
  [.branch .beq "there", .bare .pha, .jmp "join", .label "there", .bare .pha, .label "join",
    .bare .pla, .bare .tsx, .op .lda (.absoluteX (.absolute 0x0102))]

theorem fails_branching : Fails {} branching := by
  refine fails_of_runs (fun k => if k = 2 ∨ k = 5 ∨ k = 6 then 1 else 0) branchingPlaced rfl
    (by decide +kernel) (by decide +kernel) fun s calls hs hframe => ?_
  obtain ⟨machine, cells, frame⟩ := s
  cases hs
  have hzero : (startBus.write (Machine.stackAddress 0xF0) 0).read 0x01F2 = 0 := by
    rw [show Machine.stackAddress 0xF0 = 0x01F0 by decide, read_write (low_startBus (by decide)),
      read_startBus (by decide)]
    rfl
  generalize startBus = bus at hzero
  have htaken : (Store.mk (startOf bus) cells frame).regs.flag .z = true :=
    show Registers.flag { sp := 0xF0, p := 0x22 } .z = true by decide
  have hselected : ∃ c, run plainEnvironment branching.code branching.calls 6
      { line := 0, store := ⟨startOf bus, cells, frame⟩ } = some c ∧ c.line = 8 ∧
        c.store.regs.a = 7 := by
    have htarget : (labelIndices branching.code)["there"]? = some 3 := by decide +kernel
    rw [run_taken rfl htaken htarget]
    refine ⟨_, rfl, rfl, ?_⟩
    dsimp only [Config.pass]
    rw [exec_lda]
    exact hframe
  have hallocated : ∃ d, run plainEnvironment branchingPlaced calls 7
      { line := 0, store := ⟨startOf bus, cells, frame⟩ } = some d ∧ d.line = 9 ∧
        d.store.regs.a = 0 := by
    have htarget : (labelIndices branchingPlaced)["there"]? = some 3 := by decide +kernel
    rw [run_taken rfl htaken htarget]
    refine ⟨_, rfl, rfl, ?_⟩
    change (bus.write (Machine.stackAddress 0xF0) 0).read
      (0x0102 + ((0xF0 : UInt8) - 1 + 1).toUInt16) = 0
    exact hzero
  obtain ⟨c, hc, hend, hseven⟩ := hselected
  obtain ⟨d, hd, hline, hnull⟩ := hallocated
  refine ⟨6, c, 7, d, hc, hend, hd, ?_, fun _ => ?_⟩
  · unfold step
    rw [hline]
    rfl
  · rw [hseven, hnull]
    decide

/-- **What allocation asks for beyond admissible code is needed**: that pushes are counted right in
the order of the text, that no more is pulled than has been pushed, that the frame is not gone to by
address, and that the accesses to values can be indexed by X. -/
theorem admissible_not_enough : Fails {} branching ∧ Fails {} pulling ∧ Fails {} peeking ∧
    Fails { poolSize := 0 } indexing :=
  ⟨fails_branching, fails_pulling, fails_peeking, fails_indexing⟩

end Codegen6502.Proofs.Allocating.Preservation
