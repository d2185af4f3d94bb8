import Codegen6502.Proofs.Emitting.CellKeeping
import Codegen6502.Proofs.Emitting.MemoryUse
import Codegen6502.Proofs.Processor.Stack

/-!
# The bank register among the program's memory

Options are refused if the register that selects the bank lies in the window, in the code area or in
the data area.  Nothing else is asked of it, so that it may be a cell of the zero page or a byte of
the stack page.

* `validate_selecting`, `free_low`: where the register may lie;
* `switches_iff`: an instruction selects a bank exactly if one of its stores goes to the register;
* `OwnStore`, `Stores`: the stores that code makes by itself, all below `$0200`, and all stores of
  emitted code;
* `stores_iff`: these are the stores of an emitted line;
* `selects_iff`: so a line selects a bank by a store of its own if that meets the register, and by
  none if the register lies behind the stack page.
-/

namespace Codegen6502.Proofs.Emitting.BankRegister

open Compilation Computations Calls.Pipeline Calls.Emitted
open Selecting.Vocabulary Selecting.CellUse Selecting.Bodies Origins CellKeeping
open Processor.LineRun Processor.Fetching Processor.Memory

/-! ### Accepted options -/

/-- The options with the register at an address. -/
def selecting (o : Options) (address : UInt16) : Options :=
  { o with map := { o.map with bankSelect := address } }

/-- Whether no region of a map contains an address. -/
def Free (map : MemoryMap) (address : UInt16) : Prop :=
  ∀ r ∈ map.regions, r.contains address.toNat = false

variable {o : Options}

theorem validate_ok_iff : o.validate = .ok () ↔ o.zeroPage.fault? = none ∧
    o.map.regions.findSome? Region.fault? = none ∧ MemoryMap.overlap? o.map.regions = none ∧
      Free o.map o.map.bankSelect := by
  have hvalidate : o.validate = .ok () ↔ o.fault? = none := by
    unfold Options.validate
    cases o.fault? with
    | none => simp
    | some problem => simp
  rw [hvalidate]
  simp [Options.fault?, MemoryMap.fault?, Free]

/-- **Where the register may lie**: anywhere outside the regions, the other options kept. -/
theorem validate_selecting (h : o.validate = .ok ()) (address : UInt16) :
    (selecting o address).validate = .ok () ↔ Free o.map address := by
  obtain ⟨hlayout, hregions, hoverlap, -⟩ := validate_ok_iff.mp h
  rw [validate_ok_iff]
  exact ⟨fun hall => hall.2.2.2, fun hfree => ⟨hlayout, hregions, hoverlap, hfree⟩⟩

/-- No region reaches below `$0200`. -/
theorem free_low (h : o.validate = .ok ()) {address : UInt16} (hlow : address.toNat < 0x200) :
    Free o.map address := by
  intro r hr
  have hstart := ((MemoryUse.separate_of_validate h).bounds r hr).1
  simp only [Region.contains, Bool.and_eq_false_iff, decide_eq_false_iff_not]
  omega

/-! ### Stores of an instruction -/

/-- The addresses that an instruction stores to, on the stack or by its operand. -/
def stored (m : Machine) (opcode : Opcode) (t : EffectiveOperand) : List UInt16 :=
  match opcode with
  | .pha | .php => [Machine.stackAddress m.regs.sp]
  | .jsr => [Machine.stackAddress m.regs.sp, Machine.stackAddress (m.regs.sp - 1)]
  | .brk => [Machine.stackAddress m.regs.sp, Machine.stackAddress (m.regs.sp - 1),
      Machine.stackAddress (m.regs.sp - 1 - 1)]
  | opcode =>
    match t with
    | .address a => if opcode.writesMemory then [a] else []
    | _ => []

/-- The bus after stores in a row. -/
def writes (b : Bus) (stores : List (UInt16 × UInt8)) : Bus :=
  stores.foldl (fun b store => b.write store.1 store.2) b

theorem switches_write {b : Bus} (h : b.inWindow b.bankSelect = false) (a : UInt16) (value : UInt8) :
    (b.write a value).switches = if a = b.bankSelect then value :: b.switches else b.switches := by
  by_cases ha : a = b.bankSelect
  · simp [Bus.write, ha, h]
  · unfold Bus.write
    rw [if_neg ha, if_neg ha]
    split <;> rfl

/-- The banks that stores in a row select, the last one first. -/
theorem switches_writes (stores : List (UInt16 × UInt8)) : ∀ {b : Bus},
    b.inWindow b.bankSelect = false → (writes b stores).switches =
      ((stores.filter (·.1 = b.bankSelect)).map (·.2)).reverse ++ b.switches := by
  induction stores with
  | nil => exact fun _ => rfl
  | cons store stores ih =>
    intro b h
    have hnext := ih (b := b.write store.1 store.2) (by rwa [inWindow_write, bankSelect_write])
    rw [bankSelect_write, switches_write h] at hnext
    change (writes (b.write store.1 store.2) stores).switches = _
    rw [hnext]
    by_cases hstore : store.1 = b.bankSelect <;> simp [hstore]

/-- An instruction that neither writes its operand nor pushes stores nothing. -/
theorem stored_eq_nil {opcode : Opcode} (m : Machine) (t : EffectiveOperand)
    (hwrites : opcode.writesMemory = false)
    (hpushes : opcode ≠ .pha ∧ opcode ≠ .php ∧ opcode ≠ .jsr ∧ opcode ≠ .brk) :
    stored m opcode t = [] := by
  -- These are what the last case of the definition asks for.
  obtain ⟨hpha, hphp, hjsr, hbrk⟩ := hpushes
  cases t <;> simp [stored, hwrites]

/-- Writing the operand is one store at most. -/
theorem writes_writeOperand {opcode : Opcode} (m : Machine) {q : Machine} (hq : q.bus = m.bus)
    (hwrites : opcode.writesMemory = true) (t : EffectiveOperand) (value : UInt8) :
    ∃ stores, stores.map Prod.fst = stored m opcode t ∧
      (q.writeOperand t value).bus = writes m.bus stores := by
  have hpushes : opcode ≠ .pha ∧ opcode ≠ .php ∧ opcode ≠ .jsr ∧ opcode ≠ .brk := by
    refine ⟨?_, ?_, ?_, ?_⟩ <;> rintro rfl <;> cases hwrites
  obtain ⟨hpha, hphp, hjsr, hbrk⟩ := hpushes
  rw [← hq]
  cases t with
  | address a => exact ⟨[(a, value)], by simp [stored, hwrites], rfl⟩
  | none | accumulator | value byte => exact ⟨[], by simp [stored], rfl⟩

/-- **An instruction changes memory by its stores.** -/
theorem writes_execute (m : Machine) (opcode : Opcode) (t : EffectiveOperand) :
    ∃ stores, stores.map Prod.fst = stored m opcode t ∧
      (m.execute opcode t).bus = writes m.bus stores := by
  cases opcode <;> simp only [Machine.execute, bus_mapRegs]
  case pha => exact ⟨[(_, m.regs.a)], rfl, rfl⟩
  case php => exact ⟨[(_, m.regs.pushedStatus)], rfl, rfl⟩
  case jsr => exact ⟨[(_, highByte (m.regs.pc - 1)), (_, lowByte (m.regs.pc - 1))], rfl, rfl⟩
  case brk =>
    exact ⟨[(_, highByte (m.regs.pc + 1)), (_, lowByte (m.regs.pc + 1)), (_, m.regs.pushedStatus)],
      rfl, rfl⟩
  case sta | stx | sty | inc | dec | asl | lsr | rol | ror =>
    refine writes_writeOperand m ?_ ?_ t _ <;> rfl
  case bcc | bcs | beq | bne | bmi | bpl | bvc | bvs =>
    refine ⟨[], (stored_eq_nil m t rfl (by decide)).symm, ?_⟩
    unfold Machine.branchIf
    split <;> rfl
  all_goals exact ⟨[], (stored_eq_nil m t rfl (by decide)).symm, rfl⟩

/-- **When an instruction selects a bank**: when it stores to the register. -/
theorem switches_iff {m : Machine} (h : m.bus.inWindow m.bus.bankSelect = false) (opcode : Opcode)
    (t : EffectiveOperand) : (m.execute opcode t).bus.switches ≠ m.bus.switches ↔
      m.bus.bankSelect ∈ stored m opcode t := by
  obtain ⟨stores, haddresses, hbus⟩ := writes_execute m opcode t
  rw [hbus, switches_writes stores h, ← haddresses, ne_eq, List.append_left_eq_self,
    List.reverse_eq_nil_iff, List.map_eq_nil_iff, List.filter_eq_nil_iff]
  simp

/-! ### Forms of stores -/

/-- The operands through which emitted code stores, and those that are no memory. -/
def isReached : Operand → Bool
  | .absoluteX (.absolute _) => true
  | .absoluteX _ | .absoluteY _ => false
  | _ => true

/-- Whether a line stores in a way of emitted code, if at all. -/
def isFormed : Line → Bool
  | .op opcode operand => opcode != .brk && (!opcode.writesMemory || isReached operand)
  | _ => true

/-- Code whose lines are all of these forms. -/
def Formed (code : List Line) : Prop := ∀ line ∈ code, isFormed line = true

variable {code : List Line} {line : Line}

theorem formed_of_all (h : code.all isFormed = true) : Formed code := List.all_eq_true.mp h

/-- Every form of selected line. -/
theorem formed_of_worded {may : UInt8 → Prop} (h : Worded may line) : isFormed line = true := by
  have hstore : ∀ {opcode : Opcode} {operand : Operand}, opcode ≠ .brk → Cell may operand →
      isFormed (.op opcode operand) = true := by
    intro opcode operand hbrk hcell
    have hreached : isReached operand = true := by
      cases operand <;> first | rfl | exact hcell.byte.elim
    simp [isFormed, hbrk, hreached]
  cases h with
  | @bare opcode hop | @index opcode value hop | @branch opcode target hop =>
    cases opcode <;> cases hop <;> rfl
  | @read opcode operand hop hbyte => cases opcode <;> cases hop <;> rfl
  | @readBehind opcode pointer hop => cases opcode <;> cases hop <;> rfl
  | store hcell => exact hstore nofun hcell
  | @change opcode operand hop hcell => exact hstore (fun heq => by rw [heq] at hop; cases hop) hcell
  | storeBehind | storeX | jump | call | label => rfl

/-- Every line of allocated code. -/
theorem formed_stems {may : UInt8 → Prop} {locations : Locations}
    (hworded : ∀ line ∈ code, Worded may line) (h : Stems code locations line) :
    isFormed line = true := by
  have hbrk : ∀ {opcode : Opcode} {operand : Operand}, .op opcode operand ∈ code → opcode ≠ .brk := by
    intro opcode operand hmem heq
    have hformed := formed_of_worded (hworded _ hmem)
    rw [heq] at hformed
    cases hformed
  cases h with
  | kept hmem hplain => exact formed_of_worded (hworded _ hmem)
  | cell hmem hlocation => simp [isFormed, isReached, hbrk hmem]
  | indexed address hmem hpre => simp [isFormed, isReached, hbrk hmem]
  | @helper opcode hop => cases opcode <;> cases hop <;> rfl

/-- Every line of an entry or exit sequence. -/
theorem formed_of_framing (h : Framing line) : isFormed line = true := by
  cases h with
  | @bare opcode hop => cases opcode <;> cases hop <;> rfl
  | loadSlot r name k | storeSlot r name k => cases r <;> rfl
  | label | reserve | release | loadCell | storeCell | storeFrame => rfl

theorem formed_routine (r : Routine) (z : ZeroPage) (bankSelect : UInt16) :
    Formed (r.code z bankSelect) := by
  cases r <;> exact formed_of_all rfl

/-- **The register is all that a support routine stores to by an address.** -/
theorem select_of_routine {r : Routine} {z : ZeroPage} {bankSelect : UInt16} {opcode : Opcode}
    {address : Address} (h : .op opcode (.absolute address) ∈ r.code z bankSelect) :
    opcode = .sta ∧ address = .absolute bankSelect := by
  cases r <;> simp [Routine.code, Routine.trampolineCode, Routine.trampolineReturnCode,
    Routine.setJmpCode, Routine.longJmpCode, Routine.selectBank, Routine.stackByte, Line.bare,
    Line.branch, Operand.byte, Operand.fixed, Operand.symbolByte] at h
  all_goals exact h

/-! ### Stores of emitted code -/

variable {target : Target} {p : Program} {s : Stages} {name : String} {k : Linkage} {m : Machine}
  {a : UInt16}

/-- The cells that the code of a name takes: those that are allotted to it, and the argument slots
in which its captures and jumps pass their buffer. -/
def Takes (z : ZeroPage) (p : Program) (s : Stages) (name : String) (cell : UInt8) : Prop :=
  Allotted z p s name cell ∨ ∃ f ∈ defined p, f.name = name ∧ ∃ node ∈ f.body,
    ∃ slot ∈ slotsTaken node, cell = z.arg slot

/-- **The stores that code makes by itself**: to a cell that it takes in the zero page (an argument
slot, the scratch pointer, the copy of the bank register, a cell that holds a value), to the stack,
and to a byte of its frame in the stack page. -/
inductive OwnStore (takes : UInt8 → Prop) (m : Machine) : Line → UInt16 → Prop
  | cell {opcode : Opcode} {cell : UInt8} : opcode.writesMemory = true → takes cell →
    OwnStore takes m (.op opcode (.zeroPage cell)) cell.toUInt16
  | push {opcode : Opcode} {operand : Operand} : opcode = .pha ∨ opcode = .php ∨ opcode = .jsr →
    OwnStore takes m (.op opcode operand) (Machine.stackAddress m.regs.sp)
  | link {operand : Operand} :
    OwnStore takes m (.op .jsr operand) (Machine.stackAddress (m.regs.sp - 1))
  | frame {opcode : Opcode} {base : UInt16} : opcode.writesMemory = true →
    (base + m.regs.x.toUInt16).toNat < 0x200 →
    OwnStore takes m (.op opcode (.absoluteX (.absolute base))) (base + m.regs.x.toUInt16)

/-- **What a line of the code of a name stores to**: besides its own stores the select register in a
support routine, and in a function memory that has an address or is behind a pointer. -/
inductive Stores (o : Options) (p : Program) (s : Stages) (name : String) (k : Linkage) (m : Machine) :
    Line → UInt16 → Prop
  | own {line : Line} {a : UInt16} : OwnStore (Takes o.zeroPage p s name) m line a →
    Stores o p s name k m line a
  | select : Stores o p s name k m (.op .sta (.fixed o.map.bankSelect)) o.map.bankSelect
  /-- An access behind X that leaves the stack page. -/
  | astray {opcode : Opcode} {base : UInt16} : opcode.writesMemory = true →
    0x200 ≤ (base + m.regs.x.toUInt16).toNat →
    Stores o p s name k m (.op opcode (.absoluteX (.absolute base))) (base + m.regs.x.toUInt16)
  | named {f : FunctionDef} {opcode : Opcode} {address : Address} : f ∈ defined p → f.name = name →
    opcode.writesMemory = true → Stores o p s name k m (.op opcode (.absolute address)) (k.address address)
  | behind {opcode : Opcode} {cell : UInt8} {a : UInt16} : opcode.writesMemory = true →
    k.effective m (.indirectY cell) = .address a →
    Stores o p s name k m (.op opcode (.indirectY cell)) a

/-- The addresses that a line stores to when it is executed. -/
def storedBy (k : Linkage) (m : Machine) : Line → List UInt16
  | .op opcode operand => stored m opcode (k.effective m operand)
  | _ => []

theorem stackAddress_lt (sp : UInt8) : (Machine.stackAddress sp).toNat < 0x200 := by
  have hbound := sp.toNat_lt
  rw [Processor.Stack.toNat_stackAddress]
  omega

/-- **Its own stores are below `$0200`.** -/
theorem OwnStore.low {takes : UInt8 → Prop} (h : OwnStore takes m line a) : a.toNat < 0x200 := by
  cases h with
  | @cell opcode cell hwrites htakes =>
    have hbound := cell.toNat_lt
    rw [UInt8.toNat_toUInt16]
    omega
  | push hop => exact stackAddress_lt _
  | link => exact stackAddress_lt _
  | frame hwrites hpage => exact hpage

/-- A line that makes a store of its own makes no others. -/
theorem OwnStore.only {a' : UInt16} (h : OwnStore (Takes o.zeroPage p s name) m line a)
    (h' : Stores o p s name k m line a') : OwnStore (Takes o.zeroPage p s name) m line a' := by
  cases h' with
  | own hown => exact hown
  | select => cases h with
    | push hop => rcases hop with hop | hop | hop <;> cases hop
  | named _ _ hwrites => cases h with
    | push hop => rcases hop with rfl | rfl | rfl <;> cases hwrites
    | link => cases hwrites
  | astray hwrites hpage => cases h with
    | push hop => rcases hop with rfl | rfl | rfl <;> cases hwrites
    | link => cases hwrites
    | frame _ hpage' => omega
  | behind hwrites => cases h with
    | push hop => rcases hop with rfl | rfl | rfl <;> cases hwrites
    | link => cases hwrites

theorem stored_address {opcode : Opcode} (hwrites : opcode.writesMemory = true) (a : UInt16) :
    stored m opcode (.address a) = [a] := by
  cases opcode <;> cases hwrites <;> rfl

/-- A store of a list is one that is made. -/
theorem Stores.mem (h : Stores o p s name k m line a) : a ∈ storedBy k m line := by
  have hone : ∀ {opcode : Opcode} {a : UInt16}, opcode.writesMemory = true →
      a ∈ stored m opcode (.address a) := fun hwrites => by
    rw [stored_address hwrites]
    exact List.mem_singleton_self _
  cases h with
  | own hown =>
    cases hown with
    | cell hwrites htakes => exact hone hwrites
    | push hop => rcases hop with rfl | rfl | rfl <;> exact List.mem_cons_self ..
    | link => exact List.mem_cons_of_mem _ (List.mem_singleton_self _)
    | frame hwrites hpage => exact hone hwrites
  | select =>
    have hstores : Opcode.sta.writesMemory = true := rfl
    exact hone hstores
  | astray hwrites hpage => exact hone hwrites
  | named hf hname hwrites => exact hone hwrites
  | @behind opcode cell _ hwrites ha =>
    change _ ∈ stored m opcode (k.effective m (.indirectY cell))
    rw [ha]
    exact hone hwrites

/-- The stores of a line of a known form, in a name's code that takes its cells. -/
theorem stores_of_mem (hformed : isFormed line = true)
    (hcell : ∀ cell, writtenCell? line = some cell → Takes o.zeroPage p s name cell)
    (haddress : ∀ opcode address, line = .op opcode (.absolute address) → opcode.writesMemory = true →
      (opcode = .sta ∧ address = .absolute o.map.bankSelect) ∨ ∃ f ∈ defined p, f.name = name)
    (h : a ∈ storedBy k m line) : Stores o p s name k m line a := by
  cases line with
  | label _ | comment _ => cases h
  | op opcode operand =>
    change a ∈ stored m opcode (k.effective m operand) at h
    by_cases hwrites : opcode.writesMemory = true
    · have heffective : k.effective m operand = .address a := by
        generalize k.effective m operand = t at h
        cases t with
        | address a' =>
          rw [stored_address hwrites, List.mem_singleton] at h
          rw [h]
        | none | accumulator | value => cases opcode <;> cases hwrites <;> cases h
      have hreached : isReached operand = true := by
        simp only [isFormed, hwrites, Bool.and_eq_true, Bool.not_true, Bool.false_or] at hformed
        exact hformed.2
      cases operand with
      | zeroPage cell =>
        cases heffective
        exact .own (.cell hwrites (hcell cell (by simp [writtenCell?, hwrites])))
      | absolute address =>
        cases heffective
        rcases haddress opcode address rfl hwrites with ⟨rfl, rfl⟩ | ⟨f, hf, hname⟩
        · exact .select
        · exact .named hf hname hwrites
      | absoluteX address =>
        cases address with
        | absolute base =>
          cases heffective
          by_cases hpage : (base + m.regs.x.toUInt16).toNat < 0x200
          · exact .own (.frame hwrites hpage)
          · exact .astray hwrites (Nat.not_lt.mp hpage)
        | symbol | label | bankRelative => cases hreached
      | absoluteY => cases hreached
      | indirectY cell => exact .behind hwrites heffective
      | implied | accumulator | immediate | indirect | relative | virtual | frame => cases heffective
    · cases opcode
      case pha | php =>
        rw [show a = Machine.stackAddress m.regs.sp from List.mem_singleton.mp h]
        exact .own (.push (by simp))
      case jsr =>
        rcases List.mem_cons.mp h with rfl | hlink
        · exact .own (.push (by simp))
        · rw [List.mem_singleton.mp hlink]
          exact .own .link
      case brk => cases hformed
      case sta | stx | sty | inc | dec | asl | lsr | rol | ror => exact absurd rfl hwrites
      all_goals
        generalize k.effective m operand = t at h
        cases t <;> cases h

/-- **What an emitted line stores to.** -/
theorem stores_iff (h : Passed target o p s) {emitted : EmittedFunction}
    (hemitted : emitted ∈ s.emission.functions) (hline : line ∈ emitted.code) :
    a ∈ storedBy k m line ↔ Stores o p s emitted.header.name k m line a := by
  refine ⟨fun hmem => ?_, Stores.mem⟩
  cases origin_of_emitted h hemitted with
  | routine r _ hr hcode =>
    rw [hcode] at hline
    refine stores_of_mem (formed_routine r _ _ line hline) (fun cell hcell => .inl ?_) ?_ hmem
    · rw [writesOnly_routine r _ _ line hline cell hcell]
      exact .shadow
    · rintro opcode address rfl hwrites
      exact .inl (select_of_routine hline)
  | function f b code allocated hf hbuilt =>
    obtain ⟨callClobbers, hallocate⟩ := hbuilt.from_
    have hname : b.name = f.name := hbuilt.name
    have hworded : ∀ line ∈ code.code, Worded (fun _ => True) line :=
      worded_of_selected hbuilt.selected hbuilt.bound (bound_of_passed h) (fun _ _ => trivial) trivial
        trivial fun node _ => ⟨fun _ _ => trivial, fun _ _ => trivial⟩
    have hwritten : ∀ cell, writtenCell? line = some cell → Takes o.zeroPage p s b.name cell := by
      intro cell hcell
      rw [hname]
      rcases mem_functionOf.mp hline with hentry | hinside | hexit
      · exact .inl (writesOnly_prologue b _ _ line hentry cell hcell)
      · rcases writesOnly_built h hf hbuilt line hinside cell hcell with hallotted | hslot
        · exact .inl hallotted
        · exact .inr ⟨f, hf, rfl, hslot⟩
      · exact .inl (.saved (writesOnly_epilogue b _ _ line hexit cell hcell))
    have hformed : isFormed line = true := by
      rcases mem_functionOf.mp hline with hentry | hinside | hexit
      · exact formed_of_framing (framing_prologue b _ _ line hentry)
      · exact formed_stems hworded (stems_of_allocate hallocate line hinside)
      · exact formed_of_framing (framing_epilogue b _ _ line hexit)
    exact stores_of_mem hformed hwritten (fun opcode address _ _ => .inr ⟨f, hf, hname.symm⟩) hmem

/-! ### The register -/

/-- A memory with the window and the register of a map. -/
structure Mapped (map : MemoryMap) (b : Bus) : Prop where
  window : b.window = map.bankWindow
  windowSize : b.windowSize = map.bankCapacity
  bankSelect : b.bankSelect = map.bankSelect

/-- **A line selects a bank** when it is executed. -/
def Selects (k : Linkage) (m : Machine) (line : Line) : Prop :=
  (act k m line).bus.switches ≠ m.bus.switches

theorem selects_stored (hwindow : m.bus.inWindow m.bus.bankSelect = false) :
    Selects k m line ↔ m.bus.bankSelect ∈ storedBy k m line := by
  cases line with
  | op opcode operand => exact switches_iff hwindow opcode _
  | label _ | comment _ => simp [Selects, act, storedBy]

theorem outside_window (h : o.validate = .ok ()) (hmapped : Mapped o.map m.bus) :
    m.bus.inWindow m.bus.bankSelect = false := by
  have hfree := (validate_ok_iff.mp h).2.2.2 _ (List.mem_cons_self ..)
  unfold Bus.inWindow
  rw [hmapped.window, hmapped.windowSize, hmapped.bankSelect]
  exact hfree

/-- **Which stores select a bank.**  Accepted options keep the register out of the three regions,
and nothing else is asked of it: any address below `$0200` is accepted.  Of all lines of a program
exactly those select a bank that store to the register, so a line does by one of its own stores if
the register is there, and never if the register lies behind the stack page. -/
theorem selects_iff (h : o.validate = .ok ()) :
    Free o.map o.map.bankSelect ∧
      (∀ address, (selecting o address).validate = .ok () ↔ Free o.map address) ∧
      (∀ address : UInt16, address.toNat < 0x200 → (selecting o address).validate = .ok ()) ∧
      ∀ target p s, stages target o p = .ok s → ∀ emitted ∈ s.emission.functions,
        ∀ line ∈ emitted.code, ∀ (k : Linkage) (m : Machine), Mapped o.map m.bus →
          (Selects k m line ↔ Stores o p s emitted.header.name k m line o.map.bankSelect) ∧
          (0x200 ≤ o.map.bankSelect.toNat → ∀ a,
            OwnStore (Takes o.zeroPage p s emitted.header.name) m line a → ¬Selects k m line) := by
  refine ⟨(validate_ok_iff.mp h).2.2.2, validate_selecting h,
    fun address hlow => (validate_selecting h address).mpr (free_low h hlow), ?_⟩
  intro target p s hstages emitted hemitted line hline k m hmapped
  have hselects : Selects k m line ↔
      Stores o p s emitted.header.name k m line o.map.bankSelect := by
    rw [selects_stored (outside_window h hmapped), hmapped.bankSelect]
    exact stores_iff (passed hstages) hemitted hline
  refine ⟨hselects, fun hbehind a hown hselected => ?_⟩
  have hlow := (hown.only (hselects.mp hselected)).low
  omega

/-! ### A register that is an argument slot -/

/-- Options with the register at the first argument slot. -/
def slotOptions : Options := selecting {} 0x80

/-- A function that passes a byte. -/
def passingFunction : FunctionDef where
  signature := { name := "f", params := [], returnType := .void }
  body := [.call none "g" [⟨.constant 5, .u8⟩] .void none, .ret none]

/-- A function that takes a byte. -/
def takingFunction : FunctionDef where
  signature := { name := "g", params := [.u8], returnType := .void }
  params := [⟨0⟩]
  body := [.ret none]

/-- The program of the two. -/
def passingProgram : Program := { name := "m", functions := [passingFunction, takingFunction] }

/-- **Passing the byte selects a bank**: the options are accepted, and the argument is stored to the
register. -/
theorem argument_selects : slotOptions.validate = .ok () ∧
    ∃ s, stages .image slotOptions passingProgram = .ok s ∧ ∃ emitted ∈ s.emission.functions,
      ∃ line ∈ emitted.code, ∀ (k : Linkage) (m : Machine), Mapped slotOptions.map m.bus →
        OwnStore (Takes slotOptions.zeroPage passingProgram s emitted.header.name) m line 0x80 ∧
          Selects k m line := by
  have hvalid : slotOptions.validate = .ok () := by decide
  have hany : (stages .image slotOptions passingProgram).toOption.any (fun s =>
      s.emission.functions.any fun emitted =>
        emitted.code.contains (.op .sta (.zeroPage 0x80))) = true := by
    decide +kernel
  obtain ⟨s, hs, hstored⟩ := ok_of_any hany
  obtain ⟨emitted, hemitted, hline⟩ := List.any_eq_true.mp hstored
  rw [List.contains_iff_mem] at hline
  refine ⟨hvalid, s, hs, emitted, hemitted, _, hline, fun k m hmapped => ?_⟩
  have hslot : (0x80 : UInt8) ∈ slotOptions.zeroPage.argCells := by decide
  have hown : OwnStore (Takes slotOptions.zeroPage passingProgram s emitted.header.name) m
      (.op .sta (.zeroPage 0x80)) 0x80 := .cell rfl (.inl (.slot hslot))
  obtain ⟨-, -, -, hselects⟩ := selects_iff hvalid
  exact ⟨hown, (hselects _ _ _ hs emitted hemitted _ hline k m hmapped).1.mpr (.own hown)⟩

end Codegen6502.Proofs.Emitting.BankRegister
