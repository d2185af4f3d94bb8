import Codegen6502.Proofs.Processor.Straight
import Mathlib.Data.List.Nodup

/-!
# Code in memory

The machine fetches opcode and operand bytes from memory; lines are what they were encoded from.
`Lies` says that lines stand encoded in memory from an address on, each label at the address of its
name.

* `decode_encode`: an opcode byte is decoded to the mnemonic and the mode that it was encoded from;
* `step_line`, `step_branch`: one instruction of the machine is one line;
* `after_lines`: instructions that control passes through one after the other do what their lines do
  (`acts`), as long as they do not overwrite the code itself (`Spares`).
-/

namespace Codegen6502.Proofs.Processor.Fetching

open Memory LineRun

variable {k : Linkage} {m m' : Machine} {op : Opcode} {operand : Operand} {pc : UInt16}

/-! ### Words -/

theorem toNat_word (lo hi : UInt8) : (word lo hi).toNat = hi.toNat * 256 + lo.toNat := by
  have hlo := lo.toNat_lt
  have hhi := hi.toNat_lt
  unfold word
  rw [UInt16.toNat_or, UInt16.toNat_shiftLeft, UInt8.toNat_toUInt16, UInt8.toNat_toUInt16]
  have hshift : hi.toNat <<< (UInt16.toNat 8 % 16) % 2 ^ 16 = hi.toNat <<< 8 := by
    rw [show UInt16.toNat 8 % 16 = 8 from rfl, Nat.shiftLeft_eq]
    omega
  rw [hshift, ← Nat.shiftLeft_add_eq_or_of_lt hlo, Nat.shiftLeft_eq]

theorem toNat_lowByte (w : UInt16) : (lowByte w).toNat = w.toNat % 256 := UInt16.toNat_toUInt8 w

theorem toNat_highByte (w : UInt16) : (highByte w).toNat = w.toNat / 256 := by
  have hw := w.toNat_lt
  unfold highByte
  rw [UInt16.toNat_toUInt8, UInt16.toNat_shiftRight, show UInt16.toNat 8 % 16 = 8 from rfl,
    Nat.shiftRight_eq_div_pow]
  omega

theorem word_bytes (w : UInt16) : word (lowByte w) (highByte w) = w := by
  have hw := w.toNat_lt
  refine UInt16.toNat_inj.mp ?_
  rw [toNat_word, toNat_lowByte, toNat_highByte]
  omega

/-! ### The encoding table -/

/-- Every encoding with its opcode byte. -/
def encodings : List (UInt8 × Opcode × Mode) :=
  Opcode.all.flatMap fun op => Mode.all.filterMap fun mode =>
    (op.encode mode).map fun byte => (byte, op, mode)

theorem mem_opcodes (op : Opcode) : op ∈ Opcode.all := by cases op <;> decide

theorem mem_modes (mode : Mode) : mode ∈ Mode.all := by cases mode <;> decide

theorem mem_encodings {mode : Mode} {byte : UInt8} (h : op.encode mode = some byte) :
    (byte, op, mode) ∈ encodings := by
  refine List.mem_flatMap.mpr ⟨op, mem_opcodes op, List.mem_filterMap.mpr ⟨mode, mem_modes mode, ?_⟩⟩
  rw [h]
  rfl

theorem nodup_encodings : (encodings.map fun e => e.1.toNat).Nodup := by decide +kernel

/-- An opcode byte belongs to one mnemonic in one mode. -/
theorem encode_inj {op op' : Opcode} {mode mode' : Mode} {byte : UInt8}
    (h : op.encode mode = some byte) (h' : op'.encode mode' = some byte) :
    op = op' ∧ mode = mode' := by
  have heq : (byte, op, mode) = (byte, op', mode') :=
    List.inj_on_of_nodup_map nodup_encodings (mem_encodings h) (mem_encodings h') rfl
  cases heq
  exact ⟨rfl, rfl⟩

/-- **Decoding inverts encoding.** -/
theorem decode_encode {mode : Mode} {byte : UInt8} (h : op.encode mode = some byte) :
    decode? byte = some (op, mode) := by
  cases hfound : decode? byte with
  | none =>
    have hnone := List.findSome?_eq_none_iff.mp hfound op (mem_opcodes op)
    rw [Option.map_eq_none_iff, List.find?_eq_none] at hnone
    exact absurd h (by simpa using hnone mode (mem_modes mode))
  | some found =>
    obtain ⟨op', -, hop'⟩ := List.exists_of_findSome?_eq_some hfound
    obtain ⟨mode', hmode', rfl⟩ := Option.map_eq_some_iff.mp hop'
    have hencode : op'.encode mode' = some byte := by simpa using List.find?_some hmode'
    obtain ⟨rfl, rfl⟩ := encode_inj h hencode
    rfl

theorem decodeTable_get {mode : Mode} {byte : UInt8} (h : op.encode mode = some byte) :
    decodeTable.get byte.toFin = some (op, mode) := by
  have hbyte : UInt8.ofNat byte.toFin.val = byte := UInt8.ofNat_toNat
  rw [decodeTable, get_ofFn, hbyte, decode_encode h]

/-! ### Lines in memory -/

/-- The operand bytes of an instruction at `pc`.  A branch has the distance from its end. -/
def operandBytes (k : Linkage) (pc : UInt16) : Operand → List UInt8
  | .immediate i => [k.byte i]
  | .zeroPage cell | .indirectY cell => [cell]
  | .absolute a | .absoluteX a | .absoluteY a | .indirect a => wordBytes (k.address a)
  | .relative target => [lowByte (k.symbol target - (pc + 2))]
  | _ => []

/-- Bytes stand in a memory from an address on, inside an area. -/
def Stands (area : UInt16 → Prop) (mem : UInt16 → UInt8) : UInt16 → List UInt8 → Prop
  | _, [] => True
  | a, byte :: rest => area a ∧ mem a = byte ∧ Stands area mem (a + 1) rest

/-- Lines stand in a memory from an address on, inside an area. -/
def Lies (k : Linkage) (area : UInt16 → Prop) (mem : UInt16 → UInt8) : UInt16 → List Line → Prop
  | _, [] => True
  | pc, .op op operand :: rest =>
    op.encode operand.mode = some (mem pc) ∧ operand.isPreAllocation = false ∧ area pc ∧
      Stands area mem (pc + 1) (operandBytes k pc operand) ∧
      Lies k area mem (pc + operand.mode.length) rest
  | pc, .label name :: rest => k.symbol name = pc ∧ Lies k area mem pc rest
  | pc, .comment _ :: rest => Lies k area mem pc rest

/-- Anywhere in memory. -/
def anywhere (_ : UInt16) : Prop := True

instance : DecidablePred anywhere := fun _ => .isTrue trivial

section Lying

instance decidableStands {area : UInt16 → Prop} [DecidablePred area] (mem : UInt16 → UInt8) :
    ∀ (a : UInt16) (bytes : List UInt8), Decidable (Stands area mem a bytes)
  | _, [] => .isTrue trivial
  | a, byte :: rest =>
    have : Decidable (Stands area mem (a + 1) rest) := decidableStands mem (a + 1) rest
    inferInstanceAs (Decidable (area a ∧ mem a = byte ∧ Stands area mem (a + 1) rest))

instance decidableLies {area : UInt16 → Prop} [DecidablePred area] (k : Linkage)
    (mem : UInt16 → UInt8) :
    ∀ (pc : UInt16) (lines : List Line), Decidable (Lies k area mem pc lines)
  | _, [] => .isTrue trivial
  | pc, .op op operand :: rest =>
    have : Decidable (Lies k area mem (pc + operand.mode.length) rest) := decidableLies k mem _ rest
    inferInstanceAs (Decidable (op.encode operand.mode = some (mem pc) ∧
      operand.isPreAllocation = false ∧ area pc ∧
      Stands area mem (pc + 1) (operandBytes k pc operand) ∧
      Lies k area mem (pc + operand.mode.length) rest))
  | pc, .label name :: rest =>
    have : Decidable (Lies k area mem pc rest) := decidableLies k mem pc rest
    inferInstanceAs (Decidable (k.symbol name = pc ∧ Lies k area mem pc rest))
  | pc, .comment _ :: rest => decidableLies k mem pc rest

variable {area area' : UInt16 → Prop} {mem mem' : UInt16 → UInt8}

theorem Stands.congr (h : ∀ a, area a → area' a ∧ mem' a = mem a) {bytes : List UInt8} :
    ∀ {a : UInt16}, Stands area mem a bytes → Stands area' mem' a bytes := by
  induction bytes with
  | nil => exact fun _ => trivial
  | cons byte rest ih => exact fun hb => ⟨(h _ hb.1).1, (h _ hb.1).2.trans hb.2.1, ih hb.2.2⟩

/-- Code does not notice what changes outside its area. -/
theorem Lies.congr (h : ∀ a, area a → area' a ∧ mem' a = mem a) {lines : List Line} :
    ∀ {pc : UInt16}, Lies k area mem pc lines → Lies k area' mem' pc lines := by
  induction lines with
  | nil => exact fun _ => trivial
  | cons line rest ih =>
    intro pc hl
    cases line with
    | op op operand =>
      obtain ⟨hencode, hplaced, harea, hbytes, hrest⟩ := hl
      exact ⟨hencode.trans (congrArg some (h pc harea).2.symm), hplaced, (h pc harea).1,
        hbytes.congr h, ih hrest⟩
    | label name => exact ⟨hl.1, ih hl.2⟩
    | comment text => exact ih hl

end Lying

/-! ### One instruction -/

/-- The machine somewhere else in the code. -/
def moved (m : Machine) (pc : UInt16) (steps : ℕ) : Machine :=
  { m with regs := { m.regs with pc }, steps }

/-- The machine behind an instruction that it has fetched. -/
def past (m : Machine) (length : UInt16) : Machine := moved m (m.regs.pc + length) (m.steps + 1)

/-- **One line** is one instruction of the machine. -/
theorem step_line {area : UInt16 → Prop} {rest : List Line}
    (h : Lies k area m.bus.read m.regs.pc (.op op operand :: rest))
    (hrelative : operand.mode ≠ .relative) (hindirect : operand.mode ≠ .indirect) :
    m.step = (none, (past m operand.mode.length).execute op (k.effective m operand)) := by
  obtain ⟨hencode, hplaced, -, hbytes, -⟩ := h
  have hdecode := decodeTable_get hencode
  unfold Machine.step
  simp only [Machine.fetch, hdecode]
  cases operand with
  | virtual v => cases hplaced
  | frame o => cases hplaced
  | relative target => exact absurd rfl hrelative
  | indirect a => exact absurd rfl hindirect
  | implied => rfl
  | accumulator => rfl
  | immediate i =>
    have hbyte := hbytes.2.1
    simp only [Operand.mode, Machine.operand, Machine.fetch, hbyte, UInt16.add_assoc]
    rfl
  | zeroPage cell =>
    have hbyte := hbytes.2.1
    simp only [Operand.mode, Machine.operand, Machine.fetch, hbyte, UInt16.add_assoc]
    rfl
  | indirectY cell =>
    have hbyte := hbytes.2.1
    simp only [Operand.mode, Machine.operand, Machine.fetch, hbyte, UInt16.add_assoc]
    rfl
  | absolute a | absoluteX a | absoluteY a =>
    have hlo := hbytes.2.1
    have hhi := hbytes.2.2.2.1
    rw [UInt16.add_assoc] at hhi
    simp only [Operand.mode, Machine.operand, Machine.fetchWord, Machine.fetch, hlo, hhi,
      word_bytes, UInt16.add_assoc]
    rfl

/-! ### Branches -/

/-- Whether a branch at an address reaches another: the distance from its end is a signed byte. -/
def InReach (pc target : UInt16) : Prop :=
  Machine.signExtend (lowByte (target - (pc + 2))) = target - (pc + 2)

instance (pc target : UInt16) : Decidable (InReach pc target) := by
  unfold InReach
  infer_instance

theorem execute_branch (hop : op.isBranch = true) (m : Machine) (t : EffectiveOperand) :
    m.execute op t = m.branchIf (isTaken op m.regs) t := by
  cases op <;> first | (cases hop; done) | rfl

/-- **One branch** is one instruction of the machine. -/
theorem step_branch {area : UInt16 → Prop} {target : String} {rest : List Line}
    (h : Lies k area m.bus.read m.regs.pc (.branch op target :: rest)) (hop : op.isBranch = true)
    (hreach : InReach m.regs.pc (k.symbol target)) :
    m.step = (none, (past m 2).branchIf (isTaken op m.regs) (.address (k.symbol target))) := by
  obtain ⟨hencode, -, -, hbytes, -⟩ := h
  have hdecode := decodeTable_get hencode
  have hbyte := hbytes.2.1
  have htwo : m.regs.pc + 1 + 1 = m.regs.pc + 2 := UInt16.add_assoc ..
  have htarget : m.regs.pc + 2 + Machine.signExtend (lowByte (k.symbol target - (m.regs.pc + 2))) =
      k.symbol target := by
    rw [hreach, UInt16.add_comm, UInt16.sub_add_cancel]
  unfold Machine.step
  simp only [Machine.fetch, hdecode, Operand.mode, Machine.operand, hbyte, htwo, htarget,
    execute_branch hop]
  rfl

/-! ### Instructions in a row -/

/-- What a line does to the machine, apart from moving on. -/
def act (k : Linkage) (m : Machine) : Line → Machine
  | .op op operand => m.execute op (k.effective m operand)
  | _ => m

def acts (k : Linkage) (lines : List Line) (m : Machine) : Machine := lines.foldl (act k) m

@[simp] theorem acts_nil : acts k [] m = m := rfl

@[simp] theorem acts_cons (line : Line) (lines : List Line) :
    acts k (line :: lines) m = acts k lines (act k m line) := rfl

@[simp] theorem acts_append (front back : List Line) :
    acts k (front ++ back) m = acts k back (acts k front m) := List.foldl_append ..

/-- Whether control passes through a line that is an instruction. -/
def isPassed : Line → Bool
  | .op op _ => isData op
  | _ => false

@[simp] theorem regs_moved (m : Machine) (pc : UInt16) (n : ℕ) :
    (moved m pc n).regs = { m.regs with pc } := rfl

@[simp] theorem bus_moved (m : Machine) (pc : UInt16) (n : ℕ) : (moved m pc n).bus = m.bus := rfl

@[simp] theorem steps_moved (m : Machine) (pc : UInt16) (n : ℕ) : (moved m pc n).steps = n := rfl

@[simp] theorem moved_moved (m : Machine) (pc pc' : UInt16) (n n' : ℕ) :
    moved (moved m pc n) pc' n' = moved m pc' n' := rfl

theorem effective_moved (m : Machine) (pc : UInt16) (n : ℕ) (operand : Operand) :
    k.effective (moved m pc n) operand = k.effective m operand := by
  cases operand <;> rfl

/-- An instruction that control passes through does not look at where it stands. -/
theorem execute_moved (hop : isData op = true) (m : Machine) (pc : UInt16) (n : ℕ)
    (t : EffectiveOperand) : (moved m pc n).execute op t = moved (m.execute op t) pc n := by
  cases op <;> first | (cases hop; done) | rfl | (cases t <;> rfl)

theorem act_moved {line : Line} (hline : isPassed line = true) (m : Machine) (pc : UInt16) (n : ℕ) :
    act k (moved m pc n) line = moved (act k m line) pc n := by
  cases line with
  | op op operand =>
    change (moved m pc n).execute op (k.effective (moved m pc n) operand) = _
    rw [effective_moved, execute_moved hline]
    rfl
  | label name => cases hline
  | comment text => cases hline

/-- **What an instruction writes to memory**: nothing, a byte on the stack, or a byte at the address
of its operand. -/
theorem bus_execute (hop : isData op = true) (m : Machine) (t : EffectiveOperand) :
    (m.execute op t).bus = m.bus ∨
    (∃ value, (m.execute op t).bus = m.bus.write (Machine.stackAddress m.regs.sp) value) ∨
    ∃ a value, t = .address a ∧ op.writesMemory = true ∧
      (m.execute op t).bus = m.bus.write a value := by
  cases op <;> simp only [Machine.execute, bus_mapRegs, true_or]
  case pha | php => exact Or.inr (Or.inl ⟨_, rfl⟩)
  case pla | plp => exact Or.inl rfl
  case sta | stx | sty | inc | dec | asl | lsr | rol | ror =>
    refine (bus_writeOperand _ t _).imp_right fun hwritten => ?_
    obtain ⟨a, ha, hbus⟩ := hwritten
    exact Or.inr ⟨a, _, ha, rfl, hbus⟩
  all_goals cases hop

/-- Only the instructions that set flags by name or pull them change the interrupt mask. -/
theorem mask_execute (hop : isData op = true) (hcli : op ≠ .cli) (hsei : op ≠ .sei)
    (hplp : op ≠ .plp) (m : Machine) (t : EffectiveOperand) :
    (m.execute op t).regs.flag .i = m.regs.flag .i := by
  cases op
  case cli => exact absurd rfl hcli
  case sei => exact absurd rfl hsei
  case plp => exact absurd rfl hplp
  case pla => exact mask_loadA ..
  case sta | stx | sty => exact flag_writeOperand ..
  case asl | lsr | rol | ror | inc | dec =>
    refine (flag_writeOperand ..).trans ?_
    simp [Machine.mapRegs]
  all_goals first
    | (cases hop; done)
    | rfl
    | simp only [Machine.execute, Machine.mapRegs, Registers.add, Registers.compare, flag_setFlag,
        flag_setNZ, mask_loadA, mask_loadX, mask_loadY, reduceCtorEq, if_false]

/-- The machine after an instruction that is not a fault. -/
def next (m : Machine) : Option Machine := if m.step.1.isNone then some m.step.2 else none

theorem next_eq (h : m.step = (none, m')) : next m = some m' := by
  unfold next
  rw [h]
  rfl

/-- The machine after a number of instructions, if none of them is a fault. -/
def after : ℕ → Machine → Option Machine
  | 0, m => some m
  | n + 1, m => (next m).bind (after n)

theorem after_succ {n : ℕ} (h : m.step = (none, m')) : after (n + 1) m = after n m' := by
  rw [after, next_eq h, Option.bind_some]

theorem after_zero : after 0 m = some m := by rw [after]

theorem after_one (h : m.step = (none, m')) : after 1 m = some m' := by
  rw [after_succ h, after_zero]

theorem after_add {n n' : ℕ} (h : after n m = some m') : after (n + n') m = after n' m' := by
  induction n generalizing m with
  | zero =>
    rw [after_zero] at h
    cases h
    rw [Nat.zero_add]
  | succ n ih =>
    rw [after] at h
    obtain ⟨m₁, hnext, hrest⟩ := Option.bind_eq_some_iff.mp h
    rw [Nat.succ_add, after, hnext, Option.bind_some]
    exact ih hrest

-- A run is taken apart by the lemmas above, never by computing it.
attribute [irreducible] after

/-- Lines that do not change what memory holds in an area. -/
def Spares (k : Linkage) (area : UInt16 → Prop) : List Line → Machine → Prop
  | [], _ => True
  | line :: rest, m =>
    (∀ a, area a → (act k m line).bus.read a = m.bus.read a) ∧ Spares k area rest (act k m line)

theorem Spares.mono {area area' : UInt16 → Prop} (hsub : ∀ a, area' a → area a) {lines : List Line} :
    ∀ {m : Machine}, Spares k area lines m → Spares k area' lines m := by
  induction lines with
  | nil => exact fun _ => trivial
  | cons line rest ih => exact fun h => ⟨fun a ha => h.1 a (hsub a ha), ih h.2⟩

/-- Lines that write nothing. -/
theorem spares_of_bus {area : UInt16 → Prop} {lines : List Line}
    (h : ∀ line ∈ lines, ∀ m : Machine, (act k m line).bus = m.bus) :
    ∀ {m : Machine}, Spares k area lines m := by
  induction lines with
  | nil => exact trivial
  | cons line rest ih =>
    intro m
    refine ⟨fun a _ => ?_, ih fun l hl => h l (List.mem_cons_of_mem _ hl)⟩
    rw [h line (List.mem_cons_self ..)]

theorem spares_moved {area : UInt16 → Prop} {lines : List Line} : ∀ {m : Machine},
    (∀ line ∈ lines, isPassed line = true) → ∀ (pc : UInt16) (n : ℕ),
      (Spares k area lines (moved m pc n) ↔ Spares k area lines m) := by
  induction lines with
  | nil => exact fun _ _ _ => Iff.rfl
  | cons line rest ih =>
    intro m hpassed pc n
    rw [Spares, Spares, act_moved (hpassed line (List.mem_cons_self ..)),
      ih fun l hl => hpassed l (List.mem_cons_of_mem _ hl)]
    rfl

theorem acts_moved {lines : List Line} : ∀ {m : Machine}, (∀ line ∈ lines, isPassed line = true) →
    ∀ (pc : UInt16) (n : ℕ), acts k lines (moved m pc n) = moved (acts k lines m) pc n := by
  induction lines with
  | nil => exact fun _ _ _ => rfl
  | cons line rest ih =>
    intro m hpassed pc n
    rw [acts_cons, acts_cons, act_moved (hpassed line (List.mem_cons_self ..)),
      ih fun l hl => hpassed l (List.mem_cons_of_mem _ hl)]

/-- The size of lines in bytes. -/
def extent (lines : List Line) : UInt16 := lines.foldr (fun line size => line.size + size) 0

theorem isData_mode (hop : isData op = true) {mode : Mode} {byte : UInt8}
    (h : op.encode mode = some byte) : mode ≠ .relative ∧ mode ≠ .indirect := by
  constructor
  · rintro rfl
    cases op <;> first | (cases h; done) | cases hop
  · rintro rfl
    cases op <;> first | (cases h; done) | cases hop

/-- The machine behind lines that control has passed through. -/
def ran (k : Linkage) (lines : List Line) (m : Machine) : Machine :=
  moved (acts k lines m) (m.regs.pc + extent lines) (m.steps + lines.length)

theorem bus_ran (k : Linkage) (lines : List Line) (m : Machine) :
    (ran k lines m).bus = (acts k lines m).bus := rfl

theorem pc_ran (k : Linkage) (lines : List Line) (m : Machine) :
    (ran k lines m).regs.pc = m.regs.pc + extent lines := rfl

theorem regs_ran (k : Linkage) (lines : List Line) (m : Machine) :
    (ran k lines m).regs = { (acts k lines m).regs with pc := m.regs.pc + extent lines } := rfl

/-- **Instructions in a row** do what their lines do. -/
theorem after_lines {area : UInt16 → Prop} {rest : List Line} : ∀ {lines : List Line} {m : Machine},
    Lies k area m.bus.read m.regs.pc (lines ++ rest) → (∀ line ∈ lines, isPassed line = true) →
    Spares k area lines m →
    after lines.length m = some (ran k lines m) ∧
      Lies k area (ran k lines m).bus.read (ran k lines m).regs.pc rest := by
  intro lines
  induction lines with
  | nil =>
    intro m hlies _ _
    have hran : ran k [] m = m := by
      simp only [ran, acts_nil, extent, List.foldr_nil, UInt16.add_zero]
      rfl
    rw [hran]
    exact ⟨after_zero, hlies⟩
  | cons line lines ih =>
    intro m hlies hpassed hspares
    have hline := hpassed line (List.mem_cons_self ..)
    cases line with
    | label name => cases hline
    | comment text => cases hline
    | op op operand =>
      obtain ⟨hrelative, hindirect⟩ := isData_mode hline hlies.1
      have hstep : m.step = (none, moved (act k m (.op op operand)) (m.regs.pc + operand.mode.length)
          (m.steps + 1)) := by
        rw [step_line hlies hrelative hindirect, past, execute_moved hline]
        rfl
      have hrest : Lies k area (act k m (.op op operand)).bus.read (m.regs.pc + operand.mode.length)
          (lines ++ rest) := hlies.2.2.2.2.congr fun a ha => ⟨ha, hspares.1 a ha⟩
      have hpassed' : ∀ l ∈ lines, isPassed l = true := fun l hl =>
        hpassed l (List.mem_cons_of_mem _ hl)
      obtain ⟨hafter, hlies'⟩ := ih (m := moved (act k m (.op op operand))
        (m.regs.pc + operand.mode.length) (m.steps + 1)) hrest hpassed'
        ((spares_moved hpassed' _ _).mpr hspares.2)
      have hsize : m.regs.pc + operand.mode.length + extent lines =
          m.regs.pc + extent (.op op operand :: lines) := UInt16.add_assoc ..
      have hsteps : m.steps + 1 + lines.length = m.steps + (lines.length + 1) := by omega
      have hran : ran k lines (moved (act k m (.op op operand)) (m.regs.pc + operand.mode.length)
          (m.steps + 1)) = ran k (.op op operand :: lines) m := by
        unfold ran
        rw [acts_moved hpassed', regs_moved, steps_moved, moved_moved, hsize, hsteps, acts_cons,
          List.length_cons]
      rw [hran] at hafter hlies'
      rw [List.length_cons, after_succ hstep]
      exact ⟨hafter, hlies'⟩

end Codegen6502.Proofs.Processor.Fetching
