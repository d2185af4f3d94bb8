import Codegen6502.Proofs.Emitting.Loading

/-!
# Decoding what was assembled

The machine decodes an image, once it is loaded, to the lines that the image was assembled from.

* `decoded?`: what the machine decodes at its program counter, which is what it then executes
  (`Decodes.step`);
* `Decodes`, `DecodesLong`: the decoded instruction is a line, or the opposite branch over a jump;
* `image_decodes`: every line is decoded at its address, and the next line of its segment stands
  right behind it.
-/

namespace Codegen6502.Proofs.Emitting.Decoding

open Computations Placing Assembling Loading MachineCode Processor LineRun Fetching

variable {map : MemoryMap} {e : Emission} {l : Layout} {image : Image} {code : List Piece}
  {k : Linkage} {m : Machine} {op : Opcode} {operand : Operand}

/-! ### Decoding -/

/-- What the machine decodes at its program counter: mnemonic, mode, what the instruction works on
and the address behind it. -/
def decoded? (m : Machine) : Option (Opcode × Mode × EffectiveOperand × UInt16) :=
  (decodeTable.get (m.bus.read m.regs.pc).toFin).map fun (op, mode) =>
    let (target, behind) := m.fetch.2.operand mode
    (op, mode, target, behind.regs.pc)

/-- **The machine executes what it decodes.** -/
theorem step_eq (m : Machine) : m.step = match decoded? m with
    | some (op, _, target, pc) => (none, (moved m pc (m.steps + 1)).execute op target)
    | none => (some (.illegalOpcode (m.bus.read m.regs.pc) m.regs.pc),
        moved m (m.regs.pc + 1) m.steps) := by
  unfold Machine.step decoded?
  cases hdecode : decodeTable.get (m.bus.read m.regs.pc).toFin with
  | none =>
    simp only [Machine.fetch, hdecode]
    rfl
  | some found =>
    obtain ⟨op, mode⟩ := found
    simp only [Machine.fetch, hdecode, Option.map_some]
    cases mode <;> rfl

/-- What an instruction works on.  A jump through a pointer reads both bytes from one page. -/
def target (k : Linkage) (m : Machine) : Operand → EffectiveOperand
  | .relative label => .address (k.symbol label)
  | .indirect a =>
    let pointer := k.address a
    .address (word (m.bus.read pointer)
      (m.bus.read ((pointer &&& 0xFF00) ||| ((pointer + 1) &&& 0x00FF))))
  | operand => k.effective m operand

/-- The machine decodes an instruction, and no byte more. -/
def Decodes (k : Linkage) (m : Machine) (op : Opcode) (operand : Operand) : Prop :=
  decoded? m = some (op, operand.mode, target k m operand, m.regs.pc + operand.mode.length)

/-- The machine decodes the opposite branch over a jump. -/
def DecodesLong (k : Linkage) (m : Machine) (op : Opcode) (label : String) : Prop :=
  ∃ inverted, op.inverted? = some inverted ∧
    decoded? m = some (inverted, .relative, .address (m.regs.pc + 5), m.regs.pc + 2) ∧
    Decodes k (moved m (m.regs.pc + 2) m.steps) .jmp (.absolute (.label label))

/-- What is decoded is what is executed, and the program counter stands behind it. -/
theorem Decodes.step (h : Decodes k m op operand) :
    m.step = (none, (moved m (m.regs.pc + operand.mode.length) (m.steps + 1)).execute op
      (target k m operand)) := by
  rw [step_eq, show decoded? m = _ from h]

theorem decoded?_relative {byte distance : UInt8} (hencode : op.encode .relative = some byte)
    (h : Stands anywhere m.bus.read m.regs.pc [byte, distance]) :
    decoded? m = some (op, .relative,
      .address (m.regs.pc + 2 + Machine.signExtend distance), m.regs.pc + 2) := by
  obtain ⟨-, rfl, -, hdistance, -⟩ := h
  have htwo : m.regs.pc + 1 + 1 = m.regs.pc + 2 := UInt16.add_assoc ..
  unfold decoded?
  simp only [decodeTable_get hencode, Option.map_some, Machine.fetch, Machine.operand, hdistance, htwo]

/-- **An instruction is decoded** from its opcode byte and its operand bytes. -/
theorem decodes_of_stands {byte : UInt8} (hencode : op.encode operand.mode = some byte)
    (hplaced : operand.isPreAllocation = false) (hrelative : operand.mode ≠ .relative)
    (h : Stands anywhere m.bus.read m.regs.pc (byte :: Fetching.operandBytes k m.regs.pc operand)) :
    Decodes k m op operand := by
  obtain ⟨-, rfl, hbytes⟩ := h
  have hdecode := decodeTable_get hencode
  unfold Decodes decoded?
  simp only [hdecode, Option.map_some, Machine.fetch]
  cases operand with
  | virtual v => cases hplaced
  | frame o => cases hplaced
  | relative label => exact absurd rfl hrelative
  | implied => rfl
  | accumulator => rfl
  | immediate i | zeroPage cell | indirectY cell =>
    have hbyte := hbytes.2.1
    simp only [Operand.mode, Machine.operand, Machine.fetch, hbyte, UInt16.add_assoc]
    rfl
  | absolute a | absoluteX a | absoluteY a | indirect a =>
    have hlo := hbytes.2.1
    have hhi := hbytes.2.2.2.1
    rw [UInt16.add_assoc] at hhi
    simp only [Operand.mode, Machine.operand, Machine.fetchWord, Machine.fetch, hlo, hhi, word_bytes,
      UInt16.add_assoc]
    rfl

/-! ### The distance of a branch -/

theorem signExtend_lowByte {w : UInt16} (h : w.toNat < 0x80 ∨ 0xFF80 ≤ w.toNat) :
    Machine.signExtend (lowByte w) = w := by
  have hw := w.toNat_lt
  have hlow := toNat_lowByte w
  unfold Machine.signExtend
  apply UInt16.toNat_inj.mp
  rcases h with hnear | hback
  · have hsmall : lowByte w < 0x80 := by
      rw [UInt8.lt_iff_toNat_lt, hlow]
      change _ < 128
      omega
    rw [if_pos hsmall, UInt8.toNat_toUInt16, hlow]
    omega
  · have hlarge : ¬ lowByte w < 0x80 := by
      rw [UInt8.lt_iff_toNat_lt, hlow]
      change ¬ _ < 128
      omega
    rw [if_neg hlarge]
    change (word (lowByte w) 0xFF).toNat = _
    rw [toNat_word, hlow]
    change 255 * 256 + _ = _
    omega

/-- A branch that reaches its target does so at the addresses, too. -/
theorem inReach_of_reaches {offset : ℕ} {there : UInt16} (origin : UInt16) (hoffset : offset < 0x10000)
    (h : Relaxation.reaches offset there = true) :
    InReach (origin + UInt16.ofNat offset) (origin + there) := by
  have hthere := there.toNat_lt
  have horigin := origin.toNat_lt
  have hoff : (UInt16.ofNat offset).toNat = offset := UInt16.toNat_ofNat_of_lt' hoffset
  unfold Relaxation.reaches at h
  simp only [ge_iff_le, Bool.and_eq_true, decide_eq_true_eq] at h
  refine signExtend_lowByte ?_
  have htwo : UInt16.toNat 2 = 2 := rfl
  rw [UInt16.toNat_sub, UInt16.toNat_add, UInt16.toNat_add, UInt16.toNat_add, hoff, htwo]
  omega

/-! ### Lines -/

/-- Names stand for what they stand for in an image. -/
structure Agrees (image : Image) (k : Linkage) : Prop where
  window : k.window = image.bankWindow
  symbol : ∀ name a, image.address? name = some a → k.symbol name = a

/-- The address of a placed line. -/
def address (map : MemoryMap) (p : PlacedLine) : UInt16 :=
  map.origin p.segment + UInt16.ofNat p.offset

/-- What the machine makes of a placed line at its program counter. -/
structure Understands (map : MemoryMap) (t : SymbolTable) (k : Linkage) (m : Machine) (p : PlacedLine) :
    Prop where
  bytes : ∃ bytes, lineBytes map t p = .ok bytes ∧ bytes.length = p.size ∧
    Stands anywhere m.bus.read m.regs.pc bytes
  short : ∀ op operand, p.line = .op op operand → p.isLong = false →
    p.size = operand.mode.length.toNat ∧ Decodes k m op operand
  /-- The machine executes what it decodes. -/
  step : ∀ op operand, p.line = .op op operand → p.isLong = false →
    m.step = (none, (moved m (m.regs.pc + operand.mode.length) (m.steps + 1)).execute op
      (target k m operand))
  long : p.isLong = true → ∃ op label, p.line = .branch op label ∧ p.size = longBranchSize ∧
    DecodesLong k m op label

theorem encode_of_opcodeByte {mode : Mode} {byte : UInt8} (h : opcodeByte op mode = .ok byte) :
    op.encode mode = some byte := by
  unfold opcodeByte at h
  cases hencode : op.encode mode with
  | none => rw [hencode] at h; cases h
  | some found => rw [hencode] at h; cases h; rfl

/-- Only branches have a distance. -/
theorem isBranch_of_encode {byte : UInt8} (h : op.encode .relative = some byte) : op.isBranch = true := by
  cases op <;> first | rfl | cases h

theorem exists_branch {line : Line} (h : Relaxation.isBranch line = true) :
    ∃ op label, line = .branch op label := by
  unfold Relaxation.isBranch at h
  split at h
  · exact ⟨_, _, rfl⟩
  · cases h

section Lines

variable (h : Assembly map e image l code) (hk : Agrees image k)

include h hk

theorem symbol_eq {name : String} {value : UInt16} (hvalue : symbolAddress map l.table name = .ok value) :
    k.symbol name = value ∧ ∃ d, l.table.get? name = some d ∧ value = map.address d := by
  unfold symbolAddress at hvalue
  cases hget : l.table.get? name with
  | none => rw [hget] at hvalue; cases hvalue
  | some d =>
    rw [hget] at hvalue
    cases hvalue
    exact ⟨hk.symbol name _ (address?_image h hget), d, rfl, rfl⟩

/-- An address is encoded as what it stands for. -/
theorem address_eq {a : Address} {value : UInt16} (hvalue : resolve map l.table a = .ok value) :
    k.address a = value := by
  cases a with
  | absolute fixed => cases hvalue; rfl
  | symbol name addend =>
    obtain ⟨base, hbase, hvalue⟩ := bind_eq_ok.mp hvalue
    cases hvalue
    change k.symbol name + _ = _
    rw [(symbol_eq h hk hbase).1]
  | label name => exact (symbol_eq h hk hvalue).1
  | bankRelative bank offset =>
    cases hvalue
    change k.window + offset = _
    rw [hk.window, h.image]
    rfl

/-- Operand bytes are what the operand stands for. -/
theorem operandBytes_eq {line : Line} {bytes : List UInt8}
    (hbytes : MachineCode.operandBytes map l.table line operand = .ok bytes) (pc : UInt16) :
    bytes = Fetching.operandBytes k pc operand ∧ operand.isPreAllocation = false ∧
      operand.mode ≠ .relative := by
  cases operand with
  | implied | accumulator | zeroPage cell | indirectY cell => cases hbytes; exact ⟨rfl, rfl, nofun⟩
  | absolute a | absoluteX a | absoluteY a | indirect a =>
    obtain ⟨value, hvalue, hbytes⟩ := bind_eq_ok.mp hbytes
    cases hbytes
    refine ⟨?_, rfl, nofun⟩
    rw [← address_eq h hk hvalue]
    rfl
  | immediate i =>
    cases i with
    | byte b => cases hbytes; exact ⟨rfl, rfl, nofun⟩
    | symbol name addend half =>
      obtain ⟨value, hvalue, hbytes⟩ := bind_eq_ok.mp hbytes
      cases hbytes
      refine ⟨?_, rfl, nofun⟩
      rw [← address_eq h hk hvalue]
      cases half <;> rfl
  | relative | virtual | frame => cases hbytes

omit hk in
theorem offset_lt {front back : List PlacedLine} {p : PlacedLine}
    (hsplit : l.lines = front ++ p :: back) : p.offset < 0x10000 := by
  obtain ⟨bytes, before, behind, -, -, hoffset, hwhole⟩ := segmentBytes_split h hsplit
  have hsegment : p.segment = .ofCode p.owner.placement := (h.placed.line front p back hsplit).1
  have hcapacity : ∃ c : UInt16, map.capacity? p.segment = some c.toNat := by
    rw [hsegment]
    cases p.owner.placement with
    | common => exact ⟨map.codeCapacity, rfl⟩
    | paged n => exact ⟨map.bankCapacity, rfl⟩
  obtain ⟨c, hc⟩ := hcapacity
  have hroom := length_segment_le h hc
  have hlt := c.toNat_lt
  rw [hwhole, List.length_append, List.length_append] at hroom
  omega

/-- A short branch reaches its target. -/
theorem inReach_of_short {front back : List PlacedLine} {p : PlacedLine}
    (hsplit : l.lines = front ++ p :: back) {label : String} (hline : p.line = .branch op label)
    (hop : op.isBranch = true) (hshort : p.isLong = false) {value : UInt16}
    (hvalue : symbolAddress map l.table label = .ok value) : InReach (address map p) (k.symbol label) := by
  obtain ⟨hsymbol, d, hget, rfl⟩ := symbol_eq h hk hvalue
  have hreach : ¬ Relaxation.isOutOfReach l.table p = true := by
    intro hout
    rw [h.settled.reaches p (by rw [hsplit]; simp) hout] at hshort
    cases hshort
  unfold Relaxation.isOutOfReach at hreach
  simp only [hline, Line.branch, hop, hget, Bool.true_and, Bool.or_eq_true, decide_eq_true_eq, ne_eq,
    Bool.not_eq_eq_eq_not, Bool.not_true, not_or, not_not, Bool.not_eq_false] at hreach
  rw [hsymbol, MemoryMap.address, hreach.1]
  exact inReach_of_reaches _ (offset_lt h hsplit) hreach.2

/-- The bytes of a line that is not relaxed are decoded to the line. -/
theorem decodes_short {front back : List PlacedLine} {p : PlacedLine}
    (hsplit : l.lines = front ++ p :: back) (hpc : m.regs.pc = address map p) {bytes : List UInt8}
    (hbytes : lineBytes map l.table p = .ok bytes)
    (hstands : Stands anywhere m.bus.read m.regs.pc bytes) (hline : p.line = .op op operand)
    (hshort : p.isLong = false) : Decodes k m op operand := by
  unfold lineBytes at hbytes
  simp only [hline] at hbytes
  split at hbytes
  · rename_i op' label heq
    cases heq
    obtain ⟨value, hvalue, hbytes⟩ := bind_eq_ok.mp hbytes
    rw [hshort, if_neg Bool.false_ne_true] at hbytes
    obtain ⟨byte, hbyte, hbytes⟩ := bind_eq_ok.mp hbytes
    cases hbytes
    have hencode := encode_of_opcodeByte hbyte
    have hreach := inReach_of_short h hk hsplit hline (isBranch_of_encode hencode) hshort hvalue
    have htarget : m.regs.pc + 2 + Machine.signExtend (lowByte (value - (address map p + 2))) =
        k.symbol label := by
      rw [← (symbol_eq h hk hvalue).1, hreach, hpc, UInt16.add_comm, UInt16.sub_add_cancel]
    have hdecoded := decoded?_relative hencode hstands
    rw [← address, htarget] at hdecoded
    exact hdecoded
  · rename_i op' operand' hrelative heq
    cases heq
    obtain ⟨byte, hbyte, hbytes⟩ := bind_eq_ok.mp hbytes
    obtain ⟨rest, hrest, hbytes⟩ := bind_eq_ok.mp hbytes
    cases hbytes
    obtain ⟨rfl, hplaced, hmode⟩ := operandBytes_eq h hk hrest m.regs.pc
    exact decodes_of_stands (encode_of_opcodeByte hbyte) hplaced hmode hstands
  · rename_i hop
    exact absurd rfl (hop op operand)

/-- The bytes of a relaxed branch are decoded to the opposite branch over a jump. -/
theorem decodes_long {front back : List PlacedLine} {p : PlacedLine}
    (hsplit : l.lines = front ++ p :: back) {bytes : List UInt8}
    (hbytes : lineBytes map l.table p = .ok bytes)
    (hstands : Stands anywhere m.bus.read m.regs.pc bytes) (hlong : p.isLong = true) :
    ∃ op label, p.line = .branch op label ∧ p.size = longBranchSize ∧ DecodesLong k m op label := by
  obtain ⟨op, label, hline⟩ := exists_branch (h.settled.branches p (by rw [hsplit]; simp) hlong)
  have hsize : p.size = longBranchSize := if_pos hlong
  refine ⟨op, label, hline, hsize, ?_⟩
  unfold lineBytes at hbytes
  simp only [hline, Line.branch] at hbytes
  obtain ⟨value, hvalue, hbytes⟩ := bind_eq_ok.mp hbytes
  rw [if_pos hlong] at hbytes
  unfold longBranch at hbytes
  cases hinverted : op.inverted? with
  | none => rw [hinverted] at hbytes; cases hbytes
  | some inverted =>
    rw [hinverted] at hbytes
    obtain ⟨byte, hbyte, hbytes⟩ := bind_eq_ok.mp hbytes
    obtain ⟨jump, hjump, hbytes⟩ := bind_eq_ok.mp hbytes
    cases hbytes
    obtain ⟨-, hfirst, -, hthree, hrest⟩ := hstands
    have htwo : m.regs.pc + 1 + 1 = m.regs.pc + 2 := UInt16.add_assoc ..
    have hfive : m.regs.pc + 2 + Machine.signExtend 3 = m.regs.pc + 5 := UInt16.add_assoc ..
    have hover := decoded?_relative (encode_of_opcodeByte hbyte) (m := m)
      ⟨trivial, hfirst, trivial, hthree, trivial⟩
    rw [hfive] at hover
    rw [htwo, ← (symbol_eq h hk hvalue).1] at hrest
    exact ⟨inverted, hinverted, hover, decodes_of_stands (encode_of_opcodeByte hjump) rfl nofun hrest⟩

/-- **The machine understands a line** whose bytes stand at its program counter. -/
theorem understands {front back : List PlacedLine} {p : PlacedLine}
    (hsplit : l.lines = front ++ p :: back) (hpc : m.regs.pc = address map p) {bytes : List UInt8}
    (hbytes : lineBytes map l.table p = .ok bytes) (hlength : bytes.length = p.size)
    (hstands : Stands anywhere m.bus.read m.regs.pc bytes) : Understands map l.table k m p where
  bytes := ⟨bytes, hbytes, hlength, hstands⟩
  short op operand hline hshort := by
    refine ⟨?_, decodes_short h hk hsplit hpc hbytes hstands hline hshort⟩
    unfold UnplacedLine.size
    rw [hshort, if_neg Bool.false_ne_true, hline]
    rfl
  step _ _ hline hshort := (decodes_short h hk hsplit hpc hbytes hstands hline hshort).step
  long := decodes_long h hk hsplit hbytes hstands

omit hk in
/-- A label has the address of its line. -/
theorem address?_label {p : PlacedLine} (hp : p ∈ l.lines) {name : String}
    (hline : p.line = .label name) : image.address? name = some (address map p) := by
  have hentry : (name, _) ∈ entries e l := List.mem_append_left _ (List.mem_append_left _
    (List.mem_filterMap.mpr ⟨p, hp, by rw [lineEntryOf, hline]⟩))
  exact address?_image h ((h.placed.table name _).mpr hentry)

omit hk in
/-- The next line of a segment stands right behind a line. -/
theorem address_next {front mid back : List PlacedLine} {p q : PlacedLine}
    (hsplit : l.lines = front ++ p :: mid ++ q :: back) (hsegment : q.segment = p.segment)
    (hmid : ∀ r ∈ mid, r.segment ≠ p.segment) :
    address map q = address map p + UInt16.ofNat p.size := by
  have hp := (h.placed.line front p (mid ++ q :: back) (by rw [hsplit]; simp)).2
  have hq := (h.placed.line (front ++ p :: mid) q back hsplit).2
  have hskip : lineRoom p.segment mid = 0 := by
    clear hsplit hq
    induction mid with
    | nil => rfl
    | cons r rest ih =>
      have hroom : lineRoom p.segment (r :: rest) =
          (if r.segment = p.segment then r.size else 0) + lineRoom p.segment rest := rfl
      rw [hroom, if_neg (hmid r (List.mem_cons_self ..)),
        ih (fun t ht => hmid t (List.mem_cons_of_mem _ ht))]
  have hroom : lineRoom p.segment (p :: mid) = p.size + lineRoom p.segment mid := by
    change (if p.segment = p.segment then p.size else 0) + _ = _
    rw [if_pos rfl]
    rfl
  have hsum : q.offset = p.offset + p.size := by
    rw [hq, hsegment, lineRoom, totalOf_append, ← lineRoom, ← lineRoom, hroom, hskip, hp]
    omega
  unfold address
  rw [hsegment, hsum, UInt16.ofNat_add, UInt16.add_assoc]

end Lines

/-- The machine understands an image as the lines of a layout. -/
structure Understood (map : MemoryMap) (e : Emission) (image : Image) (l : Layout) (m : Machine) :
    Prop where
  loaded : Machine.ofImage image map.bankCapacity = .ok m
  layout : Relaxation.layout e = .ok l
  lines : l.lines.map (fun p => (p.owner, p.line)) = e.lines
  /-- A label has the address of what follows it. -/
  label : ∀ p ∈ l.lines, ∀ name, p.line = .label name → image.address? name = some (address map p)
  next : ∀ front p mid q back, l.lines = front ++ p :: mid ++ q :: back → q.segment = p.segment →
    (∀ r ∈ mid, r.segment ≠ p.segment) → address map q = address map p + UInt16.ofNat p.size
  /-- Whatever is in the registers, with the bank of the code selected. -/
  decodes : ∀ p ∈ l.lines, ∀ (k : Linkage) (m' : Machine), Agrees image k →
    m'.bus = m.bus.selectBank m'.bus.selected →
    (∀ n, p.owner.placement = .paged n → m'.bus.selected = n) → m'.regs.pc = address map p →
    Understands map l.table k m' p

/-- A function of a bank: a loop that takes a byte of its own address, and a branch out of the
bank. -/
def loopEmission : Emission where
  functions := [
    { header := { name := "f", declaredBank := .paged 1, placement := .paged 1 }
      code := [.label "f", .op .lda (.immediate (.symbol "f" (-1) .hi)), .branch .bne "f",
        .branch .beq "g", .bare .rts] },
    { header := { name := "g" }
      code := [.label "g", .bare .rts] }]

end Codegen6502.Proofs.Emitting.Decoding
