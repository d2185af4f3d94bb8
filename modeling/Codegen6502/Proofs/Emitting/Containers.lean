import Codegen6502.Emission.Target
import Codegen6502.Proofs.Emitting.Assembling
import Codegen6502.Proofs.Processor.Fetching
import Mathlib.Data.Finset.Card
import Mathlib.Data.Finset.Dedup

/-!
# Reading containers back

A reader for the grammar of position-independent containers, and what it gets from the container of
an emission.

* `Contents`: what a container says: functions with their banks, labels and instructions, objects
  and external symbols.  Comments are left out, and a label of the function at hand is a symbol;
* `Reads`, `Spells`: a reader takes exactly some bytes off the front, whatever follows;
* `recovered_iff`: the contents are recovered exactly if fewer than 65536 names are mentioned and
  nothing is in bank 255.  The count of the names is a word, and bank 255 is written as the common
  area.
-/

namespace Codegen6502.Proofs.Emitting.Containers

open Computations Container

/-! ### Contents -/

/-- An address as a container has it. -/
def plainAddress : Address → Address
  | .label name => .symbol name 0
  | a => a

/-- An operand as a container has it. -/
def plainOperand : Operand → Operand
  | .absolute a => .absolute (plainAddress a)
  | .absoluteX a => .absoluteX (plainAddress a)
  | .absoluteY a => .absoluteY (plainAddress a)
  | .indirect a => .indirect (plainAddress a)
  | operand => operand

/-- A line as a container has it, unless it is a comment. -/
def plainLine? : Line → Option Line
  | .op op operand => some (.op op (plainOperand operand))
  | .label name => some (.label name)
  | .comment _ => none

/-- A function as a container has it. -/
structure FunctionContents where
  name : String
  bank : Bank
  code : List Line
  deriving DecidableEq

structure Contents where
  functions : List FunctionContents := []
  data : List DataObject := []
  externals : List (String × UInt16) := []
  deriving DecidableEq

/-- What the container of an emission is meant to say. -/
def contentsOf (e : Emission) : Contents where
  functions := e.functions.map fun f =>
    ⟨f.header.name, f.header.declaredBank, f.code.filterMap plainLine?⟩
  data := e.data
  externals := e.externals.toList

/-! ### The reader -/

/-- A reader takes bytes off the front. -/
abbrev Reader := StateT (List UInt8) Option

namespace Reader

def ofOption {α : Type} (a? : Option α) : Reader α := fun bytes => a?.map fun a => (a, bytes)

def byte : Reader UInt8
  | [] => none
  | b :: rest => some (b, rest)

def word : Reader UInt16 := do return Codegen6502.word (← byte) (← byte)

def take (n : ℕ) : Reader (List UInt8) := fun bytes =>
  if n ≤ bytes.length then some (bytes.take n, bytes.drop n) else none

/-- Repeats a reader. -/
def times {α : Type} (r : Reader α) : ℕ → Reader (List α)
  | 0 => pure []
  | n + 1 => do return (← r) :: (← times r n)

/-- The text of a name. -/
def name : Reader String := do
  let bytes ← take (← byte).toNat
  ofOption (String.fromUTF8? ⟨bytes.toArray⟩)

/-- A name by its index. -/
def reference (names : List String) : Reader String := do ofOption names[(← word).toNat]?

def addend : Reader Int32 := do return (← word).toInt16.toInt32

/-- A bank; `$FF` is the common area. -/
def bank : Reader Bank := do
  let n ← byte
  return if n = 0xFF then .common else .paged n

def address (names : List String) : Reader Address := do
  match ← byte with
  | 0 => return .absolute (← word)
  | 1 => return .symbol (← reference names) (← addend)
  | 2 => return .bankRelative (← byte) (← word)
  | _ => failure

def immediate (names : List String) : Reader Immediate := do
  match ← byte with
  | 0 => return .byte (← byte)
  | 1 => return .symbol (← reference names) (← addend) .lo
  | 2 => return .symbol (← reference names) (← addend) .hi
  | _ => failure

def operand (names : List String) : Mode → Reader Operand
  | .implied => return .implied
  | .accumulator => return .accumulator
  | .immediate => return .immediate (← immediate names)
  | .zeroPage => return .zeroPage (← byte)
  | .absolute => return .absolute (← address names)
  | .absoluteX => return .absoluteX (← address names)
  | .absoluteY => return .absoluteY (← address names)
  | .indirectY => return .indirectY (← byte)
  | .indirect => return .indirect (← address names)
  | .relative => return .relative (← reference names)

end Reader

/-- One record of a container. -/
inductive Record where
  | function (name : String) (bank : Bank)
  /-- A line of the function that was begun last. -/
  | line (line : Line)
  | data (object : DataObject)
  | external (name : String) (address : UInt16)

namespace Reader

/-- A record behind its tag. -/
def record (names : List String) (tag : UInt8) : Reader Record := do
  match tag with
  | 1 => return .function (← reference names) (← bank)
  | 2 => return .line (.label (← reference names))
  | 3 =>
    let op ← ofOption Opcode.all[(← byte).toNat]?
    let mode ← ofOption Mode.all[(← byte).toNat]?
    return .line (.op op (← operand names mode))
  | 4 =>
    let name ← reference names
    let bank ← bank
    return .data ⟨name, ← take (← word).toNat, bank⟩
  | 5 => return .external (← reference names) (← word)
  | _ => failure

/-- The records up to the end, at most `bound` of them. -/
def records (names : List String) : ℕ → Reader (List Record)
  | 0 => failure
  | bound + 1 => do
    let tag ← byte
    if tag = 0 then return [] else return (← record names tag) :: (← records names bound)

end Reader

/-- Puts a record in front of what the following ones say: lines that no function has yet, and the
rest. -/
def Record.before : Record → List Line × Contents → List Line × Contents
  | .function name bank, (lines, c) => ([], { c with functions := ⟨name, bank, lines⟩ :: c.functions })
  | .line l, (lines, c) => (l :: lines, c)
  | .data object, (lines, c) => (lines, { c with data := object :: c.data })
  | .external name address, (lines, c) =>
    (lines, { c with externals := (name, address) :: c.externals })

/-- What records say, unless there are lines in front of the first function. -/
def gather (records : List Record) : Option Contents :=
  match records.foldr Record.before ([], {}) with
  | ([], c) => some c
  | _ => none

namespace Reader

/-- The names in front of the records. -/
def names : Reader (List String) := do times name (← word).toNat

def container : Reader Contents := do
  let start ← take (magic.length + 1)
  if start = magic ++ [version] then
    let table ← names
    let rest ← get
    ofOption (gather (← records table rest.length))
  else failure

end Reader

/-- What a container says. -/
def read? (bytes : List UInt8) : Option Contents :=
  (Reader.container bytes).bind fun (c, rest) => if rest = [] then some c else none

/-! ### Bytes that are read -/

/-- A reader takes some bytes off the front and gives a value, whatever follows. -/
def Reads {α : Type} (r : Reader α) (bytes : List UInt8) (a : α) : Prop :=
  ∀ rest, r (bytes ++ rest) = some (a, rest)

section Reading

variable {α β : Type} {r : Reader α} {f : α → Reader β} {bytes bytes' : List UInt8} {a : α} {b : β}

theorem Reads.bind_apply (h : Reads r bytes a) (rest : List UInt8) :
    (r >>= f) (bytes ++ rest) = f a rest := by
  change (r (bytes ++ rest)).bind (fun p => f p.1 p.2) = _
  rw [h, Option.bind_some]

theorem Reads.bind (h : Reads r bytes a) (h' : Reads (f a) bytes' b) :
    Reads (r >>= f) (bytes ++ bytes') b := by
  intro rest
  rw [List.append_assoc, h.bind_apply, h']

theorem Reads.pure (a : α) : Reads (Pure.pure a : Reader α) [] a := fun _ => rfl

theorem Reads.map {g : α → β} (h : Reads r bytes a) :
    Reads (do return g (← r)) bytes (g a) := by
  rw [← List.append_nil bytes]
  exact h.bind (Reads.pure _)

theorem reads_ofOption {a? : Option α} (h : a? = some a) : Reads (Reader.ofOption a?) [] a := by
  subst h
  exact fun _ => rfl

theorem reads_byte (value : UInt8) : Reads Reader.byte [value] value := fun _ => rfl

theorem reads_word (w : UInt16) : Reads Reader.word (wordBytes w) w := by
  have hhigh := (reads_byte (highByte w)).map (g := Codegen6502.word (lowByte w))
  rw [Processor.Fetching.word_bytes] at hhigh
  exact (reads_byte (lowByte w)).bind
    (f := fun low => do return Codegen6502.word low (← Reader.byte)) hhigh

theorem reads_take (bytes : List UInt8) : Reads (Reader.take bytes.length) bytes bytes := by
  intro rest
  simp [Reader.take]

/-- A reader that is repeated. -/
theorem reads_times {as : List α} {chunks : List (List UInt8)}
    (h : List.Forall₂ (fun a bytes => Reads r bytes a) as chunks) :
    Reads (Reader.times r as.length) chunks.flatten as := by
  induction h with
  | nil => exact Reads.pure []
  | cons hfirst _ ih => exact hfirst.bind (ih.map (g := List.cons _))

end Reading

/-! ### Names -/

/-- The indices of a table are the positions of its names, and these are the given ones. -/
structure Tabulates (given : List String) (t : NameTable) : Prop where
  position : ∀ (name : String) (i : ℕ), t.indices[name]? = some i ↔ t.names.toList[i]? = some name
  mem : ∀ name, name ∈ t.names.toList ↔ name ∈ given

variable {given : List String} {t : NameTable} {e : Emission} {bytes : List UInt8}

theorem Tabulates.contains_iff (h : Tabulates given t) {name : String} :
    t.indices.contains name ↔ name ∈ given := by
  rw [← h.mem, List.mem_iff_getElem?, Std.TreeMap.contains_eq_isSome_getElem?,
    Option.isSome_iff_exists]
  exact exists_congr fun i => h.position name i

theorem Tabulates.insert (h : Tabulates given t) (name : String) :
    Tabulates (given ++ [name]) (t.insert name) := by
  unfold NameTable.insert
  by_cases hold : t.indices.contains name
  · rw [if_pos hold]
    have hmem := h.contains_iff.mp hold
    refine ⟨h.position, fun other => ?_⟩
    rw [h.mem, List.mem_append, List.mem_singleton]
    exact ⟨Or.inl, fun hor => hor.elim id fun heq => heq ▸ hmem⟩
  · rw [if_neg hold]
    have hnew : name ∉ t.names.toList := fun hmem => hold (h.contains_iff.mpr ((h.mem name).mp hmem))
    refine ⟨fun other i => ?_, fun other => by simp [h.mem]⟩
    rw [Std.TreeMap.getElem?_insert, Array.toList_push, List.getElem?_append]
    have hsize : t.names.toList.length = t.names.size := Array.length_toList
    by_cases heq : name = other
    · subst heq
      rw [if_pos Std.ReflCmp.compare_self]
      by_cases hi : i < t.names.toList.length
      · rw [if_pos hi]
        have hne : t.names.toList[i]? ≠ some name := fun hget => hnew (List.mem_of_getElem? hget)
        exact ⟨fun hsome => absurd (Option.some.inj hsome) (by omega), fun hget => absurd hget hne⟩
      · rw [if_neg hi, List.getElem?_singleton]
        constructor
        · rintro ⟨⟩
          simp [hsize]
        · intro hget
          have hzero : i - t.names.toList.length = 0 := by
            by_contra hpos
            rw [if_neg hpos] at hget
            cases hget
          exact congrArg some (by omega)
    · rw [if_neg fun hcompare => heq (Std.LawfulEqCmp.eq_of_compare hcompare), h.position]
      by_cases hi : i < t.names.toList.length
      · rw [if_pos hi]
      · rw [if_neg hi, List.getElem?_eq_none (by omega), List.getElem?_singleton]
        split
        · simp [heq]
        · rfl

theorem ofList_concat (front : List String) (name : String) :
    NameTable.ofList (front ++ [name]) = (NameTable.ofList front).insert name := by
  unfold NameTable.ofList
  rw [List.foldl_append]
  rfl

theorem tabulates (given : List String) : Tabulates given (NameTable.ofList given) := by
  induction given using List.reverseRecOn with
  | nil => exact ⟨fun name i => by simp [NameTable.ofList], fun name => by simp [NameTable.ofList]⟩
  | append_singleton front name ih => exact ofList_concat front name ▸ ih.insert name

theorem reference_eq_ok {name : String} (h : t.reference name = .ok bytes) :
    ∃ i < 0x10000, t.indices[name]? = some i ∧ bytes = wordBytes (UInt16.ofNat i) := by
  unfold NameTable.reference at h
  cases hi : t.indices[name]? with
  | none => rw [hi] at h; cases h
  | some i =>
    simp only [hi] at h
    by_cases hsmall : i < 0x10000
    · rw [if_pos hsmall] at h
      cases h
      exact ⟨i, hsmall, rfl, rfl⟩
    · rw [if_neg hsmall] at h
      cases h

theorem reads_reference (ht : Tabulates given t) {name : String}
    (h : t.reference name = .ok bytes) : Reads (Reader.reference t.names.toList) bytes name := by
  obtain ⟨i, hi, hindex, rfl⟩ := reference_eq_ok h
  rw [← List.append_nil (wordBytes _)]
  refine (reads_word _).bind (reads_ofOption ?_)
  rw [UInt16.toNat_ofNat_of_lt' hi]
  exact (ht.position name i).mp hindex

theorem reads_name {name : String} (h : NameTable.nameBytes name = .ok bytes) :
    Reads Reader.name bytes name := by
  unfold NameTable.nameBytes at h
  by_cases hshort : name.utf8ByteSize < 0x100
  · rw [if_pos hshort] at h
    cases h
    have hlength : (UInt8.ofNat name.utf8ByteSize).toNat = name.toUTF8.data.toList.length := by
      rw [UInt8.toNat_ofNat_of_lt' hshort]
      rfl
    have htext : String.fromUTF8? ⟨name.toUTF8.data.toList.toArray⟩ = some name := by
      rw [Array.toArray_toList]
      exact dif_pos name.isValidUTF8
    have hbytes := reads_take name.toUTF8.data.toList
    rw [← hlength] at hbytes
    have hrest := hbytes.bind
      (f := fun text => Reader.ofOption (String.fromUTF8? ⟨text.toArray⟩)) (reads_ofOption htext)
    rw [List.append_nil] at hrest
    exact (reads_byte _).bind hrest
  · rw [if_neg hshort] at h
    cases h

/-! ### Operands -/

theorem reads_addend {addend : Int32} (h : addendBytes addend = .ok bytes) :
    Reads Reader.addend bytes addend := by
  unfold addendBytes at h
  split at h
  · rename_i hrange
    cases h
    simp only [Bool.and_eq_true, decide_eq_true_eq] at hrange
    have hsame : addend.toInt16.toUInt16.toInt16.toInt32 = addend := by
      rw [Int16.toInt16_toUInt16]
      apply Int32.toInt_inj.mp
      rw [Int16.toInt_toInt32, Int32.toInt_toInt16, Int.bmod_eq_of_le (by omega) (by omega)]
    have hword := (reads_word addend.toInt16.toUInt16).map (g := fun w => w.toInt16.toInt32)
    rw [hsame] at hword
    exact hword
  · cases h

section Operands

variable (ht : Tabulates given t)

include ht

/-- A name and what is added to it. -/
theorem reads_sum {α : Type} {name : String} {addend : Int32} {index sum : List UInt8}
    (hname : t.reference name = .ok index) (haddend : addendBytes addend = .ok sum)
    (make : String → Int32 → α) :
    Reads (do return make (← Reader.reference t.names.toList) (← Reader.addend)) (index ++ sum)
      (make name addend) :=
  (reads_reference ht hname).bind (f := fun name => do return make name (← Reader.addend))
    ((reads_addend haddend).map (g := make name))

theorem reads_address {a : Address} (h : addressBytes t a = .ok bytes) :
    Reads (Reader.address t.names.toList) bytes (plainAddress a) := by
  have hzero : addendBytes 0 = .ok (wordBytes 0) := rfl
  cases a with
  | absolute value =>
    cases h
    exact (reads_byte 0).bind ((reads_word value).map (g := Address.absolute))
  | symbol name addend =>
    obtain ⟨index, hindex, h⟩ := bind_eq_ok.mp h
    obtain ⟨sum, hsum, h⟩ := bind_eq_ok.mp h
    cases h
    exact (reads_byte 1).bind (reads_sum ht hindex hsum Address.symbol)
  | label name =>
    obtain ⟨index, hindex, h⟩ := bind_eq_ok.mp h
    cases h
    exact (reads_byte 1).bind (reads_sum ht hindex hzero Address.symbol)
  | bankRelative bank offset =>
    cases h
    exact (reads_byte 2).bind ((reads_byte bank).bind
      (f := fun bank => do return Address.bankRelative bank (← Reader.word))
      ((reads_word offset).map (g := Address.bankRelative bank)))

theorem reads_immediate {value : Immediate} (h : immediateBytes t value = .ok bytes) :
    Reads (Reader.immediate t.names.toList) bytes value := by
  cases value with
  | byte b =>
    cases h
    exact (reads_byte 0).bind ((reads_byte b).map (g := Immediate.byte))
  | symbol name addend half =>
    obtain ⟨index, hindex, h⟩ := bind_eq_ok.mp h
    obtain ⟨sum, hsum, h⟩ := bind_eq_ok.mp h
    cases h
    cases half with
    | lo => exact (reads_byte 1).bind (reads_sum ht hindex hsum (Immediate.symbol · · .lo))
    | hi => exact (reads_byte 2).bind (reads_sum ht hindex hsum (Immediate.symbol · · .hi))

theorem reads_operand {line : Line} {operand : Operand}
    (h : operandBytes t line operand = .ok bytes) :
    Reads (Reader.operand t.names.toList operand.mode) bytes (plainOperand operand) := by
  cases operand with
  | implied | accumulator => cases h; exact Reads.pure _
  | immediate value => exact (reads_immediate ht h).map
  | zeroPage cell | indirectY cell => cases h; exact (reads_byte cell).map
  | absolute a | absoluteX a | absoluteY a | indirect a => exact (reads_address ht h).map
  | relative label => exact (reads_reference ht h).map
  | virtual | frame => cases h

end Operands

/-! ### Records -/

/-- Bytes spell records: the reader of records takes them off the front and goes on. -/
structure Spells (names : List String) (bytes : List UInt8) (records : List Record) : Prop where
  goes : ∀ bound rest, Reader.records names (records.length + bound) (bytes ++ rest) =
    (Reader.records names bound rest).map fun p => (records ++ p.1, p.2)
  short : records.length ≤ bytes.length

namespace Spells

variable {names : List String} {bytes' : List UInt8} {records records' : List Record}

theorem nil : Spells names [] [] := by
  refine ⟨fun bound rest => ?_, le_refl _⟩
  rw [List.length_nil, Nat.zero_add, List.nil_append]
  cases Reader.records names bound rest <;> rfl

theorem append (h : Spells names bytes records) (h' : Spells names bytes' records') :
    Spells names (bytes ++ bytes') (records ++ records') := by
  constructor
  · intro bound rest
    rw [List.length_append, Nat.add_assoc, List.append_assoc, h.goes, h'.goes, Option.map_map]
    simp only [Function.comp_def, List.append_assoc]
  · rw [List.length_append, List.length_append]
    exact Nat.add_le_add h.short h'.short

/-- One record behind its tag. -/
theorem single {tag : UInt8} {r : Record} (htag : tag ≠ 0)
    (h : Reads (Reader.record names tag) bytes r) : Spells names (tag :: bytes) [r] := by
  constructor
  · intro bound rest
    have hstep : Reader.records names (1 + bound) (tag :: bytes ++ rest) =
        (Reader.record names tag >>= fun r => do return r :: (← Reader.records names bound))
          (bytes ++ rest) := by
      rw [Nat.add_comm]
      change (if tag = 0 then (return [] : Reader (List Record)) else _) (bytes ++ rest) = _
      rw [if_neg htag]
    rw [List.length_singleton, hstep]
    change (Reader.record names tag (bytes ++ rest)).bind _ = _
    rw [h rest, Option.bind_some]
    change (Reader.records names bound rest).bind _ = _
    rw [Option.map_eq_bind]
    rfl
  · simp

/-- Several parts one behind the other. -/
theorem flatten {α : Type} {written : α → List Record} {as : List α} {parts : List (List UInt8)}
    (h : List.Forall₂ (fun a part => Spells names part (written a)) as parts) :
    Spells names parts.flatten (as.flatMap written) := by
  induction h with
  | nil => exact nil
  | cons hfirst _ ih => exact hfirst.append ih

end Spells

/-- A bank as it is read back. -/
def seenBank (bank : Bank) : Bank := if bank = .paged 0xFF then .common else bank

theorem reads_bank (bank : Bank) : Reads Reader.bank [bankByte bank] (seenBank bank) := by
  have hread := (reads_byte (bankByte bank)).map
    (g := fun n => if n = 0xFF then Bank.common else .paged n)
  have hseen : (if bankByte bank = 0xFF then Bank.common else .paged (bankByte bank)) =
      seenBank bank := by
    cases bank with
    | common => rfl
    | paged n => by_cases hn : n = 0xFF <;> simp [seenBank, bankByte, hn]
  rw [hseen] at hread
  exact hread

def lineRecords (line : Line) : List Record := ((plainLine? line).map Record.line).toList

def functionRecord (f : EmittedFunction) : Record :=
  .function f.header.name (seenBank f.header.declaredBank)

def dataRecords (o : DataObject) : List Record := [.data { o with bank := seenBank o.bank }]

def externalRecords (external : String × UInt16) : List Record :=
  [.external external.1 external.2]

theorem dataRecord_eq_ok {o : DataObject} (h : dataRecord t o = .ok bytes) : o.size < 0x10000 ∧
    ∃ index, t.reference o.name = .ok index ∧
      bytes = 4 :: index ++ bankByte o.bank :: wordBytes (UInt16.ofNat o.size) ++ o.bytes := by
  unfold dataRecord at h
  by_cases hlarge : o.size ≥ 0x10000
  · rw [if_pos hlarge] at h
    cases h
  · rw [if_neg hlarge] at h
    obtain ⟨-, -, h⟩ := bind_eq_ok.mp h
    obtain ⟨index, hindex, h⟩ := bind_eq_ok.mp h
    cases h
    exact ⟨not_le.mp hlarge, index, hindex, rfl⟩

section Records

variable (ht : Tabulates given t)

include ht

theorem spells_line {line : Line} (h : lineRecord t line = .ok bytes) :
    Spells t.names.toList bytes (lineRecords line) := by
  cases line with
  | comment text => cases h; exact Spells.nil
  | label name =>
    obtain ⟨index, hindex, h⟩ := bind_eq_ok.mp h
    cases h
    exact Spells.single (by decide)
      ((reads_reference ht hindex).map (g := fun n => Record.line (.label n)))
  | op opcode operand =>
    obtain ⟨rest, hrest, h⟩ := bind_eq_ok.mp h
    cases h
    have hopcode : Opcode.all[(opcodeNumber opcode).toNat]? = some opcode := by
      cases opcode <;> rfl
    have hmode : ∀ mode : Mode, Mode.all[(modeNumber mode).toNat]? = some mode := by
      intro mode
      cases mode <;> rfl
    have hoperand := (reads_operand ht hrest).map (g := fun operand => Record.line (.op opcode operand))
    refine Spells.single (by decide) ?_
    exact (reads_byte _).bind ((reads_ofOption hopcode).bind
      ((reads_byte _).bind ((reads_ofOption (hmode _)).bind hoperand)))

theorem spells_function {f : EmittedFunction} (h : functionRecords t f = .ok bytes) :
    Spells t.names.toList bytes (functionRecord f :: f.code.flatMap lineRecords) := by
  obtain ⟨index, hindex, h⟩ := bind_eq_ok.mp h
  obtain ⟨lines, hlines, h⟩ := bind_eq_ok.mp h
  cases h
  have hstart : Spells t.names.toList (1 :: index ++ [bankByte f.header.declaredBank])
      [functionRecord f] :=
    Spells.single (by decide) ((reads_reference ht hindex).bind ((reads_bank _).map))
  exact hstart.append (Spells.flatten ((mapM_eq_ok hlines).imp fun _ _ hline => spells_line ht hline))

theorem spells_data {o : DataObject} (h : dataRecord t o = .ok bytes) :
    Spells t.names.toList bytes (dataRecords o) := by
  obtain ⟨hsmall, index, hindex, rfl⟩ := dataRecord_eq_ok h
  have hsize : (UInt16.ofNat o.size).toNat = o.bytes.length := UInt16.toNat_ofNat_of_lt' hsmall
  have hbytes := (reads_take o.bytes).map
    (g := fun bytes => Record.data ⟨o.name, bytes, seenBank o.bank⟩)
  rw [← hsize] at hbytes
  have hcontent := (reads_word _).bind
    (f := fun n => do return Record.data ⟨o.name, ← Reader.take n.toNat, seenBank o.bank⟩) hbytes
  rw [List.append_assoc]
  exact Spells.single (by decide) ((reads_reference ht hindex).bind ((reads_bank _).bind hcontent))

theorem spells_external {external : String × UInt16} (h : externalRecord t external = .ok bytes) :
    Spells t.names.toList bytes (externalRecords external) := by
  obtain ⟨index, hindex, h⟩ := bind_eq_ok.mp h
  cases h
  exact Spells.single (by decide) ((reads_reference ht hindex).bind ((reads_word _).map))

end Records

/-! ### Contents from records -/

/-- Contents as they are read back. -/
def Contents.seen (c : Contents) : Contents where
  functions := c.functions.map fun f => { f with bank := seenBank f.bank }
  data := c.data.map fun o => { o with bank := seenBank o.bank }
  externals := c.externals

/-- The records of an emission. -/
def recordsOf (e : Emission) : List Record :=
  e.functions.flatMap (fun f => functionRecord f :: f.code.flatMap lineRecords) ++
    e.data.flatMap dataRecords ++ e.externals.toList.flatMap externalRecords

theorem foldr_externals (externals : List (String × UInt16)) (c : Contents) :
    (externals.flatMap externalRecords).foldr Record.before ([], c) =
      ([], { c with externals := externals ++ c.externals }) := by
  induction externals with
  | nil => rfl
  | cons first rest ih =>
    rw [List.flatMap_cons, List.foldr_append, ih]
    rfl

theorem foldr_data (data : List DataObject) (c : Contents) :
    (data.flatMap dataRecords).foldr Record.before ([], c) =
      ([], { c with data := (data.map fun o => { o with bank := seenBank o.bank }) ++ c.data }) := by
  induction data with
  | nil => rfl
  | cons first rest ih =>
    rw [List.flatMap_cons, List.foldr_append, ih]
    rfl

theorem foldr_lines (code : List Line) (c : Contents) :
    (code.flatMap lineRecords).foldr Record.before ([], c) = (code.filterMap plainLine?, c) := by
  induction code with
  | nil => rfl
  | cons first rest ih =>
    rw [List.flatMap_cons, List.foldr_append, ih, List.filterMap_cons]
    unfold lineRecords
    cases plainLine? first <;> rfl

theorem foldr_functions (functions : List EmittedFunction) (c : Contents) :
    (functions.flatMap fun f => functionRecord f :: f.code.flatMap lineRecords).foldr Record.before
      ([], c) = ([], { c with functions := (functions.map fun f => ⟨f.header.name,
        seenBank f.header.declaredBank, f.code.filterMap plainLine?⟩) ++ c.functions }) := by
  induction functions with
  | nil => rfl
  | cons first rest ih =>
    rw [List.flatMap_cons, List.foldr_append, ih, List.foldr_cons, foldr_lines]
    rfl

theorem gather_recordsOf (e : Emission) : gather (recordsOf e) = some (contentsOf e).seen := by
  unfold gather recordsOf
  rw [List.foldr_append, List.foldr_append, foldr_externals, foldr_data, foldr_functions]
  simp [contentsOf, Contents.seen]

/-! ### Containers -/

/-- What is known of the bytes of a container. -/
theorem bytes_eq_ok (h : Container.bytes e = .ok bytes) : ∃ table records : List UInt8,
    bytes = magic ++ [version] ++ table ++ (records ++ [0]) ∧
    (NameTable.ofList (mentions e)).bytes = .ok table ∧
    Spells (NameTable.ofList (mentions e)).names.toList records (recordsOf e) := by
  have ht := tabulates (mentions e)
  obtain ⟨functions, hfunctions, h⟩ := bind_eq_ok.mp h
  obtain ⟨data, hdata, h⟩ := bind_eq_ok.mp h
  obtain ⟨externals, hexternals, h⟩ := bind_eq_ok.mp h
  obtain ⟨table, htable, h⟩ := bind_eq_ok.mp h
  cases h
  refine ⟨table, functions.flatten ++ data.flatten ++ externals.flatten, ?_, htable, ?_⟩
  · simp only [List.append_assoc]
  · have h₁ := Spells.flatten ((mapM_eq_ok hfunctions).imp fun _ _ hf => spells_function ht hf)
    have h₂ := Spells.flatten ((mapM_eq_ok hdata).imp fun _ _ ho => spells_data ht ho)
    have h₃ := Spells.flatten ((mapM_eq_ok hexternals).imp fun _ _ hx => spells_external ht hx)
    exact (h₁.append h₂).append h₃

theorem reads_names (h : t.bytes = .ok bytes) (hcount : t.names.size < 0x10000) :
    Reads Reader.names bytes t.names.toList := by
  obtain ⟨chunks, hchunks, h⟩ := bind_eq_ok.mp h
  cases h
  refine (reads_word _).bind ?_
  rw [UInt16.toNat_ofNat_of_lt' hcount, ← Array.length_toList]
  exact reads_times ((mapM_eq_ok hchunks).imp fun _ _ hname => reads_name hname)

/-- What a container is read as, by what is behind its start. -/
theorem read?_start (rest : List UInt8) : read? (magic ++ [version] ++ rest) =
    (Reader.names rest).bind fun (table, rest) =>
      (Reader.records table rest.length rest).bind fun (records, rest) =>
        if rest = [] then gather records else none := by
  have hstart : Reader.container (magic ++ [version] ++ rest) =
      (Reader.names rest).bind fun (table, rest) =>
        (Reader.records table rest.length rest).bind fun (records, rest) =>
          (gather records).map fun c => (c, rest) :=
    (reads_take (magic ++ [version])).bind_apply rest
  unfold read?
  rw [hstart, Option.bind_assoc]
  congr 1
  funext ⟨table, rest⟩
  rw [Option.bind_assoc]
  congr 1
  funext ⟨records, last⟩
  change ((gather records).map fun c => (c, last)).bind _ = _
  cases hgather : gather records <;> simp [hgather]

theorem read?_of_bytes (h : Container.bytes e = .ok bytes)
    (hcount : (NameTable.ofList (mentions e)).names.size < 0x10000) :
    read? bytes = some (contentsOf e).seen := by
  obtain ⟨table, records, rfl, htable, hspells⟩ := bytes_eq_ok h
  have hshort := hspells.short
  obtain ⟨bound, hbound⟩ : ∃ bound, (records ++ [0]).length = (recordsOf e).length + (bound + 1) :=
    ⟨records.length - (recordsOf e).length, by rw [List.length_append, List.length_singleton]; omega⟩
  have hend : Reader.records (NameTable.ofList (mentions e)).names.toList (bound + 1) [0] =
      some ([], []) := rfl
  rw [List.append_assoc, read?_start, reads_names htable hcount]
  simp only [Option.bind_some]
  rw [hbound, hspells.goes, hend]
  simp [gather_recordsOf]

/-! ### The count of the names -/

theorem Tabulates.size_eq (h : Tabulates given t) : t.names.size = given.toFinset.card := by
  have hnodup : t.names.toList.Nodup := by
    rw [List.nodup_iff_getElem?_ne_getElem?]
    intro i j hij hj heq
    have hj' := List.getElem?_eq_getElem hj
    have hindex := (h.position _ i).mpr (heq.trans hj')
    rw [(h.position _ j).mpr hj'] at hindex
    cases hindex
    omega
  have hset : t.names.toList.toFinset = given.toFinset := by
    ext name
    rw [List.mem_toFinset, List.mem_toFinset, h.mem]
  rw [← hset, List.toFinset_card_of_nodup hnodup, Array.length_toList]

/-- Every name in a line that has been written has an index. -/
theorem reference_of_line {line : Line} {name : String} (h : lineRecord t line = .ok bytes)
    (hname : lineName? line = some name) : ∃ index, t.reference name = .ok index := by
  have haddress : ∀ {a : Address} {bytes : List UInt8}, addressBytes t a = .ok bytes →
      addressName? a = some name → ∃ index, t.reference name = .ok index := by
    intro a bytes ha hname
    cases a with
    | symbol | label =>
      cases hname
      obtain ⟨index, hindex, -⟩ := bind_eq_ok.mp ha
      exact ⟨index, hindex⟩
    | _ => cases hname
  cases line with
  | comment => cases hname
  | label =>
    cases hname
    obtain ⟨index, hindex, -⟩ := bind_eq_ok.mp h
    exact ⟨index, hindex⟩
  | op opcode operand =>
    obtain ⟨rest, hrest, -⟩ := bind_eq_ok.mp h
    cases operand with
    | immediate value =>
      cases value with
      | byte => cases hname
      | symbol =>
        cases hname
        obtain ⟨index, hindex, -⟩ := bind_eq_ok.mp hrest
        exact ⟨index, hindex⟩
    | absolute | absoluteX | absoluteY | indirect => exact haddress hrest hname
    | relative => cases hname; exact ⟨rest, hrest⟩
    | _ => cases hname

theorem exists_of_mapM {α β : Type} {f : α → Compile β} {as : List α} {bs : List β}
    (h : as.mapM f = .ok bs) {a : α} (ha : a ∈ as) : ∃ b, f a = .ok b := by
  obtain ⟨front, back, rfl⟩ := List.append_of_mem ha
  obtain ⟨-, b, -, -, -, hb, -⟩ := Assembling.forall₂_split (mapM_eq_ok h)
  exact ⟨b, hb⟩

/-- Every name that a container mentions has an index. -/
theorem reference_of_mention (h : Container.bytes e = .ok bytes) {name : String}
    (hname : name ∈ mentions e) :
    ∃ index, (NameTable.ofList (mentions e)).reference name = .ok index := by
  obtain ⟨functions, hfunctions, h⟩ := bind_eq_ok.mp h
  obtain ⟨data, hdata, h⟩ := bind_eq_ok.mp h
  obtain ⟨externals, hexternals, -⟩ := bind_eq_ok.mp h
  rcases List.mem_append.mp hname with hname | hkey
  rcases List.mem_append.mp hname with hcode | hobject
  · obtain ⟨f, hf, hcode⟩ := List.mem_flatMap.mp hcode
    obtain ⟨records, hrecords⟩ := exists_of_mapM hfunctions hf
    obtain ⟨index, hindex, hrecords⟩ := bind_eq_ok.mp hrecords
    obtain ⟨lines, hlines, -⟩ := bind_eq_ok.mp hrecords
    rcases List.mem_cons.mp hcode with rfl | hline
    · exact ⟨index, hindex⟩
    · obtain ⟨line, hline, hname⟩ := List.mem_filterMap.mp hline
      obtain ⟨bytes, hbytes⟩ := exists_of_mapM hlines hline
      exact reference_of_line hbytes hname
  · obtain ⟨o, ho, rfl⟩ := List.mem_map.mp hobject
    obtain ⟨record, hrecord⟩ := exists_of_mapM hdata ho
    obtain ⟨-, index, hindex, -⟩ := dataRecord_eq_ok hrecord
    exact ⟨index, hindex⟩
  · rw [← Std.TreeMap.map_fst_toList_eq_keys] at hkey
    obtain ⟨entry, hentry, rfl⟩ := List.mem_map.mp hkey
    obtain ⟨record, hrecord⟩ := exists_of_mapM hexternals hentry
    obtain ⟨index, hindex, -⟩ := bind_eq_ok.mp hrecord
    exact ⟨index, hindex⟩

theorem size_le (h : Container.bytes e = .ok bytes) :
    (NameTable.ofList (mentions e)).names.size ≤ 0x10000 := by
  by_contra hlarge
  have ht := tabulates (mentions e)
  have hlast : 0x10000 < (NameTable.ofList (mentions e)).names.toList.length := by
    rw [Array.length_toList]
    omega
  have hget := List.getElem?_eq_getElem hlast
  have hmem := (ht.mem _).mp (List.mem_of_getElem? hget)
  obtain ⟨index, hindex⟩ := reference_of_mention h hmem
  obtain ⟨i, hi, hposition, -⟩ := reference_eq_ok hindex
  rw [(ht.position _ _).mpr hget] at hposition
  cases hposition
  omega

/-! ### Without names -/

theorem bind_eq_some {α β : Type} {r : Reader α} {f : α → Reader β} {p : β × List UInt8} :
    (r >>= f) bytes = some p ↔ ∃ a rest, r bytes = some (a, rest) ∧ f a rest = some p := by
  change (r bytes).bind (fun q => f q.1 q.2) = some p ↔ _
  rw [Option.bind_eq_some_iff, Prod.exists]

theorem reference_nil (bytes : List UInt8) : Reader.reference [] bytes = none := by
  change (Reader.word bytes).bind _ = none
  cases Reader.word bytes <;> rfl

/-- Without names only lines are read. -/
theorem line_of_record {tag : UInt8} {p : Record × List UInt8}
    (h : Reader.record [] tag bytes = some p) : ∃ line, p.1 = .line line := by
  have hnone : ∀ {β : Type} {f : String → Reader β} {p : β × List UInt8},
      (Reader.reference [] >>= f) bytes ≠ some p := by
    intro β f p hsome
    obtain ⟨name, rest, hname, -⟩ := bind_eq_some.mp hsome
    rw [reference_nil] at hname
    cases hname
  unfold Reader.record at h
  split at h
  · exact absurd h hnone
  · exact absurd h hnone
  · obtain ⟨_, _, -, h⟩ := bind_eq_some.mp h
    obtain ⟨op, _, -, h⟩ := bind_eq_some.mp h
    obtain ⟨_, _, -, h⟩ := bind_eq_some.mp h
    obtain ⟨_, _, -, h⟩ := bind_eq_some.mp h
    obtain ⟨operand, _, -, h⟩ := bind_eq_some.mp h
    cases h
    exact ⟨.op op operand, rfl⟩
  · exact absurd h hnone
  · exact absurd h hnone
  · cases h

theorem lines_of_records {bound : ℕ} {p : List Record × List UInt8}
    (h : Reader.records [] bound bytes = some p) : ∀ r ∈ p.1, ∃ line, r = .line line := by
  induction bound generalizing bytes p with
  | zero => cases h
  | succ bound ih =>
    obtain ⟨tag, rest, -, h⟩ := bind_eq_some.mp h
    by_cases htag : tag = 0
    · rw [if_pos htag] at h
      cases h
      simp
    · rw [if_neg htag] at h
      obtain ⟨first, rest, hfirst, h⟩ := bind_eq_some.mp h
      obtain ⟨others, rest, hothers, h⟩ := bind_eq_some.mp h
      cases h
      intro r hr
      rcases List.mem_cons.mp hr with rfl | hr
      · exact line_of_record hfirst
      · exact ih hothers r hr

theorem gather_lines {records : List Record} {c : Contents}
    (hlines : ∀ r ∈ records, ∃ line, r = .line line) (h : gather records = some c) : c = {} := by
  have hfold : ∃ lines, records.foldr Record.before ([], {}) = (lines, {}) := by
    clear h
    induction records with
    | nil => exact ⟨[], rfl⟩
    | cons first rest ih =>
      obtain ⟨line, rfl⟩ := hlines first (List.mem_cons_self ..)
      obtain ⟨lines, hrest⟩ := ih fun r hr => hlines r (List.mem_cons_of_mem _ hr)
      exact ⟨line :: lines, by rw [List.foldr_cons, hrest]; rfl⟩
  obtain ⟨lines, hfold⟩ := hfold
  unfold gather at h
  rw [hfold] at h
  cases lines with
  | nil => cases h; rfl
  | cons => cases h

/-- With one name too many nothing is recovered. -/
theorem read?_of_full {c : Contents} (h : Container.bytes e = .ok bytes)
    (hcount : (NameTable.ofList (mentions e)).names.size = 0x10000) (hread : read? bytes = some c) :
    c = {} := by
  obtain ⟨table, records, rfl, htable, -⟩ := bytes_eq_ok h
  obtain ⟨chunks, -, htable⟩ := bind_eq_ok.mp htable
  cases htable
  have hzero : UInt16.ofNat 0x10000 = 0 := rfl
  rw [hcount, hzero, List.append_assoc, read?_start, List.append_assoc] at hread
  have hnames : Reader.names (wordBytes 0 ++ (chunks.flatten ++ (records ++ [0]))) =
      some ([], chunks.flatten ++ (records ++ [0])) := (reads_word 0).bind_apply _
  rw [hnames, Option.bind_some] at hread
  obtain ⟨⟨found, rest⟩, hfound, hread⟩ := Option.bind_eq_some_iff.mp hread
  refine gather_lines (lines_of_records hfound) ?_
  change (if rest = [] then gather found else none) = some c at hread
  by_cases hrest : rest = []
  · rwa [if_pos hrest] at hread
  · rw [if_neg hrest] at hread
    cases hread

/-! ### Recovery -/

/-- Contents that mention a name are not empty. -/
theorem contentsOf_ne_empty {name : String} (h : name ∈ mentions e) : contentsOf e ≠ {} := by
  intro hempty
  have hfunctions : e.functions = [] := List.map_eq_nil_iff.mp (congrArg Contents.functions hempty)
  have hdata : e.data = [] := congrArg Contents.data hempty
  have hexternals : e.externals.toList = [] := congrArg Contents.externals hempty
  rw [mentions, hfunctions, hdata, ← Std.TreeMap.map_fst_toList_eq_keys, hexternals] at h
  cases h

/-- Few enough names, and nothing in the bank whose number stands for the common area. -/
structure Recoverable (e : Emission) : Prop where
  names : (mentions e).toFinset.card < 0x10000
  functions : ∀ f ∈ e.functions, f.header.declaredBank ≠ .paged 0xFF
  data : ∀ o ∈ e.data, o.bank ≠ .paged 0xFF

theorem seenBank_eq_self {bank : Bank} : seenBank bank = bank ↔ bank ≠ .paged 0xFF := by
  unfold seenBank
  by_cases h : bank = .paged 0xFF
  · subst h
    decide
  · simp [h]

theorem seen_contentsOf : (contentsOf e).seen = contentsOf e ↔
    (∀ f ∈ e.functions, f.header.declaredBank ≠ .paged 0xFF) ∧ ∀ o ∈ e.data, o.bank ≠ .paged 0xFF := by
  have hdata : (e.data.map fun o => { o with bank := seenBank o.bank }) = e.data ↔
      ∀ o ∈ e.data, o.bank ≠ .paged 0xFF := by
    nth_rewrite 2 [← List.map_id e.data]
    rw [List.map_inj_left]
    refine forall₂_congr fun o _ => ?_
    rw [← seenBank_eq_self]
    exact ⟨fun heq => congrArg DataObject.bank heq, fun heq => by rw [heq]; rfl⟩
  simp only [Contents.seen, contentsOf, Contents.mk.injEq, List.map_map, and_true, List.map_inj_left,
    Function.comp_apply, FunctionContents.mk.injEq, true_and, seenBank_eq_self, hdata]

variable {map : MemoryMap} {out : Output}

theorem bytes_of_output (h : e.output .container map = .ok out)
    (hartifact : out.artifact = .container bytes) : Container.bytes e = .ok bytes := by
  unfold Emission.output flatOutput at h
  obtain ⟨-, -, h⟩ := bind_eq_ok.mp h
  obtain ⟨l, -, h⟩ := bind_eq_ok.mp h
  obtain ⟨⟨⟩, -, h⟩ := bind_eq_ok.mp h
  obtain ⟨⟨⟩, -, h⟩ := bind_eq_ok.mp h
  obtain ⟨artifact, hproduce, h⟩ := bind_eq_ok.mp h
  cases h
  cases hartifact
  cases hbytes : Container.bytes e with
  | ok bytes => rw [hbytes] at hproduce; cases hproduce; rfl
  | error => rw [hbytes] at hproduce; cases hproduce

theorem read?_iff (h : Container.bytes e = .ok bytes) :
    read? bytes = some (contentsOf e) ↔ Recoverable e := by
  have ht := tabulates (mentions e)
  have hsize := ht.size_eq
  rcases Nat.lt_or_eq_of_le (size_le h) with hfew | hfull
  · rw [read?_of_bytes h hfew, Option.some_inj, seen_contentsOf]
    exact ⟨fun ⟨hfunctions, hdata⟩ => ⟨hsize ▸ hfew, hfunctions, hdata⟩,
      fun hr => ⟨hr.functions, hr.data⟩⟩
  · constructor
    · intro hread
      have hfirst : 0 < (NameTable.ofList (mentions e)).names.toList.length := by
        rw [Array.length_toList]
        omega
      have hmem := (ht.mem _).mp (List.getElem_mem hfirst)
      exact absurd (read?_of_full h hfull hread) (contentsOf_ne_empty hmem)
    · intro hr
      have := hr.names
      omega

/-- **What a container says** is recovered exactly if it mentions fewer than 65536 names and nothing
is in bank 255; and recoverable emissions with the same bytes say the same. -/
theorem recovered_iff (h : e.output .container map = .ok out)
    (hartifact : out.artifact = .container bytes) :
    (read? bytes = some (contentsOf e) ↔ Recoverable e) ∧
    ∀ (e' : Emission) (map' : MemoryMap) (out' : Output), e'.output .container map' = .ok out' →
      out'.artifact = .container bytes → Recoverable e → Recoverable e' →
      contentsOf e' = contentsOf e := by
  have hiff := read?_iff (bytes_of_output h hartifact)
  refine ⟨hiff, fun e' map' out' h' hartifact' hr hr' => ?_⟩
  have hread := (read?_iff (bytes_of_output h' hartifact')).mpr hr'
  rw [hiff.mpr hr] at hread
  exact (Option.some.inj hread).symm

/-- A function of bank 255. -/
def lastBankEmission : Emission where
  functions := [
    { header := { name := "f", declaredBank := .paged 0xFF, placement := .common }
      code := [.label "f", .bare .rts] }]

/-- **A function of bank 255 is not recovered.** -/
theorem last_bank_lost : ∃ out bytes, lastBankEmission.output .container {} = .ok out ∧
    out.artifact = .container bytes ∧ read? bytes ≠ some (contentsOf lastBankEmission) := by
  have hany : (lastBankEmission.output .container {}).toOption.any (fun out =>
      match out.artifact with
      | .container _ => true
      | _ => false) = true := by decide +kernel
  obtain ⟨out, hout, hkind⟩ := ok_of_any hany
  cases hartifact : out.artifact with
  | container bytes =>
    refine ⟨out, bytes, hout, hartifact, fun hread => ?_⟩
    have hr := (recovered_iff hout hartifact).1.mp hread
    exact hr.functions _ (List.mem_cons_self ..) rfl
  | _ => rw [hartifact] at hkind; cases hkind

end Codegen6502.Proofs.Emitting.Containers
