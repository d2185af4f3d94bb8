import Codegen6502.Proofs.Calls.Emitted
import Codegen6502.Proofs.Emitting.FlatTargets
import Codegen6502.Proofs.Emitting.Loading
import Codegen6502.Proofs.Emitting.MemoryUse

/-!
# The table of names of a container

A container begins with the names that it mentions and their count, and its records refer to the
names by their positions.

* `Reader.recordIndices`: the indices of one record, read without a table;
* `Recorded`: the bytes of a container as a count, names and records with their indices; the names
  are distinct and stand in the order of their first use;
* `symbol_count_truthful_iff`: the count is the number of the names, and every index is smaller than
  it, exactly if there are fewer than 65536 names.  A container with 65536 names is made, and its
  count is 0.
-/

namespace Codegen6502.Proofs.Emitting.Containers.Reader

/-! ### Indices that are read -/

/-- Takes bytes without an index. -/
def skip (n : ℕ) : Reader (List UInt16) := do
  let _ ← take n
  return []

/-- Takes an index and some bytes behind it. -/
def index (behind : ℕ) : Reader (List UInt16) := do
  let i ← word
  let _ ← take behind
  return [i]

def addressIndices : Reader (List UInt16) := do
  match ← byte with
  | 0 => skip 2
  | 1 => index 2
  | 2 => skip 3
  | _ => failure

def immediateIndices : Reader (List UInt16) := do
  match ← byte with
  | 0 => skip 1
  | 1 | 2 => index 2
  | _ => failure

def operandIndices : Mode → Reader (List UInt16)
  | .implied | .accumulator => skip 0
  | .immediate => immediateIndices
  | .zeroPage | .indirectY => skip 1
  | .absolute | .absoluteX | .absoluteY | .indirect => addressIndices
  | .relative => index 0

/-- The indices of a record, its tag included. -/
def recordIndices : Reader (List UInt16) := do
  match ← byte with
  | 1 => index 1
  | 2 => index 0
  | 3 =>
    let _ ← byte
    let mode ← ofOption Mode.all[(← byte).toNat]?
    operandIndices mode
  | 4 =>
    let i ← word
    let _ ← byte
    let _ ← take (← word).toNat
    return [i]
  | 5 => index 2
  | _ => failure

end Codegen6502.Proofs.Emitting.Containers.Reader

namespace Codegen6502.Proofs.Emitting.SymbolCount

open Computations Container Containers

variable {e : Emission} {t : NameTable} {given : List String} {bytes bytes' : List UInt8}
  {names names' : List String}

/-! ### Indices that stand for names -/

/-- Indices into a table stand for names. -/
def StandFor (table : List String) (indices : List UInt16) (names : List String) : Prop :=
  indices.map (fun i => table[i.toNat]?) = names.map some

theorem StandFor.append {table : List String} {is is' : List UInt16} (h : StandFor table is names)
    (h' : StandFor table is' names') : StandFor table (is ++ is') (names ++ names') := by
  unfold StandFor at *
  rw [List.map_append, List.map_append, h, h']

theorem StandFor.lt {table : List String} {is : List UInt16} (h : StandFor table is names) :
    ∀ i ∈ is, i.toNat < table.length := by
  intro i hi
  have hmem : table[i.toNat]? ∈ names.map some := h ▸ List.mem_map_of_mem hi
  obtain ⟨name, -, hname⟩ := List.mem_map.mp hmem
  exact (List.getElem?_eq_some_iff.mp hname.symm).1

/-- A reader takes some bytes off the front, and the indices that it gives stand for names. -/
def Indexes (t : NameTable) (r : Reader (List UInt16)) (bytes : List UInt8) (names : List String) :
    Prop :=
  ∃ indices, Reads r bytes indices ∧ StandFor t.names.toList indices names

theorem Indexes.behind {α : Type} {r : Reader α} {f : α → Reader (List UInt16)} {a : α}
    (hr : Reads r bytes a) (h : Indexes t (f a) bytes' names) :
    Indexes t (r >>= f) (bytes ++ bytes') names :=
  let ⟨indices, hreads, hstand⟩ := h
  ⟨indices, hr.bind hreads, hstand⟩

theorem Indexes.behindByte {f : UInt8 → Reader (List UInt16)} {b : UInt8}
    (h : Indexes t (f b) bytes names) :
    Indexes t (Reader.byte >>= f) (b :: bytes) names :=
  .behind (reads_byte b) h

theorem indexes_skip {n : ℕ} (h : bytes.length = n) : Indexes t (Reader.skip n) bytes [] :=
  ⟨[], h ▸ (reads_take bytes).map (g := fun _ => []), rfl⟩

section Names

variable (ht : Tabulates given t)

include ht

/-- The bytes of a reference are the position of its name. -/
theorem reads_position {name : String} (h : t.reference name = .ok bytes) :
    ∃ i, Reads Reader.word bytes i ∧ t.names.toList[i.toNat]? = some name := by
  obtain ⟨i, hi, hindex, rfl⟩ := reference_eq_ok h
  refine ⟨_, reads_word _, ?_⟩
  rw [UInt16.toNat_ofNat_of_lt' hi]
  exact (ht.position name i).mp hindex

theorem indexes_index {name : String} {n : ℕ} (h : t.reference name = .ok bytes)
    (hbehind : bytes'.length = n) : Indexes t (Reader.index n) (bytes ++ bytes') [name] := by
  obtain ⟨i, hreads, hname⟩ := reads_position ht h
  have hrest := (reads_take bytes').map (g := fun _ => [i])
  rw [hbehind] at hrest
  exact ⟨[i], hreads.bind hrest, congrArg (· :: []) hname⟩

theorem indexes_alone {name : String} (h : t.reference name = .ok bytes) :
    Indexes t (Reader.index 0) bytes [name] :=
  List.append_nil bytes ▸ indexes_index ht h rfl

omit ht in
theorem length_addendBytes {addend : Int32} (h : addendBytes addend = .ok bytes) :
    bytes.length = 2 := by
  unfold addendBytes at h
  split at h <;> cases h
  rfl

theorem indexes_address {a : Address} (h : addressBytes t a = .ok bytes) :
    Indexes t Reader.addressIndices bytes (addressName? a).toList := by
  cases a with
  | absolute value =>
    cases h
    exact .behindByte (indexes_skip rfl)
  | symbol name addend =>
    obtain ⟨index, hindex, h⟩ := bind_eq_ok.mp h
    obtain ⟨sum, hsum, h⟩ := bind_eq_ok.mp h
    cases h
    exact .behindByte (indexes_index ht hindex (length_addendBytes hsum))
  | label name =>
    obtain ⟨index, hindex, h⟩ := bind_eq_ok.mp h
    cases h
    exact .behindByte (indexes_index ht hindex rfl)
  | bankRelative bank offset =>
    cases h
    exact .behindByte (indexes_skip rfl)

theorem indexes_immediate {value : Immediate} (h : immediateBytes t value = .ok bytes) :
    Indexes t Reader.immediateIndices bytes (operandName? (.immediate value)).toList := by
  cases value with
  | byte b =>
    cases h
    exact .behindByte (indexes_skip rfl)
  | symbol name addend half =>
    obtain ⟨index, hindex, h⟩ := bind_eq_ok.mp h
    obtain ⟨sum, hsum, h⟩ := bind_eq_ok.mp h
    cases h
    have hname := indexes_index ht hindex (length_addendBytes hsum)
    cases half with
    | lo => exact .behindByte hname
    | hi => exact .behindByte hname

theorem indexes_operand {line : Line} {operand : Operand}
    (h : operandBytes t line operand = .ok bytes) :
    Indexes t (Reader.operandIndices operand.mode) bytes (operandName? operand).toList := by
  cases operand with
  | implied | accumulator | zeroPage | indirectY => cases h; exact indexes_skip rfl
  | immediate value => exact indexes_immediate ht h
  | absolute a | absoluteX a | absoluteY a | indirect a => exact indexes_address ht h
  | relative label => exact indexes_alone ht h
  | virtual | frame => cases h

end Names

/-! ### Records -/

/-- Bytes are records, and the indices in them stand for names. -/
def Lists (t : NameTable) (bytes : List UInt8) (names : List String) : Prop :=
  ∃ indices : List (List UInt16), StandFor t.names.toList indices.flatten names ∧
    ∃ chunks : List (List UInt8), bytes = chunks.flatten ∧
      List.Forall₂ (fun is chunk => Reads Reader.recordIndices chunk is) indices chunks

namespace Lists

theorem nil : Lists t [] [] := ⟨[], rfl, [], rfl, .nil⟩

theorem single (h : Indexes t Reader.recordIndices bytes names) : Lists t bytes names :=
  let ⟨indices, hreads, hstand⟩ := h
  ⟨[indices], (List.flatten_singleton (l := indices)).symm ▸ hstand, [bytes],
    List.flatten_singleton.symm, .cons hreads .nil⟩

theorem append (h : Lists t bytes names) (h' : Lists t bytes' names') :
    Lists t (bytes ++ bytes') (names ++ names') := by
  obtain ⟨indices, hstand, chunks, rfl, hreads⟩ := h
  obtain ⟨indices', hstand', chunks', rfl, hreads'⟩ := h'
  refine ⟨indices ++ indices', ?_, chunks ++ chunks', List.flatten_append.symm,
    List.rel_append hreads hreads'⟩
  rw [List.flatten_append]
  exact hstand.append hstand'

/-- Several parts one behind the other. -/
theorem flatten {α : Type} {mentioned : α → List String} {as : List α} {parts : List (List UInt8)}
    (h : List.Forall₂ (fun a part => Lists t part (mentioned a)) as parts) :
    Lists t parts.flatten (as.flatMap mentioned) := by
  induction h with
  | nil => exact nil
  | cons hfirst _ ih => exact hfirst.append ih

end Lists

section Records

variable (ht : Tabulates given t)

include ht

theorem lists_line {line : Line} (h : lineRecord t line = .ok bytes) :
    Lists t bytes (lineName? line).toList := by
  cases line with
  | comment text => cases h; exact Lists.nil
  | label name =>
    obtain ⟨index, hindex, h⟩ := bind_eq_ok.mp h
    cases h
    exact Lists.single (.behindByte (indexes_alone ht hindex))
  | op opcode operand =>
    obtain ⟨rest, hrest, h⟩ := bind_eq_ok.mp h
    cases h
    have hmode : Mode.all[(modeNumber operand.mode).toNat]? = some operand.mode := by
      cases operand.mode <;> rfl
    exact Lists.single (.behindByte (.behindByte (.behindByte
      (.behind (reads_ofOption hmode) (indexes_operand ht hrest)))))

theorem lists_function {f : EmittedFunction} (h : functionRecords t f = .ok bytes) :
    Lists t bytes (f.header.name :: f.code.filterMap lineName?) := by
  obtain ⟨index, hindex, h⟩ := bind_eq_ok.mp h
  obtain ⟨lines, hlines, h⟩ := bind_eq_ok.mp h
  cases h
  have hstart : Lists t (1 :: index ++ [bankByte f.header.declaredBank]) [f.header.name] :=
    Lists.single (.behindByte (indexes_index ht hindex rfl))
  have hcode := Lists.flatten ((mapM_eq_ok hlines).imp fun _ _ hline => lists_line ht hline)
  rw [← List.filterMap_eq_flatMap_toList] at hcode
  exact hstart.append hcode

theorem lists_data {o : DataObject} (h : dataRecord t o = .ok bytes) : Lists t bytes [o.name] := by
  obtain ⟨hsmall, index, hindex, rfl⟩ := dataRecord_eq_ok h
  obtain ⟨i, hreads, hname⟩ := reads_position ht hindex
  have hsize : (UInt16.ofNat o.size).toNat = o.bytes.length := UInt16.toNat_ofNat_of_lt' hsmall
  have hbytes := (reads_take o.bytes).map (g := fun _ => [i])
  rw [← hsize] at hbytes
  have hcontent := (reads_word _).bind (f := fun n => do
    let _ ← Reader.take n.toNat
    return [i]) hbytes
  rw [List.append_assoc]
  refine Lists.single (.behindByte ⟨[i], ?_, congrArg (· :: []) hname⟩)
  exact hreads.bind ((reads_byte (bankByte o.bank)).bind hcontent)

theorem lists_external {external : String × UInt16} (h : externalRecord t external = .ok bytes) :
    Lists t bytes [external.1] := by
  obtain ⟨index, hindex, h⟩ := bind_eq_ok.mp h
  cases h
  exact Lists.single (.behindByte (indexes_index ht hindex rfl))

end Records

/-- **The records of a container** have an index for every mention of a name, in order. -/
theorem lists_bytes (h : Container.bytes e = .ok bytes) : ∃ table records : List UInt8,
    bytes = magic ++ [version] ++ table ++ records ++ [0] ∧
    (NameTable.ofList (mentions e)).bytes = .ok table ∧
    Lists (NameTable.ofList (mentions e)) records (mentions e) := by
  have ht := tabulates (mentions e)
  obtain ⟨functions, hfunctions, h⟩ := bind_eq_ok.mp h
  obtain ⟨data, hdata, h⟩ := bind_eq_ok.mp h
  obtain ⟨externals, hexternals, h⟩ := bind_eq_ok.mp h
  obtain ⟨table, htable, h⟩ := bind_eq_ok.mp h
  cases h
  refine ⟨table, functions.flatten ++ data.flatten ++ externals.flatten, ?_, htable, ?_⟩
  · simp only [List.append_assoc]
  · have h₁ := Lists.flatten ((mapM_eq_ok hfunctions).imp fun _ _ hf => lists_function ht hf)
    have h₂ := Lists.flatten ((mapM_eq_ok hdata).imp fun _ _ ho => lists_data ht ho)
    have h₃ := Lists.flatten ((mapM_eq_ok hexternals).imp fun _ _ hx => lists_external ht hx)
    rw [← List.map_eq_flatMap] at h₂ h₃
    rw [Std.TreeMap.map_fst_toList_eq_keys] at h₃
    exact (h₁.append h₂).append h₃

/-! ### The table -/

/-- **The names of a table** are the given ones in the order of their first use. -/
theorem names_ofList (given : List String) :
    (NameTable.ofList given).names.toList = given.eraseDups := by
  -- A name goes to the end of the table, so the names are taken from the end.
  induction given using List.reverseRecOn with
  | nil => rfl
  | append_singleton front name ih =>
    have hcontains : (NameTable.ofList front).indices.contains name ↔ name ∈ front :=
      (tabulates front).contains_iff
    rw [ofList_concat, List.eraseDups_append, ← ih, NameTable.insert]
    by_cases hold : name ∈ front
    · have hremoved : [name].removeAll front = [] := by simp [List.removeAll, hold]
      rw [if_pos (hcontains.mpr hold), hremoved, List.eraseDups_nil, List.append_nil]
    · have hkept : [name].removeAll front = [name] := by simp [List.removeAll, hold]
      rw [if_neg (hcontains.not.mpr hold), hkept, Array.toList_push]
      rfl

/-- The bytes of a container are its count, names, and records with the indices of names. -/
structure Recorded (e : Emission) (bytes : List UInt8) (count : UInt16) (names : List String)
    (indices : List (List UInt16)) : Prop where
  layout : ∃ table records,
    bytes = magic ++ [version] ++ wordBytes count ++ table ++ records ++ [0] ∧
    Reads (Reader.times Reader.name names.length) table names ∧
    Reads (Reader.times Reader.recordIndices indices.length) records indices
  distinct : names.Nodup
  firstUse : names = (mentions e).eraseDups
  /-- The indices stand for what is mentioned, in the order of the records. -/
  used : StandFor names indices.flatten (mentions e)

theorem recorded_of_bytes (h : Container.bytes e = .ok bytes) : ∃ names indices,
    Recorded e bytes (UInt16.ofNat names.length) names indices := by
  obtain ⟨_, records, rfl, htable, indices, hstand, chunks, rfl, hrecords⟩ := lists_bytes h
  obtain ⟨entries, hentries, htable⟩ := bind_eq_ok.mp htable
  cases htable
  have hnames := names_ofList (mentions e)
  refine ⟨_, indices, ⟨entries.flatten, chunks.flatten, ?_, ?_, reads_times hrecords⟩, ?_, hnames,
    hstand⟩
  · rw [Array.length_toList]
    simp only [List.append_assoc]
  · exact reads_times ((mapM_eq_ok hentries).imp fun _ _ hname => reads_name hname)
  · rw [hnames]
    exact Loading.nodup_eraseDups _

/-! ### The count -/

section Count

variable {names : List String} {indices : List (List UInt16)} {count : UInt16}

/-- An emission that has a container has at most 65536 names. -/
theorem Recorded.length_le (hr : Recorded e bytes count names indices)
    (h : Container.bytes e = .ok bytes) : names.length ≤ 0x10000 := by
  have hsize := size_le h
  rwa [← Array.length_toList, names_ofList, ← hr.firstUse] at hsize

/-- Every index is the position of a name. -/
theorem Recorded.index_lt (hr : Recorded e bytes count names indices) :
    ∀ i ∈ indices.flatten, i.toNat < names.length := hr.used.lt

/-- Where there is a name, there is an index. -/
theorem Recorded.exists_index (hr : Recorded e bytes count names indices) (h : names ≠ []) :
    ∃ i, i ∈ indices.flatten := by
  have hmentioned : mentions e ≠ [] := fun hnil => h (by rw [hr.firstUse, hnil, List.eraseDups_nil])
  have hlength := congrArg List.length hr.used
  rw [List.length_map, List.length_map] at hlength
  exact List.exists_mem_of_length_pos (hlength ▸ List.length_pos_iff.mpr hmentioned)

theorem Recorded.indices_lt_count_iff (hr : Recorded e bytes (UInt16.ofNat names.length) names indices)
    (h : names.length ≤ 0x10000) :
    (∀ i ∈ indices.flatten, i < UInt16.ofNat names.length) ↔ names.length < 0x10000 := by
  constructor
  · intro hall
    refine lt_of_le_of_ne h fun hfull => ?_
    have hnames : names ≠ [] := fun hnil => by
      rw [hnil] at hfull
      cases hfull
    obtain ⟨i, hi⟩ := hr.exists_index hnames
    have hlt := hall i hi
    rw [hfull] at hlt
    exact absurd hlt (UInt16.not_lt_zero (a := i))
  · intro hfew i hi
    rw [UInt16.lt_iff_toNat_lt, UInt16.toNat_ofNat_of_lt' hfew]
    exact hr.index_lt i hi

end Count

variable {map : MemoryMap} {out : Output}

/-- **The count of the names of a container** is their number exactly if there are fewer than 65536.
The names are distinct, in the order of their first use, and at most 65536; every index in a record
is the position of a name, and all indices are smaller than the count exactly if the count is
right. -/
theorem symbol_count_truthful_iff (h : e.output .container map = .ok out)
    (hartifact : out.artifact = .container bytes) :
    ∃ count names indices, Recorded e bytes count names indices ∧
      names.length ≤ 0x10000 ∧ count.toNat = names.length % 0x10000 ∧
      (∀ i ∈ indices.flatten, i.toNat < names.length) ∧
      (count.toNat = names.length ↔ names.length < 0x10000) ∧
      ((∀ i ∈ indices.flatten, i < count) ↔ names.length < 0x10000) := by
  have hbytes := bytes_of_output h hartifact
  obtain ⟨names, indices, hr⟩ := recorded_of_bytes hbytes
  have hle := hr.length_le hbytes
  have hcount : (UInt16.ofNat names.length).toNat = names.length % 0x10000 := UInt16.toNat_ofNat'
  refine ⟨_, names, indices, hr, hle, hcount, hr.index_lt, ?_, hr.indices_lt_count_iff hle⟩
  rw [hcount]
  omega

/-! ### One name too many -/

/-- The character of a digit. -/
def digit (d : ℕ) : Char := Char.ofNat (0x30 + d)

/-- A name of three digits to the base 41.  There are more than 65536 of them. -/
def nameOf (i : ℕ) : String := String.ofList [digit (i / 1681), digit (i / 41 % 41), digit (i % 41)]

/-- A function that is nothing but labels. -/
def manyLabels (n : ℕ) : Emission where
  functions := [{ header := { name := nameOf 0 }, code := (List.range n).map (.label ∘ nameOf) }]

theorem digit_inj {d d' : ℕ} (hd : d < 41) (hd' : d' < 41) (h : digit d = digit d') : d = d' := by
  have hvalid : ∀ {d : ℕ}, d < 41 → (digit d).toNat = 0x30 + d := fun hd => by
    rw [digit, Char.ofNat, dif_pos (Or.inl (by omega))]
    rfl
  have hnat := congrArg Char.toNat h
  rw [hvalid hd, hvalid hd'] at hnat
  omega

theorem nameOf_inj {i j : ℕ} (hi : i < 0x10000) (hj : j < 0x10000) (h : nameOf i = nameOf j) :
    i = j := by
  have hlist := String.ofList_injective h
  simp only [List.cons.injEq, and_true] at hlist
  obtain ⟨hhigh, hmiddle, hlow⟩ := hlist
  have h₁ := digit_inj (by omega) (by omega) hhigh
  have h₂ := digit_inj (Nat.mod_lt _ (by omega)) (Nat.mod_lt _ (by omega)) hmiddle
  have h₃ := digit_inj (Nat.mod_lt _ (by omega)) (Nat.mod_lt _ (by omega)) hlow
  omega

theorem utf8ByteSize_nameOf (i : ℕ) : (nameOf i).utf8ByteSize < 0x100 := by
  have hsize := fun c => Char.utf8Size_le_four c
  have h₁ := hsize (digit (i / 1681))
  have h₂ := hsize (digit (i / 41 % 41))
  have h₃ := hsize (digit (i % 41))
  simp only [nameOf, String.ofList_cons, String.ofList_nil, String.utf8ByteSize_append,
    String.utf8ByteSize_singleton, String.utf8ByteSize_empty]
  omega

section ManyLabels

variable {n : ℕ}

theorem nodup_names (h : n ≤ 0x10000) : ((List.range n).map nameOf).Nodup :=
  (List.nodup_map_iff_inj_on List.nodup_range).mpr fun _ hi _ hj =>
    nameOf_inj ((List.mem_range.mp hi).trans_le h) ((List.mem_range.mp hj).trans_le h)

theorem filterMap_labels {f : Line → Option String} (h : ∀ name, f (.label name) = some name) :
    ((List.range n).map (Line.label ∘ nameOf)).filterMap f = (List.range n).map nameOf := by
  rw [List.filterMap_map, ← List.filterMap_eq_map]
  exact List.filterMap_congr fun i _ => h (nameOf i)

theorem mentions_manyLabels : mentions (manyLabels n) = nameOf 0 :: (List.range n).map nameOf := by
  change [nameOf 0 :: ((List.range n).map (Line.label ∘ nameOf)).filterMap lineName?].flatten ++ [] ++
    [] = _
  rw [filterMap_labels fun _ => rfl]
  simp

theorem symbols_manyLabels : Calls.Emitted.symbols (manyLabels n) = (List.range n).map nameOf := by
  rw [Calls.Emitted.symbols, Calls.Emitted.labels_eq]
  change [((List.range n).map (Line.label ∘ nameOf)).filterMap Calls.Emitted.label?].flatten ++ [] ++
    [] = _
  rw [filterMap_labels fun _ => rfl]
  simp

/-- The first name is a label as well. -/
theorem card_manyLabels (hpos : 0 < n) (h : n ≤ 0x10000) :
    (mentions (manyLabels n)).toFinset.card = n := by
  have hfirst : nameOf 0 ∈ (List.range n).map nameOf :=
    List.mem_map_of_mem (List.mem_range.mpr hpos)
  rw [mentions_manyLabels, List.toFinset_cons, Finset.insert_eq_of_mem (List.mem_toFinset.mpr hfirst),
    List.toFinset_card_of_nodup (nodup_names h), List.length_map, List.length_range]

/-- Every line is a label. -/
theorem label_of_placed {areas : Layout.Areas} {l : Layout} {p : PlacedLine}
    (h : Placing.Placed areas (manyLabels n) l) (hp : p ∈ l.lines) : ∃ name, p.line = .label name := by
  have hline : (p.owner, p.line) ∈ (manyLabels n).lines := h.owners ▸ List.mem_map_of_mem hp
  obtain ⟨f, hf, hline⟩ := List.mem_flatMap.mp hline
  obtain rfl := List.mem_singleton.mp hf
  obtain ⟨line, hcode, heq⟩ := List.mem_map.mp hline
  obtain ⟨i, -, rfl⟩ := List.mem_map.mp hcode
  exact ⟨nameOf i, (Prod.mk.inj heq).2.symm⟩

/-- Labels refer to nothing, so nothing is missing. -/
theorem resolved_manyLabels {l : Layout} (h : Layout.ofFlat (manyLabels n) = .ok l) :
    l.table.checkResolved = .ok () := by
  obtain ⟨hplaced, -⟩ := Placing.placed_of_make h
  have hnone : l.table.references = [] := by
    refine List.eq_nil_iff_forall_not_mem.mpr fun r hr => ?_
    obtain ⟨p, hp, hrefers, -⟩ := (hplaced.references r).mp hr
    obtain ⟨name, hlabel⟩ := label_of_placed hplaced hp
    rw [Placing.referred?, hlabel] at hrefers
    cases hrefers
  have hunresolved : l.table.unresolved = [] := by rw [SymbolTable.unresolved, hnone, List.filter_nil]
  rw [SymbolTable.checkResolved, hunresolved, List.mergeSort_nil]
  rfl

theorem isLong_mark_nil (lines : List (FunctionHeader × Line)) :
    ∀ u ∈ Layout.mark lines [], u.isLong = false := by
  induction lines with
  | nil => exact fun u hu => (List.not_mem_nil hu).elim
  | cons first rest ih => exact List.forall_mem_cons.mpr ⟨rfl, ih⟩

/-- Labels take up no room. -/
theorem counted_manyLabels {l : Layout} (h : Layout.ofFlat (manyLabels n) = .ok l) :
    l.checkCounted = .ok () := by
  obtain ⟨hplaced, hmarked⟩ := Placing.placed_of_make h
  refine (MemoryUse.checkCounted_eq_ok_iff hplaced.inPlace).mpr fun t => ?_
  have hsize : ∀ p ∈ l.lines, p.size = 0 := fun p hp => by
    have hshort : p.isLong = false :=
      isLong_mark_nil (manyLabels n).lines p.toUnplacedLine (hmarked ▸ List.mem_map_of_mem hp)
    obtain ⟨name, hlabel⟩ := label_of_placed hplaced hp
    rw [UnplacedLine.size, hshort, hlabel]
    rfl
  have hlines : Placing.lineRoom t l.lines = 0 :=
    Placing.totalOf_eq_zero fun p hp => by rw [hsize p hp, ite_self]
  have hdata : l.data = [] := List.map_eq_nil_iff.mp hplaced.objects
  rw [hplaced.ends, hlines, hdata, Nat.zero_add]
  exact Nat.zero_lt_succ _

/-- Up to 65536 labels have a container. -/
theorem output_manyLabels (hpos : 0 < n) (h : n ≤ 0x10000) : ∃ out bytes,
    (manyLabels n).output .container {} = .ok out ∧ out.artifact = .container bytes := by
  have hlayout : ∃ l, Layout.ofFlat (manyLabels n) = .ok l := by
    rcases Calls.Emitted.outcome_make Layout.flat (manyLabels n) [] with ⟨-, hl⟩ | ⟨hagain, -⟩
    · exact hl
    · exact absurd (symbols_manyLabels ▸ nodup_names h) hagain
  obtain ⟨l, hl⟩ := hlayout
  have hlines : ∀ line ∈ (List.range n).map (Line.label ∘ nameOf), ∃ name, line = .label name :=
    fun line hline => by
      obtain ⟨i, -, rfl⟩ := List.mem_map.mp hline
      exact ⟨_, rfl⟩
  have hencodable : ∀ f ∈ (manyLabels n).functions, Encoding.Encodable f.code := fun f hf line hline => by
    obtain rfl := List.mem_singleton.mp hf
    obtain ⟨name, rfl⟩ := hlines line hline
    rfl
  have hfits : Acceptance.Fits (manyLabels n) := by
    refine ⟨(card_manyLabels hpos h).trans_le h, fun name hname => ?_, fun f hf line hline => ?_,
      fun o ho => (List.not_mem_nil ho).elim⟩
    · rw [mentions_manyLabels] at hname
      rcases List.mem_cons.mp hname with rfl | hlabel
      · exact utf8ByteSize_nameOf 0
      · obtain ⟨i, -, rfl⟩ := List.mem_map.mp hlabel
        exact utf8ByteSize_nameOf i
    · obtain rfl := List.mem_singleton.mp hf
      obtain ⟨name, rfl⟩ := hlines line hline
      exact Acceptance.small_none
  obtain ⟨bytes, hbytes⟩ := (Acceptance.succeeds_bytes hencodable).mpr hfits
  have hproduced : FlatTargets.produced .container (manyLabels n) l.table = .ok (.container bytes) := by
    rw [FlatTargets.produced, hbytes]
    rfl
  exact ⟨_, bytes, (FlatTargets.output_eq_ok rfl).mpr
    ⟨l, _, ⟨rfl, hl, counted_manyLabels hl, resolved_manyLabels hl⟩, hproduced, rfl⟩, rfl⟩

end ManyLabels

/-- **A container with 65536 names says that it has none**, and no index in its records is smaller
than their count. -/
theorem full_table_counted_none : ∃ out bytes names indices,
    (manyLabels 0x10000).output .container {} = .ok out ∧ out.artifact = .container bytes ∧
      Recorded (manyLabels 0x10000) bytes 0 names indices ∧ names.length = 0x10000 ∧
      ¬∀ i ∈ indices.flatten, i < 0 := by
  have hfull : 0x10000 ≤ 0x10000 := le_refl _
  obtain ⟨out, bytes, hout, hartifact⟩ := output_manyLabels (by omega) hfull
  obtain ⟨count, names, indices, hr, -, hcount, -, -, hbelow⟩ :=
    symbol_count_truthful_iff hout hartifact
  have hlength : names.length = 0x10000 := by
    have hset : names.toFinset = (mentions (manyLabels 0x10000)).toFinset := by
      ext name
      rw [List.mem_toFinset, List.mem_toFinset, hr.firstUse, List.mem_eraseDups]
    rw [← List.toFinset_card_of_nodup hr.distinct, hset, card_manyLabels (by omega) hfull]
  have hzero : count = 0 := by
    rw [hlength] at hcount
    exact UInt16.toNat_inj.mp hcount
  subst hzero
  refine ⟨out, bytes, names, indices, hout, hartifact, hr, hlength, ?_⟩
  rw [hbelow, hlength]
  exact lt_irrefl _

end Codegen6502.Proofs.Emitting.SymbolCount
