import Codegen6502.Proofs.Emitting.Containers
import Codegen6502.Proofs.Emitting.Encoding

/-!
# Which emissions have a container

The container gives the fields of a record fixed widths: an index and an addend are words, the
length of a name is a byte, the size of an object a word.  An emission whose code can be encoded has
a container exactly if its contents fit (`succeeds_bytes`).

That a computation succeeds (`Succeeds`) is followed through sequences and lists, so that each field
contributes one condition and each record the conditions of its fields.
-/

namespace Codegen6502.Proofs.Emitting.Acceptance

open Computations Container Containers Encoding

variable {α β : Type}

/-! ### Success -/

/-- A computation that gives a result. -/
def Succeeds (c : Compile α) : Prop := ∃ a, c = .ok a

theorem succeeds_ok (a : α) : Succeeds (.ok a : Compile α) := ⟨a, rfl⟩

theorem not_succeeds_error (e : CompileError) : ¬Succeeds (.error e : Compile α) :=
  fun ⟨_, h⟩ => by cases h

theorem succeeds_ite {p : Prop} [Decidable p] {a : α} {e : CompileError} :
    Succeeds (if p then .ok a else .error e) ↔ p := by
  split
  · exact iff_of_true (succeeds_ok a) ‹_›
  · exact iff_of_false (not_succeeds_error e) ‹_›

/-- One computation after another that does not depend on it. -/
theorem succeeds_bind {c : Compile α} {f : α → Compile β} {p : Prop}
    (h : ∀ a, Succeeds (f a) ↔ p) : Succeeds (c >>= f) ↔ Succeeds c ∧ p := by
  cases c with
  | ok a => exact (h a).trans (iff_and_self.mpr fun _ => succeeds_ok a)
  | error e => exact iff_of_false (not_succeeds_error e) fun hboth => not_succeeds_error e hboth.1

theorem succeeds_map {c : Compile α} {g : α → Compile β} (hg : ∀ a, Succeeds (g a)) :
    Succeeds (c >>= g) ↔ Succeeds c := by
  rw [succeeds_bind fun a => iff_true_intro (hg a), and_true]

theorem succeeds_mapM {f : α → Compile β} (as : List α) :
    Succeeds (as.mapM f) ↔ ∀ a ∈ as, Succeeds (f a) := by
  induction as with
  | nil => exact iff_of_true (succeeds_ok []) (by simp)
  | cons a rest ih =>
    rw [List.mapM_cons, List.forall_mem_cons, ← ih]
    exact succeeds_bind fun b => succeeds_map fun bs => succeeds_ok (b :: bs)

/-! ### Fields -/

/-- The number that stands beside the name in an address. -/
def addressAddend? : Address → Option Int32
  | .symbol _ addend => some addend
  | _ => none

/-- The number that stands beside the name in an operand. -/
def operandAddend? : Operand → Option Int32
  | .immediate (.symbol _ addend _) => some addend
  | .absolute a | .absoluteX a | .absoluteY a | .indirect a => addressAddend? a
  | _ => none

/-- The number that stands beside the name in a line. -/
def lineAddend? : Line → Option Int32
  | .op _ operand => operandAddend? operand
  | _ => none

/-- A number that a signed word holds. -/
def InWord (addend : Int32) : Prop := -0x8000 ≤ addend.toInt ∧ addend.toInt ≤ 0x7FFF

variable {t : NameTable} {given : List String} {e : Emission}

theorem succeeds_addendBytes (addend : Int32) : Succeeds (addendBytes addend) ↔ InWord addend := by
  unfold addendBytes InWord
  rw [succeeds_ite, Bool.and_eq_true, decide_eq_true_eq, decide_eq_true_eq]

theorem succeeds_nameBytes (name : String) :
    Succeeds (NameTable.nameBytes name) ↔ name.utf8ByteSize < 0x100 := succeeds_ite

/-- Every given name can be written exactly if the one that comes last can. -/
theorem succeeds_references (ht : Tabulates given t) :
    (∀ name ∈ given, Succeeds (t.reference name)) ↔ given.toFinset.card ≤ 0x10000 := by
  rw [← ht.size_eq, ← Array.length_toList]
  have hreference : ∀ {name : String} {i : ℕ}, t.names.toList[i]? = some name →
      (Succeeds (t.reference name) ↔ i < 0x10000) := by
    intro name i hget
    unfold NameTable.reference
    rw [(ht.position name i).mpr hget]
    exact succeeds_ite
  constructor
  · intro h
    by_contra hlarge
    have hget := List.getElem?_eq_getElem (not_le.mp hlarge)
    have hmem := (ht.mem _).mp (List.mem_of_getElem? hget)
    exact absurd ((hreference hget).mp (h _ hmem)) (lt_irrefl _)
  · intro h name hname
    obtain ⟨i, hi, hget⟩ := List.mem_iff_getElem.mp ((ht.mem name).mpr hname)
    exact (hreference (List.getElem?_eq_some_iff.mpr ⟨hi, hget⟩)).mpr (by omega)

/-! ### Records -/

/-- A name, if there is one, that has an index. -/
def Indexed (t : NameTable) (name? : Option String) : Prop :=
  ∀ name, name? = some name → Succeeds (t.reference name)

/-- An addend, if there is one, that a word holds. -/
def Small (addend? : Option Int32) : Prop := ∀ addend, addend? = some addend → InWord addend

theorem indexed_some {name : String} : Indexed t (some name) ↔ Succeeds (t.reference name) := by
  simp [Indexed]

theorem small_some {addend : Int32} : Small (some addend) ↔ InWord addend := by simp [Small]

theorem indexed_none : Indexed t none := fun _ h => by cases h

theorem small_none : Small none := fun _ h => by cases h

/-- A name with an addend behind it. -/
theorem succeeds_sum {name : String} {addend : Int32} {f : List UInt8 → List UInt8 → List UInt8} :
    Succeeds (do
      let index ← t.reference name
      let sum ← addendBytes addend
      return f index sum) ↔ Indexed t (some name) ∧ Small (some addend) := by
  rw [indexed_some, small_some, ← succeeds_addendBytes]
  exact succeeds_bind fun index => succeeds_map fun sum => succeeds_ok _

theorem succeeds_addressBytes (a : Address) :
    Succeeds (addressBytes t a) ↔ Indexed t (addressName? a) ∧ Small (addressAddend? a) := by
  cases a with
  | absolute | bankRelative => exact iff_of_true (succeeds_ok _) ⟨indexed_none, small_none⟩
  | symbol name addend => exact succeeds_sum
  | label name =>
    refine (succeeds_map fun index => succeeds_ok _).trans ?_
    exact ⟨fun h => ⟨indexed_some.mpr h, small_none⟩, fun h => indexed_some.mp h.1⟩

theorem succeeds_operandBytes {line : Line} {operand : Operand}
    (h : operand.isPreAllocation = false) : Succeeds (operandBytes t line operand) ↔
      Indexed t (operandName? operand) ∧ Small (operandAddend? operand) := by
  cases operand with
  | implied | accumulator | zeroPage | indirectY =>
    exact iff_of_true (succeeds_ok _) ⟨indexed_none, small_none⟩
  | immediate value =>
    cases value with
    | byte => exact iff_of_true (succeeds_ok _) ⟨indexed_none, small_none⟩
    | symbol => exact succeeds_sum
  | absolute a | absoluteX a | absoluteY a | indirect a => exact succeeds_addressBytes a
  | relative => exact ⟨fun h => ⟨indexed_some.mpr h, small_none⟩, fun h => indexed_some.mp h.1⟩
  | virtual | frame => cases h

/-- **A line has a record** exactly if its name has an index and its addend is small. -/
theorem succeeds_lineRecord {line : Line} (h : isEncodable line = true) :
    Succeeds (lineRecord t line) ↔ Indexed t (lineName? line) ∧ Small (lineAddend? line) := by
  cases line with
  | comment => exact iff_of_true (succeeds_ok _) ⟨indexed_none, small_none⟩
  | label =>
    refine (succeeds_map fun index => succeeds_ok _).trans ?_
    exact ⟨fun h => ⟨indexed_some.mpr h, small_none⟩, fun h => indexed_some.mp h.1⟩
  | op opcode operand =>
    have hpre : operand.isPreAllocation = false := by
      simp only [isEncodable, Bool.and_eq_true, Bool.not_eq_true'] at h
      exact h.1
    exact (succeeds_map fun bytes => succeeds_ok _).trans (succeeds_operandBytes hpre)

theorem succeeds_functionRecords {f : EmittedFunction} (h : Encodable f.code) :
    Succeeds (functionRecords t f) ↔ Succeeds (t.reference f.header.name) ∧
      ∀ line ∈ f.code, Indexed t (lineName? line) ∧ Small (lineAddend? line) := by
  refine succeeds_bind fun _ => (succeeds_map fun lines => succeeds_ok _).trans ?_
  rw [succeeds_mapM]
  exact forall₂_congr fun line hline => succeeds_lineRecord (h line hline)

theorem succeeds_dataRecord (o : DataObject) :
    Succeeds (dataRecord t o) ↔ o.size < 0x10000 ∧ Succeeds (t.reference o.name) := by
  have hrest : Succeeds (do
      return 4 :: (← t.reference o.name) ++ bankByte o.bank :: wordBytes (UInt16.ofNat o.size) ++
        o.bytes) ↔ Succeeds (t.reference o.name) := succeeds_map fun index => succeeds_ok _
  unfold dataRecord
  by_cases hlarge : o.size ≥ 0x10000
  · rw [if_pos hlarge]
    exact iff_of_false (not_succeeds_error _) fun h => absurd h.1 (not_lt.mpr hlarge)
  · rw [if_neg hlarge, and_iff_right (not_le.mp hlarge)]
    exact hrest

theorem succeeds_externalRecord (external : String × UInt16) :
    Succeeds (externalRecord t external) ↔ Succeeds (t.reference external.1) :=
  succeeds_map fun _ => succeeds_ok _

/-! ### Containers -/

/-- The addends of an emission are small. -/
def AddendsFit (e : Emission) : Prop :=
  ∀ f ∈ e.functions, ∀ line ∈ f.code, Small (lineAddend? line)

/-- An emission whose contents fit the fields of a container. -/
structure Fits (e : Emission) : Prop where
  count : (mentions e).toFinset.card ≤ 0x10000
  short : ∀ name ∈ mentions e, name.utf8ByteSize < 0x100
  addends : AddendsFit e
  sizes : ∀ o ∈ e.data, o.size < 0x10000

theorem forall_mentions {P : String → Prop} : (∀ name ∈ mentions e, P name) ↔
    (∀ f ∈ e.functions, P f.header.name ∧
      ∀ line ∈ f.code, ∀ name, lineName? line = some name → P name) ∧
      (∀ o ∈ e.data, P o.name) ∧ ∀ external ∈ e.externals.toList, P external.1 := by
  unfold mentions
  rw [← Std.TreeMap.map_fst_toList_eq_keys]
  simp only [List.forall_mem_append, List.forall_mem_map, List.mem_flatMap, List.mem_cons,
    List.mem_filterMap]
  constructor
  · rintro ⟨⟨hcode, hdata⟩, hexternals⟩
    refine ⟨fun f hf => ⟨hcode _ ⟨f, hf, .inl rfl⟩, ?_⟩, hdata, hexternals⟩
    intro line hline name hname
    exact hcode name ⟨f, hf, .inr ⟨line, hline, hname⟩⟩
  · rintro ⟨hcode, hdata, hexternals⟩
    refine ⟨⟨?_, hdata⟩, hexternals⟩
    rintro name ⟨f, hf, rfl | ⟨line, hline, hname⟩⟩
    · exact (hcode f hf).1
    · exact (hcode f hf).2 line hline name hname

theorem succeeds_tableBytes (ht : Tabulates given t) :
    Succeeds t.bytes ↔ ∀ name ∈ given, name.utf8ByteSize < 0x100 := by
  refine (succeeds_map fun names => succeeds_ok _).trans ?_
  rw [succeeds_mapM]
  exact forall_congr' fun name => imp_congr (ht.mem name) (succeeds_nameBytes name)

/-- **An emission whose code can be encoded has a container** exactly if its contents fit. -/
theorem succeeds_bytes (h : ∀ f ∈ e.functions, Encodable f.code) :
    Succeeds (Container.bytes e) ↔ Fits e := by
  have ht := tabulates (mentions e)
  have hparts : Succeeds (Container.bytes e) ↔
      (∀ f ∈ e.functions, Succeeds (functionRecords (NameTable.ofList (mentions e)) f)) ∧
      (∀ o ∈ e.data, Succeeds (dataRecord (NameTable.ofList (mentions e)) o)) ∧
      (∀ x ∈ e.externals.toList, Succeeds (externalRecord (NameTable.ofList (mentions e)) x)) ∧
      Succeeds (NameTable.ofList (mentions e)).bytes := by
    rw [← succeeds_mapM, ← succeeds_mapM, ← succeeds_mapM]
    exact succeeds_bind fun functions => succeeds_bind fun data => succeeds_bind fun externals =>
      succeeds_map fun names => succeeds_ok _
  have hindices := succeeds_references ht
  rw [forall_mentions] at hindices
  have hcode : (∀ f ∈ e.functions, Succeeds (functionRecords (NameTable.ofList (mentions e)) f)) ↔
      ∀ f ∈ e.functions, Succeeds ((NameTable.ofList (mentions e)).reference f.header.name) ∧
        ∀ line ∈ f.code, Indexed (NameTable.ofList (mentions e)) (lineName? line) ∧
          Small (lineAddend? line) :=
    forall₂_congr fun f hf => succeeds_functionRecords (h f hf)
  simp only [succeeds_dataRecord, succeeds_externalRecord, hcode, succeeds_tableBytes ht] at hparts
  rw [hparts]
  constructor
  · rintro ⟨hfunctions, hdata, hexternals, hshort⟩
    refine ⟨hindices.mp ⟨fun f hf => ?_, fun o ho => (hdata o ho).2, hexternals⟩, hshort, ?_,
      fun o ho => (hdata o ho).1⟩
    · exact ⟨(hfunctions f hf).1, fun line hline => ((hfunctions f hf).2 line hline).1⟩
    · exact fun f hf line hline => ((hfunctions f hf).2 line hline).2
  · rintro ⟨hcount, hshort, haddends, hsizes⟩
    obtain ⟨hfunctions, hdata, hexternals⟩ := hindices.mpr hcount
    refine ⟨fun f hf => ⟨(hfunctions f hf).1, fun line hline => ?_⟩,
      fun o ho => ⟨hsizes o ho, hdata o ho⟩, hexternals, hshort⟩
    exact ⟨(hfunctions f hf).2 line hline, haddends f hf line hline⟩

end Codegen6502.Proofs.Emitting.Acceptance
