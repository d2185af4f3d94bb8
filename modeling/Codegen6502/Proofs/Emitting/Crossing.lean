import Codegen6502.Proofs.Emitting.Assembling

/-!
# Transfers and accesses across banks

Code of a bank may go to its own bank and to what is always mapped.  `reached?` is where the operand
of an instruction is in an image, and `Foreign` says that this is a bank other than the code's own.

The check that an image passes looks at symbols, and at offsets into a bank in the modes that access
memory directly.  It does not look at labels, which it takes for labels of the function at hand, nor
at pointers to jump through.  `foreign_iff`: these are the only ways into another bank (`Slips`).
-/

namespace Codegen6502.Proofs.Emitting.Crossing

open Computations Placing Assembling MachineCode

variable {map : MemoryMap} {e : Emission} {l : Layout} {image : Image} {code : List Piece}

/-! ### Where operands are -/

/-- The segment of the place that an address names. -/
def addressed? (i : Image) : Address → Option Segment
  | .absolute _ => some .absolute
  | .symbol name _ | .label name => i.segment? name
  | .bankRelative bank _ => some (.bank bank)

/-- The place that an instruction goes to or accesses by its operand.  A constant is no place, even
if it is made from an address. -/
def place? : Operand → Option Address
  | .absolute a | .absoluteX a | .absoluteY a | .indirect a => some a
  | .relative label => some (.label label)
  | _ => none

/-- The segment of that place. -/
def reached? (i : Image) (operand : Operand) : Option Segment := (place? operand).bind (addressed? i)

/-- A bank other than the segment of the code. -/
def Foreign (own s : Segment) : Prop := s.isBank = true ∧ s ≠ own

instance (own s : Segment) : Decidable (Foreign own s) :=
  inferInstanceAs (Decidable (s.isBank = true ∧ s ≠ own))

/-! ### Past the check -/

/-- A name stands in a bank: for a place in its code, or for an object. -/
def StandsIn (e : Emission) (bank : UInt8) (name : String) : Prop :=
  (∃ f ∈ e.functions, .label name ∈ f.code ∧ f.header.placement = .paged bank) ∨
    ∃ o ∈ e.data, o.name = name ∧ o.bank = .paged bank

/-- The operands with which code gets past the check: the label of another bank, and a pointer in
another bank. -/
def Slips (e : Emission) (own : Segment) (operand : Operand) : Prop :=
  ∃ bank, own ≠ .bank bank ∧ ((∃ name, place? operand = some (.label name) ∧ StandsIn e bank name) ∨
    ∃ offset, operand = .indirect (.bankRelative bank offset))

/-- What stands in a bank is what is defined there. -/
theorem standsIn_iff (h : Placed Layout.banked e l) {bank : UInt8} {name : String} {d : Definition}
    (hget : l.table.get? name = some d) : StandsIn e bank name ↔ d.segment = .bank bank := by
  have hcode : ∀ b, Layout.banked.code b = .bank bank ↔ b = .paged bank := by
    intro b
    cases b <;> simp [Layout.banked, Segment.ofCode]
  have hdata : ∀ b, Layout.banked.data b = .bank bank ↔ b = .paged bank := by
    intro b
    cases b <;> simp [Layout.banked, Segment.ofData]
  constructor
  · rintro (⟨f, hf, hlabel, hbank⟩ | ⟨o, ho, rfl, hbank⟩)
    · have hmem : (f.header, Line.label name) ∈ e.lines :=
        List.mem_flatMap.mpr ⟨f, hf, List.mem_map_of_mem hlabel⟩
      rw [← h.owners] at hmem
      obtain ⟨p, hp, heq⟩ := List.mem_map.mp hmem
      obtain ⟨howner, hline⟩ := Prod.mk.inj heq
      obtain ⟨front, back, hsplit⟩ := List.append_of_mem hp
      have hentry : (name, _) ∈ entries e l := List.mem_append_left _ (List.mem_append_left _
        (List.mem_filterMap.mpr ⟨p, hp, by rw [lineEntryOf, hline]⟩))
      rw [(h.table name _).mpr hentry] at hget
      cases hget
      change p.segment = _
      rw [(h.line front p back hsplit).1, howner, hcode, hbank]
    · rw [← h.objects] at ho
      obtain ⟨p, hp, rfl⟩ := List.mem_map.mp ho
      obtain ⟨front, back, hsplit⟩ := List.append_of_mem hp
      have hentry : dataEntry p ∈ entries e l :=
        List.mem_append_left _ (List.mem_append_right _ (List.mem_map_of_mem hp))
      rw [(h.table _ _).mpr hentry] at hget
      cases hget
      change p.segment = _
      rw [(h.object front p back hsplit).1, hdata, hbank]
  · intro hsegment
    rcases List.mem_append.mp ((h.table name d).mp hget) with hentry | hentry
    · rcases List.mem_append.mp hentry with hentry | hentry
      · obtain ⟨p, hp, hdefines⟩ := List.mem_filterMap.mp hentry
        obtain ⟨front, back, hsplit⟩ := List.append_of_mem hp
        cases hline : p.line with
        | op op operand => simp [lineEntryOf, hline] at hdefines
        | comment text => simp [lineEntryOf, hline] at hdefines
        | label other =>
          simp only [lineEntryOf, hline] at hdefines
          cases hdefines
          have hmem : (p.owner, Line.label name) ∈ e.lines := by
            rw [← h.owners, ← hline]
            exact List.mem_map_of_mem hp
          obtain ⟨f, hf, hmem⟩ := List.mem_flatMap.mp hmem
          obtain ⟨line, hline', heq⟩ := List.mem_map.mp hmem
          obtain ⟨howner, rfl⟩ := Prod.mk.inj heq
          refine Or.inl ⟨f, hf, hline', ?_⟩
          rw [howner, ← hcode, ← (h.line front p back hsplit).1]
          exact hsegment
      · obtain ⟨p, hp, heq⟩ := List.mem_map.mp hentry
        obtain ⟨front, back, hsplit⟩ := List.append_of_mem hp
        cases heq
        refine Or.inr ⟨p.object, h.objects ▸ List.mem_map_of_mem hp, rfl, ?_⟩
        rw [← hdata, ← (h.object front p back hsplit).1]
        exact hsegment
    · obtain ⟨x, -, heq⟩ := List.mem_map.mp hentry
      cases heq
      cases hsegment

/-! ### What the check finds -/

/-- The name of a place. -/
def name? : Address → Option String
  | .symbol name _ | .label name => some name
  | _ => none

theorem exists_symbol {t : SymbolTable} {name : String} {value : UInt16}
    (h : symbolAddress map t name = .ok value) : ∃ d, t.get? name = some d := by
  unfold symbolAddress at h
  cases hget : t.get? name with
  | none => rw [hget] at h; cases h
  | some d => exact ⟨d, rfl⟩

/-- The name in an address that was encoded is defined. -/
theorem exists_definition {t : SymbolTable} {a : Address} {value : UInt16} {name : String}
    (h : resolve map t a = .ok value) (hname : name? a = some name) : ∃ d, t.get? name = some d := by
  cases a with
  | symbol name' addend =>
    cases hname
    obtain ⟨base, hbase, -⟩ := bind_eq_ok.mp h
    exact exists_symbol hbase
  | label name' =>
    cases hname
    exact exists_symbol h
  | absolute value => cases hname
  | bankRelative bank offset => cases hname

/-- The place of an instruction that was encoded has an address. -/
theorem exists_resolve {t : SymbolTable} {p : PlacedLine} {op : Opcode} {operand : Operand}
    {a : Address} {bytes : List UInt8} (hline : p.line = .op op operand)
    (h : lineBytes map t p = .ok bytes) (hplace : place? operand = some a) :
    ∃ value, resolve map t a = .ok value := by
  unfold lineBytes at h
  rw [hline] at h
  cases operand with
  | relative label =>
    cases hplace
    obtain ⟨target, htarget, -⟩ := bind_eq_ok.mp h
    exact ⟨target, htarget⟩
  | absolute a' | absoluteX a' | absoluteY a' | indirect a' =>
    cases hplace
    obtain ⟨byte, -, h⟩ := bind_eq_ok.mp h
    obtain ⟨rest, hrest, -⟩ := bind_eq_ok.mp h
    obtain ⟨value, hvalue, -⟩ := bind_eq_ok.mp hrest
    exact ⟨value, hvalue⟩
  | _ => cases hplace

/-- **What the check looks at is not foreign.** -/
theorem not_foreign_of_checked {t : SymbolTable} {p : PlacedLine} {op : Opcode} {operand : Operand}
    (hline : p.line = .op op operand) (h : crossBankFault? t p = none) :
    (∀ bank, bankOf? operand = some bank → p.segment = .bank bank) ∧
      ∀ name d, accessedSymbol? operand = some name → t.get? name = some d →
        ¬ Foreign p.segment d.segment := by
  unfold crossBankFault? at h
  simp only [hline] at h
  split at h
  · cases h
  · rename_i hfar
    refine ⟨fun bank hbank => ?_, fun name d hname hget => ?_⟩
    · rw [hbank, Option.filter_some] at hfar
      by_contra hne
      simp [hne] at hfar
    · rintro ⟨hbank, hne⟩
      simp only [hname, hget, Option.bind_eq_bind, Option.bind_some, hbank, Bool.true_and,
        decide_eq_true_eq, hne, ne_eq, not_false_eq_true, if_true] at h
      split at h <;> cases h

theorem accessedSymbol?_of_place {operand : Operand} {name : String} {addend : Int32}
    (h : place? operand = some (.symbol name addend)) : accessedSymbol? operand = some name := by
  cases operand <;> cases h <;> rfl

theorem bankOf?_of_place {operand : Operand} {bank : UInt8} {offset : UInt16}
    (h : place? operand = some (.bankRelative bank offset)) :
    bankOf? operand = some bank ∨ operand = .indirect (.bankRelative bank offset) := by
  cases operand <;> cases h <;> simp [bankOf?]

/-- **Code gets into another bank only past the check**: the place that an instruction names by its
operand is somewhere in the image, and it is in a bank other than the code's own exactly if it is
the label of another bank or a pointer in another bank. -/
theorem foreign_iff {out : Output} (h : e.output .image map = .ok out)
    (himage : out.artifact = .image image) {f : EmittedFunction} (hf : f ∈ e.functions) {op : Opcode}
    {operand : Operand} (hline : .op op operand ∈ f.code) (hnames : (place? operand).isSome) :
    ∃ s, reached? image operand = some s ∧ (Foreign (.ofCode f.header.placement) s ↔
      Slips e (.ofCode f.header.placement) operand) := by
  obtain ⟨l, code, hassembly⟩ := assembly_of_output h himage
  obtain ⟨p, hp, -, hpline, hsegment, bytes, hbytes⟩ := exists_line hassembly hf hline
  have hchecked : crossBankFault? l.table p = none := by
    have hbanks := hassembly.banks
    unfold checkBanks at hbanks
    split at hbanks
    · cases hbanks
    · rename_i hnone
      exact List.findSome?_eq_none_iff.mp hnone p hp
  obtain ⟨hrelative, hsymbol⟩ := not_foreign_of_checked hpline hchecked
  rw [hsegment] at hrelative hsymbol
  obtain ⟨a, hplace⟩ := Option.isSome_iff_exists.mp hnames
  obtain ⟨value, hvalue⟩ := exists_resolve hpline hbytes hplace
  have hreached : reached? image operand = addressed? image a := by rw [reached?, hplace, Option.bind_some]
  rw [hreached]
  cases a with
  | absolute value =>
    refine ⟨.absolute, rfl, fun hforeign => absurd hforeign.1 Bool.false_ne_true, ?_⟩
    rintro ⟨bank, -, ⟨name, hname, -⟩ | ⟨offset, rfl⟩⟩
    · cases hplace.symm.trans hname
    · cases hplace
  | symbol name addend =>
    obtain ⟨d, hd⟩ := exists_definition hvalue rfl
    refine ⟨d.segment, segment?_image hassembly hd, fun hforeign => absurd hforeign
      (hsymbol name d (accessedSymbol?_of_place hplace) hd), ?_⟩
    rintro ⟨bank, -, ⟨name, hname, -⟩ | ⟨offset, rfl⟩⟩
    · cases hplace.symm.trans hname
    · cases hplace
  | label name =>
    obtain ⟨d, hd⟩ := exists_definition hvalue rfl
    have hstands : ∀ bank, _ ↔ d.segment = .bank bank := fun _ => standsIn_iff hassembly.placed hd
    refine ⟨d.segment, segment?_image hassembly hd, ?_, ?_⟩
    · rintro ⟨hbank, hne⟩
      cases hs : d.segment with
      | bank n => exact ⟨n, fun heq => hne (hs.trans heq.symm), Or.inl ⟨name, hplace, (hstands n).mpr hs⟩⟩
      | _ => rw [hs] at hbank; cases hbank
    · rintro ⟨bank, hne, ⟨name', hname', hin⟩ | ⟨offset, rfl⟩⟩
      · cases hplace.symm.trans hname'
        rw [(hstands bank).mp hin]
        exact ⟨rfl, Ne.symm hne⟩
      · cases hplace
  | bankRelative bank offset =>
    refine ⟨.bank bank, rfl, ?_, ?_⟩
    · rintro ⟨-, hne⟩
      rcases bankOf?_of_place hplace with hbank | rfl
      · exact absurd (hrelative bank hbank).symm hne
      · exact ⟨bank, Ne.symm hne, Or.inr ⟨offset, rfl⟩⟩
    · rintro ⟨bank', hne, ⟨name, hname, -⟩ | ⟨offset', rfl⟩⟩
      · cases hplace.symm.trans hname
      · cases hplace
        exact ⟨rfl, Ne.symm hne⟩

/-! ### A jump into another bank -/

/-- A function of bank 1 that jumps to a label. -/
def strayFunction : EmittedFunction where
  header := { name := "f", declaredBank := .paged 1, placement := .paged 1 }
  code := [.label "f", .jmp "there"]

/-- A function of bank 2 that has the label. -/
def strayTarget : EmittedFunction where
  header := { name := "g", declaredBank := .paged 2, placement := .paged 2 }
  code := [.label "g", .label "there", .bare .rts]

def strayEmission : Emission := { functions := [strayFunction, strayTarget] }

/-- **A jump from one bank into another is assembled.** -/
theorem stray_jump_leaves : ∃ out image, strayEmission.output .image {} = .ok out ∧
    out.artifact = .image image ∧
    ∃ s, reached? image (.label "there") = some s ∧ Foreign (.bank 1) s := by
  have hany : (strayEmission.output .image {}).toOption.any (fun out => match out.artifact with
      | .image _ => true
      | _ => false) = true := by decide +kernel
  obtain ⟨out, hout, hkind⟩ := ok_of_any hany
  cases himage : out.artifact with
  | image image =>
    obtain ⟨s, hs, hiff⟩ := foreign_iff hout himage (f := strayFunction) (List.mem_cons_self ..)
      (List.mem_cons_of_mem _ (List.mem_cons_self ..)) rfl
    refine ⟨out, image, hout, himage, s, hs, hiff.mpr ?_⟩
    refine ⟨2, by decide, Or.inl ⟨"there", rfl, Or.inl ⟨strayTarget, ?_, ?_, rfl⟩⟩⟩
    · simp [strayEmission]
    · simp [strayTarget]
  | _ => rw [himage] at hkind; cases hkind

end Codegen6502.Proofs.Emitting.Crossing
