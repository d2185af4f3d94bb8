import Codegen6502.Emission.Target
import Codegen6502.Proofs.Emitting.Placing
import Mathlib.Data.List.Forall2

/-!
# Images of emissions

What is known of an image that was assembled: `Assembly` has its layout and the bytes of its lines,
every check passed.

* `symbol_image`: the symbols of the image are the definitions of the layout;
* `segmentBytes_split`: the bytes of a line stand at its offset in its segment.
-/

namespace Codegen6502.Proofs.Emitting.Assembling

open Computations Placing MachineCode

variable {map : MemoryMap} {e : Emission} {l : Layout} {image : Image} {code : List Piece}

/-! ### Tables from lists -/

/-- What a table made from a list with different keys has. -/
theorem getElem?_ofList {α β : Type} [Ord α] [Std.TransOrd α] [Std.LawfulEqOrd α] [BEq α]
    [LawfulBEq α] [Std.LawfulBEqOrd α] {entries : List (α × β)}
    (h : (entries.map Prod.fst).Nodup) {a : α} {b : β} :
    (Std.TreeMap.ofList entries)[a]? = some b ↔ (a, b) ∈ entries := by
  have hpairs : entries.Pairwise fun x y => ¬ compare x.1 y.1 = .eq :=
    (List.pairwise_map.mp h).imp fun hne heq => hne (Std.LawfulEqCmp.eq_of_compare heq)
  have hget : ∀ b, (a, b) ∈ entries → (Std.TreeMap.ofList entries)[a]? = some b := fun b hb =>
    Std.TreeMap.getElem?_ofList_of_mem Std.ReflCmp.compare_self hpairs hb
  refine ⟨fun hsome => ?_, hget b⟩
  have hmem : a ∈ Std.TreeMap.ofList entries := by
    rw [Std.TreeMap.mem_iff_isSome_getElem?, hsome]
    rfl
  rw [Std.TreeMap.mem_ofList, List.contains_iff_mem] at hmem
  obtain ⟨⟨a', b'⟩, hb', rfl⟩ := List.mem_map.mp hmem
  rw [hget b' hb'] at hsome
  cases hsome
  exact hb'

theorem nodup_keys {α β : Type} [Ord α] [Std.TransOrd α] [Std.LawfulEqOrd α]
    (t : Std.TreeMap α β) : (t.toList.map Prod.fst).Nodup :=
  List.pairwise_map.mpr (Std.TreeMap.distinct_keys_toList.imp fun {x _} hne heq =>
    hne ((congrArg (compare x.1) heq.symm).trans Std.ReflCmp.compare_self))

/-! ### Images -/

/-- The pieces of the objects. -/
def dataPieces (l : Layout) : List Piece := l.data.map fun p => (p.segment, p.object.bytes)

/-- What is known of an image with its layout and the bytes of its lines. -/
structure Assembly (map : MemoryMap) (e : Emission) (image : Image) (l : Layout) (code : List Piece) :
    Prop where
  layout : Relaxation.layout e = .ok l
  placed : Placed Layout.banked e l
  settled : Settled l
  banks : checkBanks l = .ok ()
  room : ∀ s capacity, map.capacity? s = some capacity → l.ends.offset s ≤ capacity
  bytes : List.Forall₂ (fun p piece => piece.1 = p.segment ∧ lineBytes map l.table p = .ok piece.2)
    l.lines code
  image : image = imageOf map e l (code ++ dataPieces l)

theorem room_of_checkCapacity (h : checkCapacity map l = .ok ()) (hplace : InPlace l.ends)
    {s : Segment} {capacity : ℕ} (hs : map.capacity? s = some capacity) :
    l.ends.offset s ≤ capacity := by
  have hall : ∀ sizes : List (Segment × ℕ), sizes.forM (checkSegment map l) = .ok () →
      ∀ entry ∈ sizes, checkSegment map l entry = .ok () := by
    intro sizes
    induction sizes with
    | nil => simp
    | cons first rest ih =>
      intro hforM entry hentry
      obtain ⟨⟨⟩, hfirst, hrest⟩ := bind_eq_ok.mp hforM
      rcases List.mem_cons.mp hentry with rfl | hmem
      · exact hfirst
      · exact ih hrest entry hmem
  by_cases hzero : l.ends.offset s = 0
  · omega
  · have hsegment := hall _ h _ (hplace.mem_sizes hzero)
    unfold checkSegment at hsegment
    simp only [hs] at hsegment
    split at hsegment
    · assumption
    · cases hsegment

/-- **What is known of an image** that a target has made. -/
theorem assembly_of_output {out : Output} (h : e.output .image map = .ok out)
    (himage : out.artifact = .image image) : ∃ l code, Assembly map e image l code := by
  unfold Emission.output at h
  obtain ⟨-, -, h⟩ := bind_eq_ok.mp h
  obtain ⟨a, ha, h⟩ := bind_eq_ok.mp h
  cases h
  cases himage
  unfold assemble at ha
  obtain ⟨l, hl, ha⟩ := bind_eq_ok.mp ha
  obtain ⟨⟨⟩, -, ha⟩ := bind_eq_ok.mp ha
  obtain ⟨⟨⟩, -, ha⟩ := bind_eq_ok.mp ha
  obtain ⟨⟨⟩, hbanks, ha⟩ := bind_eq_ok.mp ha
  obtain ⟨⟨⟩, hcapacity, ha⟩ := bind_eq_ok.mp ha
  obtain ⟨code, hcode, ha⟩ := bind_eq_ok.mp ha
  cases ha
  obtain ⟨hplaced, hsettled⟩ := settled_of_layout hl
  refine ⟨l, code, hl, hplaced, hsettled, hbanks, fun s capacity hs =>
    room_of_checkCapacity hcapacity hplaced.inPlace hs, (mapM_eq_ok hcode).imp ?_, rfl⟩
  intro p piece hp
  obtain ⟨bytes, hbytes, hpiece⟩ := bind_eq_ok.mp hp
  cases hpiece
  exact ⟨rfl, hbytes⟩

section Symbols

variable (h : Assembly map e image l code)

include h

/-- **The symbols of an image** are the definitions of its layout. -/
theorem symbol_image {name : String} {s : ImageSymbol} : image.symbols[name]? = some s ↔
    ∃ d, l.table.get? name = some d ∧ s = ⟨d.segment, map.address d⟩ := by
  have hkeys : ((l.table.definitions.toList.map fun x =>
      (x.1, (⟨x.2.segment, map.address x.2⟩ : ImageSymbol))).map Prod.fst).Nodup := by
    rw [List.map_map]
    exact nodup_keys l.table.definitions
  rw [h.image]
  change (Std.TreeMap.ofList (l.table.definitions.toList.map fun x =>
      (x.1, (⟨x.2.segment, map.address x.2⟩ : ImageSymbol))))[name]? = some s ↔ _
  rw [getElem?_ofList hkeys, List.mem_map]
  constructor
  · rintro ⟨⟨name', d⟩, hmem, heq⟩
    cases heq
    exact ⟨d, Std.TreeMap.mem_toList_iff_getElem?_eq_some.mp hmem, rfl⟩
  · rintro ⟨d, hget, rfl⟩
    exact ⟨(name, d), Std.TreeMap.mem_toList_iff_getElem?_eq_some.mpr hget, rfl⟩

theorem segment?_image {name : String} {d : Definition} (hget : l.table.get? name = some d) :
    image.segment? name = some d.segment := by
  unfold Image.segment?
  rw [(symbol_image h).mpr ⟨d, hget, rfl⟩]
  rfl

theorem address?_image {name : String} {d : Definition} (hget : l.table.get? name = some d) :
    image.address? name = some (map.address d) := by
  unfold Image.address?
  rw [(symbol_image h).mpr ⟨d, hget, rfl⟩]
  rfl

/-- Every line of an emission has been placed and encoded. -/
theorem exists_line {f : EmittedFunction} (hf : f ∈ e.functions) {line : Line}
    (hline : line ∈ f.code) : ∃ p ∈ l.lines, p.owner = f.header ∧ p.line = line ∧
      p.segment = .ofCode f.header.placement ∧ ∃ bytes, lineBytes map l.table p = .ok bytes := by
  have hmem : (f.header, line) ∈ e.lines :=
    List.mem_flatMap.mpr ⟨f, hf, List.mem_map_of_mem hline⟩
  rw [← h.placed.owners] at hmem
  obtain ⟨p, hp, heq⟩ := List.mem_map.mp hmem
  obtain ⟨howner, rfl⟩ := Prod.mk.inj heq
  obtain ⟨front, back, hsplit⟩ := List.append_of_mem hp
  obtain ⟨i, hi, rfl⟩ := List.getElem_of_mem hp
  have hi' : i < code.length := h.bytes.length_eq ▸ hi
  refine ⟨_, hp, howner, rfl, ?_, _, (h.bytes.get hi hi').2⟩
  rw [← howner]
  exact (h.placed.line front _ back hsplit).1

end Symbols

/-! ### The bytes of segments -/

theorem forall₂_split {α β : Type} {R : α → β → Prop} {a : α} {back : List α} :
    ∀ {front : List α} {bs : List β}, List.Forall₂ R (front ++ a :: back) bs →
      ∃ front' b back', bs = front' ++ b :: back' ∧ List.Forall₂ R front front' ∧ R a b ∧
        List.Forall₂ R back back'
  | [], _, .cons hab hrest => ⟨[], _, _, rfl, .nil, hab, hrest⟩
  | _ :: _, _, .cons hfirst hrest => by
    obtain ⟨front', b, back', rfl, hfront, hab, hback⟩ := forall₂_split hrest
    exact ⟨_ :: front', b, back', rfl, .cons hfirst hfront, hab, hback⟩

theorem segmentBytes_append (front back : List Piece) (s : Segment) :
    segmentBytes (front ++ back) s = segmentBytes front s ++ segmentBytes back s := by
  simp [segmentBytes]

theorem segmentBytes_cons (piece : Piece) (rest : List Piece) (s : Segment) :
    segmentBytes (piece :: rest) s =
      (if piece.1 = s then piece.2 else []) ++ segmentBytes rest s := by
  unfold segmentBytes
  by_cases h : piece.1 = s <;> simp [h]

theorem length_operandBytes {t : SymbolTable} {line : Line} {operand : Operand} {bytes : List UInt8}
    (h : operandBytes map t line operand = .ok bytes) :
    bytes.length + 1 = operand.mode.length.toNat := by
  cases operand with
  | immediate i =>
    cases i with
    | byte b => cases h; rfl
    | symbol name addend half =>
      obtain ⟨value, -, h⟩ := bind_eq_ok.mp h
      cases h
      rfl
  | absolute a | absoluteX a | absoluteY a | indirect a =>
    obtain ⟨value, -, h⟩ := bind_eq_ok.mp h
    cases h
    rfl
  | implied | accumulator | zeroPage cell | indirectY cell => cases h; rfl
  | relative label | virtual v | frame offset => cases h

theorem length_shortBranch {op : Opcode} {pc target : UInt16} {bytes : List UInt8}
    (h : shortBranch op pc target = .ok bytes) : bytes.length = 2 := by
  obtain ⟨byte, -, h⟩ := bind_eq_ok.mp h
  cases h
  rfl

theorem length_longBranch {op : Opcode} {target : UInt16} {bytes : List UInt8}
    (h : longBranch op target = .ok bytes) : bytes.length = longBranchSize := by
  unfold longBranch at h
  split at h
  · obtain ⟨byte, -, h⟩ := bind_eq_ok.mp h
    obtain ⟨byte', -, h⟩ := bind_eq_ok.mp h
    cases h
    rfl
  · cases h

/-- **The bytes of a line** take up the room that the layout gives them. -/
theorem length_lineBytes {t : SymbolTable} {p : PlacedLine} {bytes : List UInt8}
    (hlong : p.isLong = true → Relaxation.isBranch p.line = true)
    (h : lineBytes map t p = .ok bytes) : bytes.length = p.size := by
  unfold lineBytes at h
  unfold UnplacedLine.size
  split at h
  · rename_i op label hline
    obtain ⟨target, -, h⟩ := bind_eq_ok.mp h
    split at h
    · rename_i hp
      rw [if_pos hp, length_longBranch h]
    · rename_i hp
      rw [if_neg hp, length_shortBranch h, hline]
      rfl
  · rename_i op operand hrelative hline
    obtain ⟨byte, -, h⟩ := bind_eq_ok.mp h
    obtain ⟨rest, hrest, h⟩ := bind_eq_ok.mp h
    cases h
    have hshort : ¬ p.isLong = true := by
      intro hp
      have hbranch := hlong hp
      rw [hline] at hbranch
      cases operand <;> first | exact absurd hbranch Bool.false_ne_true | exact hrelative _ rfl
    rw [if_neg hshort, hline]
    exact length_operandBytes hrest
  · rename_i hop
    have hshort : ¬ p.isLong = true := by
      intro hp
      have hbranch := hlong hp
      cases hline : p.line with
      | op op operand => exact hop op operand hline
      | label name => rw [hline] at hbranch; cases hbranch
      | comment text => rw [hline] at hbranch; cases hbranch
    cases h
    rw [if_neg hshort]
    cases hline : p.line with
    | op op operand => exact absurd hline (hop op operand)
    | label name => rfl
    | comment text => rfl

/-- The code of a segment is as long as its lines need. -/
theorem length_segmentBytes {lines : List PlacedLine} {t : SymbolTable}
    (hlong : ∀ p ∈ lines, p.isLong = true → Relaxation.isBranch p.line = true)
    (h : List.Forall₂ (fun p piece => piece.1 = p.segment ∧ lineBytes map t p = .ok piece.2)
      lines code) (s : Segment) : (segmentBytes code s).length = lineRoom s lines := by
  induction h with
  | nil => rfl
  | @cons p piece lines code hp _ ih =>
    have hrest := ih fun q hq => hlong q (List.mem_cons_of_mem _ hq)
    have hfirst := length_lineBytes (hlong p (List.mem_cons_self ..)) hp.2
    have hroom : lineRoom s (p :: lines) = (if p.segment = s then p.size else 0) + lineRoom s lines :=
      rfl
    rw [segmentBytes_cons, List.length_append, hrest, hp.1, hroom]
    split <;> simp [hfirst]

/-- The bytes of objects are as many as the objects need. -/
theorem length_objects (s : Segment) (data : List PlacedData) :
    (segmentBytes (data.map fun p => (p.segment, p.object.bytes)) s).length = dataRoom s data := by
  induction data with
  | nil => rfl
  | cons p rest ih =>
    have hroom : dataRoom s (p :: rest) =
        (if p.segment = s then p.object.size else 0) + dataRoom s rest := rfl
    rw [List.map_cons, segmentBytes_cons, List.length_append, ih, hroom]
    split <;> rfl

/-- **The bytes of a line stand at its offset** in its segment. -/
theorem segmentBytes_split (h : Assembly map e image l code) {front back : List PlacedLine}
    {p : PlacedLine} (hsplit : l.lines = front ++ p :: back) :
    ∃ bytes before behind, lineBytes map l.table p = .ok bytes ∧ bytes.length = p.size ∧
      before.length = p.offset ∧
      segmentBytes (code ++ dataPieces l) p.segment = before ++ bytes ++ behind := by
  have hbytes := h.bytes
  rw [hsplit] at hbytes
  obtain ⟨codeFront, piece, codeBack, rfl, hfront, hp, -⟩ := forall₂_split hbytes
  have hlong : ∀ q ∈ front ++ p :: back, q.isLong = true → Relaxation.isBranch q.line = true :=
    fun q hq => h.settled.branches q (hsplit ▸ hq)
  refine ⟨piece.2, segmentBytes codeFront p.segment,
    segmentBytes codeBack p.segment ++ segmentBytes (dataPieces l) p.segment, hp.2, ?_, ?_, ?_⟩
  · exact length_lineBytes (hlong p (by simp)) hp.2
  · rw [length_segmentBytes (fun q hq => hlong q (List.mem_append_left _ hq)) hfront,
      (h.placed.line front p back hsplit).2]
  · rw [segmentBytes_append, segmentBytes_append, segmentBytes_cons, if_pos hp.1]
    simp

end Codegen6502.Proofs.Emitting.Assembling
