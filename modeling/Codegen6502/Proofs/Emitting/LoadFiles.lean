import Codegen6502.Proofs.Emitting.Assembling
import Codegen6502.Proofs.Processor.Fetching
import Mathlib.Logic.Function.Basic

/-!
# Loading binary-load files

A reader of binary-load files, a loader that stores their blocks and lets the select register switch
the bank behind the window, and what they make of the file of an image.

* `blocks?`, `readFile?`: the blocks of a file, segment by segment;
* `Loaded`, `load`: what a loader has stored, in memory and in each bank;
* `binaryLoad_eq_ok`: there is a file unless a segment ends behind the last address;
* `file_loads`: loading the file stores the bytes of the image, each at its address, and nothing
  else.

The end of a segment is counted in words of 32 bits, so all of this is about images whose segments
end below `2 ^ 32` (`Counted`), and the bytes of a bank reach it only through the window
(`Separate.banks`).  `stray_bank_lost` shows both to be needed.
-/

namespace Codegen6502.Proofs.Emitting.LoadFiles

open Computations Assembling Image
open Processor.Fetching (word_bytes)

variable {i : Image} {s : SegmentImage} {a : UInt16}

/-! ### Reading files -/

/-- The blocks that bytes stand for: first address, last address, and the bytes between. -/
def blocks? : List UInt8 → Option (List SegmentImage)
  | [] => some []
  | lo :: hi :: lo' :: hi' :: rest =>
    let size := (word lo' hi').toNat + 1 - (word lo hi).toNat
    if word lo hi ≤ word lo' hi' ∧ size ≤ rest.length then
      (blocks? (rest.drop size)).map (⟨word lo hi, rest.take size⟩ :: ·)
    else none
  | _ => none
termination_by bytes => bytes.length
decreasing_by
  rw [List.length_drop]
  simp only [List.length_cons]
  omega

/-- The blocks of a file: `$FFFF` comes first. -/
def readFile? : List UInt8 → Option (List SegmentImage)
  | 0xFF :: 0xFF :: rest => blocks? rest
  | _ => none

/-! ### Bytes of segments -/

/-- A segment has a byte at an address. -/
def Covers (s : SegmentImage) (a : UInt16) : Prop :=
  s.origin.toNat ≤ a.toNat ∧ a.toNat < s.origin.toNat + s.bytes.length

/-- The byte of a segment at an address. -/
def byteAt? (s : SegmentImage) (a : UInt16) : Option UInt8 :=
  if s.origin.toNat ≤ a.toNat then s.bytes[a.toNat - s.origin.toNat]? else none

/-- A segment with bytes that ends behind the last address. -/
def RunsPast (s : SegmentImage) : Prop :=
  s.bytes ≠ [] ∧ 0x10000 < s.origin.toNat + s.bytes.length

instance (s : SegmentImage) : Decidable (RunsPast s) := inferInstanceAs (Decidable (_ ∧ _))

theorem byteAt?_eq_none (h : ¬Covers s a) : byteAt? s a = none := by
  unfold byteAt?
  split
  · rename_i hle
    exact List.getElem?_eq_none (by have := not_and.mp h hle; omega)
  · rfl

theorem not_covers_nil (origin a : UInt16) : ¬Covers ⟨origin, []⟩ a := fun h =>
  absurd h.2 (not_lt.mpr h.1)

theorem byteAt?_nil (origin a : UInt16) : byteAt? ⟨origin, []⟩ a = none :=
  byteAt?_eq_none (not_covers_nil origin a)

theorem not_runsPast (h : ¬RunsPast s) : s.bytes = [] ∨ s.origin.toNat + s.bytes.length ≤ 0x10000 := by
  by_cases hempty : s.bytes = []
  · exact Or.inl hempty
  · exact Or.inr (not_lt.mp fun hlt => h ⟨hempty, hlt⟩)

/-- The first byte of a segment, and the others. -/
theorem byteAt?_cons {origin : UInt16} {b : UInt8} {rest : List UInt8}
    (h : origin.toNat + (rest.length + 1) ≤ 0x10000) (a : UInt16) :
    byteAt? ⟨origin, b :: rest⟩ a = if a = origin then some b else byteAt? ⟨origin + 1, rest⟩ a := by
  by_cases hsame : a = origin
  · subst hsame
    simp [byteAt?]
  rw [if_neg hsame]
  have hne : a.toNat ≠ origin.toNat := fun heq => hsame (UInt16.toNat_inj.mp heq)
  cases rest with
  | nil =>
    rw [byteAt?_nil]
    refine byteAt?_eq_none fun hcovers => hne ?_
    have := hcovers.1
    have := hcovers.2
    simp only [List.length_cons, List.length_nil] at *
    omega
  | cons c rest =>
    have hnext : (origin + 1).toNat = origin.toNat + 1 := by
      rw [List.length_cons] at h
      rw [UInt16.toNat_add]
      change (origin.toNat + 1) % 65536 = _
      omega
    simp only [byteAt?, hnext]
    by_cases hle : origin.toNat ≤ a.toNat
    · have hindex : a.toNat - origin.toNat = (a.toNat - (origin.toNat + 1)) + 1 := by omega
      rw [if_pos hle, if_pos (by omega), hindex, List.getElem?_cons_succ]
    · rw [if_neg hle, if_neg (by omega)]

/-- The first address of a segment is in it, and so are those of its other bytes. -/
theorem Covers.cons {origin : UInt16} {b : UInt8} {rest : List UInt8}
    (h : origin.toNat + (rest.length + 1) ≤ 0x10000) :
    Covers ⟨origin, b :: rest⟩ origin ∧
      ∀ a, Covers ⟨origin + 1, rest⟩ a → Covers ⟨origin, b :: rest⟩ a := by
  refine ⟨⟨le_rfl, by simp⟩, fun a ⟨hle, hlt⟩ => ?_⟩
  cases rest with
  | nil => exact absurd hlt (not_lt.mpr hle)
  | cons c rest =>
    have hnext : (origin + 1).toNat = origin.toNat + 1 := by
      rw [List.length_cons] at h
      rw [UInt16.toNat_add]
      change (origin.toNat + 1) % 65536 = _
      omega
    simp only [Covers, List.length_cons, hnext] at hle hlt ⊢
    omega

/-! ### Writing files -/

/-- The bytes of a block. -/
def blockBytes (s : SegmentImage) : List UInt8 :=
  if s.bytes = [] then []
  else wordBytes s.origin ++ wordBytes (UInt16.ofNat (s.origin.toNat + s.bytes.length - 1)) ++ s.bytes

/-- The blocks of a bank: one that selects it, and its bytes. -/
def bankPieces (select : UInt16) (bank : UInt8 × SegmentImage) : List SegmentImage :=
  if bank.2.bytes = [] then [] else [⟨select, [bank.1]⟩, bank.2]

/-- The blocks of an image, those without bytes included. -/
def pieces (i : Image) : List SegmentImage :=
  i.common :: i.data :: i.banks.toList.flatMap (bankPieces i.bankSelect)

/-- The segments of an image. -/
def segments (i : Image) : List SegmentImage := i.common :: i.data :: i.banks.toList.map (·.2)

/-- The end of a segment is a word of 32 bits. -/
def Counted (s : SegmentImage) : Prop := s.origin.toNat + s.bytes.length < 0x100000000

instance (s : SegmentImage) : Decidable (Counted s) := inferInstanceAs (Decidable (_ < _))

theorem last_of_counted (hempty : s.bytes ≠ []) (h : Counted s) :
    (addLongs s.origin.toUInt32 (UInt32.ofNat s.bytes.length) >>= (subtractLongs · 1)) =
      .ok (UInt32.ofNat (s.origin.toNat + s.bytes.length - 1)) := by
  have hpos := List.length_pos_iff.mpr hempty
  have hone : (1 : UInt32).toNat = 1 := rfl
  have hlength : (UInt32.ofNat s.bytes.length).toNat = s.bytes.length :=
    UInt32.toNat_ofNat_of_lt' (lt_of_le_of_lt (Nat.le_add_left ..) h)
  have hsum : s.origin.toUInt32.toNat + (UInt32.ofNat s.bytes.length).toNat =
      s.origin.toNat + s.bytes.length := by rw [hlength, UInt16.toNat_toUInt32]
  have hstop : (s.origin.toUInt32 + UInt32.ofNat s.bytes.length).toNat =
      s.origin.toNat + s.bytes.length := by
    rw [UInt32.toNat_add, hsum, Nat.mod_eq_of_lt h]
  have hle : 1 ≤ s.origin.toUInt32 + UInt32.ofNat s.bytes.length := by
    rw [UInt32.le_iff_toNat_le, hstop]
    omega
  rw [addLongs_of_lt (hsum ▸ h)]
  change subtractLongs _ 1 = _
  rw [subtractLongs_of_le hle, Except.ok.injEq, ← UInt32.toNat_inj, UInt32.toNat_sub_of_le _ _ hle,
    hstop, hone, UInt32.toNat_ofNat_of_lt' (lt_of_le_of_lt (Nat.sub_le ..) h)]

theorem block_eq_ok {bytes : List UInt8} (h : Counted s) :
    block s = .ok bytes ↔ ¬RunsPast s ∧ bytes = blockBytes s := by
  unfold block blockBytes RunsPast
  by_cases hempty : s.bytes = []
  · simp [hempty, eq_comm]
  · have hpos := List.length_pos_iff.mpr hempty
    have hlast : UInt32.ofNat (s.origin.toNat + s.bytes.length - 1) ≤ 0xFFFF ↔
        ¬0x10000 < s.origin.toNat + s.bytes.length := by
      have hword : (UInt32.ofNat (s.origin.toNat + s.bytes.length - 1)).toNat =
          s.origin.toNat + s.bytes.length - 1 :=
        UInt32.toNat_ofNat_of_lt' (lt_of_le_of_lt (Nat.sub_le ..) h)
      have htop : (0xFFFF : UInt32).toNat = 0xFFFF := rfl
      rw [UInt32.le_iff_toNat_le, hword, htop]
      omega
    rw [if_neg (by simpa using hempty), ← bind_assoc, last_of_counted hempty h]
    change (if UInt32.ofNat (s.origin.toNat + s.bytes.length - 1) ≤ 0xFFFF then _ else _) = _ ↔ _
    simp only [hlast, hempty, if_false, ne_eq, not_false_eq_true, true_and]
    split
    · rename_i hfits
      simp [hfits, UInt32.toUInt16_ofNat', eq_comm]
    · rename_i hpast
      simp [hpast]

/-- The block that selects a bank is one byte, which is in memory. -/
theorem not_runsPast_select (select : UInt16) (n : UInt8) : ¬RunsPast ⟨select, [n]⟩ := fun h => by
  have hlt := select.toNat_lt
  have hpast := h.2
  simp only [List.length_singleton] at hpast
  omega

theorem counted_select (select : UInt16) (n : UInt8) : Counted ⟨select, [n]⟩ := by
  have hlt := select.toNat_lt
  simp only [Counted, List.length_singleton]
  omega

theorem bankBlocks_eq_ok {select : UInt16} {bank : UInt8 × SegmentImage} {bytes : List UInt8}
    (hcounted : Counted bank.2) : bankBlocks select bank = .ok bytes ↔
    ¬RunsPast bank.2 ∧ bytes = (bankPieces select bank).flatMap blockBytes := by
  unfold bankBlocks bankPieces
  by_cases hempty : bank.2.bytes = []
  · simp [hempty, RunsPast, eq_comm]
  · simp only [List.isEmpty_iff, hempty, if_false, List.flatMap_cons, List.flatMap_nil,
      List.append_nil]
    constructor
    · intro h
      obtain ⟨first, hfirst, h⟩ := bind_eq_ok.mp h
      obtain ⟨second, hsecond, h⟩ := bind_eq_ok.mp h
      obtain ⟨-, rfl⟩ := (block_eq_ok (counted_select _ _)).mp hfirst
      obtain ⟨hfits, rfl⟩ := (block_eq_ok hcounted).mp hsecond
      cases h
      exact ⟨hfits, rfl⟩
    · rintro ⟨hfits, rfl⟩
      have hfirst := (block_eq_ok (counted_select select bank.1)).mpr ⟨not_runsPast_select _ _, rfl⟩
      refine bind_eq_ok.mpr ⟨_, hfirst, ?_⟩
      exact bind_eq_ok.mpr ⟨_, (block_eq_ok hcounted).mpr ⟨hfits, rfl⟩, rfl⟩

theorem mapM_bankBlocks {select : UInt16} : ∀ {banks : List (UInt8 × SegmentImage)}
    {parts : List (List UInt8)}, (∀ b ∈ banks, Counted b.2) →
      (banks.mapM (bankBlocks select) = .ok parts ↔ (∀ b ∈ banks, ¬RunsPast b.2) ∧
        parts = banks.map fun b => (bankPieces select b).flatMap blockBytes)
  | [], parts, _ => by
    rw [List.mapM_nil]
    exact ⟨fun h => by cases h; exact ⟨by simp, rfl⟩, fun h => by rw [h.2]; rfl⟩
  | bank :: rest, parts, hcounted => by
    obtain ⟨hbank, hrest⟩ := List.forall_mem_cons.mp hcounted
    rw [List.mapM_cons, List.forall_mem_cons, List.map_cons]
    constructor
    · intro h
      obtain ⟨first, hfirst, h⟩ := bind_eq_ok.mp h
      obtain ⟨others, hothers, h⟩ := bind_eq_ok.mp h
      obtain ⟨hfits, rfl⟩ := (bankBlocks_eq_ok hbank).mp hfirst
      obtain ⟨hall, rfl⟩ := (mapM_bankBlocks hrest).mp hothers
      cases h
      exact ⟨⟨hfits, hall⟩, rfl⟩
    · rintro ⟨⟨hfits, hall⟩, rfl⟩
      refine bind_eq_ok.mpr ⟨_, (bankBlocks_eq_ok hbank).mpr ⟨hfits, rfl⟩, ?_⟩
      exact bind_eq_ok.mpr ⟨_, (mapM_bankBlocks hrest).mpr ⟨hall, rfl⟩, rfl⟩

/-- **There is a file** unless a segment ends behind the last address. -/
theorem binaryLoad_eq_ok {file : List UInt8} (hcounted : ∀ s ∈ segments i, Counted s) :
    i.binaryLoad = .ok file ↔
      (∀ s ∈ segments i, ¬RunsPast s) ∧ file = 0xFF :: 0xFF :: (pieces i).flatMap blockBytes := by
  have hparts : ((i.banks.toList.map fun b => (bankPieces i.bankSelect b).flatMap blockBytes).flatten) =
      (i.banks.toList.flatMap (bankPieces i.bankSelect)).flatMap blockBytes := by
    rw [List.flatMap_assoc, List.flatMap_def]
  unfold segments at hcounted
  unfold binaryLoad segments pieces
  simp only [List.forall_mem_cons, List.forall_mem_map, List.flatMap_cons, ← hparts] at hcounted ⊢
  obtain ⟨hcode, hvars, hbanked⟩ := hcounted
  constructor
  · intro h
    obtain ⟨common, hcommon, h⟩ := bind_eq_ok.mp h
    obtain ⟨data, hdata, h⟩ := bind_eq_ok.mp h
    obtain ⟨parts, hbanks, h⟩ := bind_eq_ok.mp h
    obtain ⟨hfits, rfl⟩ := (block_eq_ok hcode).mp hcommon
    obtain ⟨hfits', rfl⟩ := (block_eq_ok hvars).mp hdata
    obtain ⟨hall, rfl⟩ := (mapM_bankBlocks hbanked).mp hbanks
    cases h
    exact ⟨⟨hfits, hfits', hall⟩, by simp⟩
  · rintro ⟨⟨hfits, hfits', hall⟩, rfl⟩
    refine bind_eq_ok.mpr ⟨_, (block_eq_ok hcode).mpr ⟨hfits, rfl⟩, ?_⟩
    refine bind_eq_ok.mpr ⟨_, (block_eq_ok hvars).mpr ⟨hfits', rfl⟩, ?_⟩
    refine bind_eq_ok.mpr ⟨_, (mapM_bankBlocks hbanked).mpr ⟨hall, rfl⟩, ?_⟩
    simp [pure, Except.pure]

/-- Every block of an image is in memory if its segments are. -/
theorem pieces_fit (h : ∀ s ∈ segments i, ¬RunsPast s) : ∀ s ∈ pieces i, ¬RunsPast s := by
  simp only [segments, List.forall_mem_cons, List.forall_mem_map] at h
  simp only [pieces, List.forall_mem_cons, List.mem_flatMap]
  refine ⟨h.1, h.2.1, ?_⟩
  rintro s ⟨bank, hbank, hs⟩
  unfold bankPieces at hs
  split at hs
  · cases hs
  · rcases List.mem_cons.mp hs with rfl | hs
    · exact not_runsPast_select _ _
    · rw [List.mem_singleton.mp hs]
      exact h.2.2 bank hbank

/-- A block is read back, whatever follows. -/
theorem blocks?_append (h : ¬RunsPast s) (rest : List UInt8) :
    blocks? (blockBytes s ++ rest) =
      (blocks? rest).map (([s].filter fun s => s.bytes ≠ []) ++ ·) := by
  by_cases hempty : s.bytes = []
  · simp [blockBytes, hempty]
  obtain hnil | hfits := not_runsPast h
  · exact absurd hnil hempty
  have hpos := List.length_pos_iff.mpr hempty
  have hlast : (UInt16.ofNat (s.origin.toNat + s.bytes.length - 1)).toNat =
      s.origin.toNat + s.bytes.length - 1 := by
    rw [UInt16.toNat_ofNat']
    omega
  have hbytes : blockBytes s ++ rest = lowByte s.origin :: highByte s.origin ::
      lowByte (UInt16.ofNat (s.origin.toNat + s.bytes.length - 1)) ::
      highByte (UInt16.ofNat (s.origin.toNat + s.bytes.length - 1)) :: (s.bytes ++ rest) := by
    rw [blockBytes, if_neg hempty]
    rfl
  have hsize : s.origin.toNat + s.bytes.length - 1 + 1 - s.origin.toNat = s.bytes.length := by omega
  have hle : s.origin ≤ UInt16.ofNat (s.origin.toNat + s.bytes.length - 1) := by
    rw [UInt16.le_iff_toNat_le, hlast]
    omega
  rw [hbytes, blocks?]
  simp only [word_bytes, hlast, hsize]
  rw [if_pos ⟨hle, by simp⟩, List.drop_left, List.take_left]
  simp [hempty]

/-- **The blocks of a file are read back.** -/
theorem blocks?_flatMap : ∀ {all : List SegmentImage}, (∀ s ∈ all, ¬RunsPast s) →
    blocks? (all.flatMap blockBytes) = some (all.filter fun s => s.bytes ≠ [])
  | [], _ => by
    rw [List.flatMap_nil, blocks?]
    rfl
  | s :: rest, h => by
    rw [List.flatMap_cons, blocks?_append (h s (List.mem_cons_self ..)),
      blocks?_flatMap fun t ht => h t (List.mem_cons_of_mem _ ht), Option.map_some,
      ← List.filter_append]
    rfl

/-! ### Loading -/

/-- What a loader has stored: in memory, and in each bank through the window. -/
structure Loaded where
  memory : UInt16 → Option UInt8
  banks : UInt8 → UInt16 → Option UInt8
  selected : UInt8

/-- Nothing has been stored. -/
def Loaded.nothing (selected : UInt8) : Loaded := ⟨fun _ => none, fun _ _ => none, selected⟩

/-- The addresses at which the selected bank is seen, if the window has a size. -/
def InWindow (i : Image) (size : ℕ) (a : UInt16) : Prop :=
  i.bankWindow.toNat ≤ a.toNat ∧ a.toNat < i.bankWindow.toNat + size

instance (i : Image) (size : ℕ) (a : UInt16) : Decidable (InWindow i size a) :=
  inferInstanceAs (Decidable (_ ∧ _))

/-- Stores a byte.  In the window it goes to the selected bank; at the select register it selects
one. -/
def store (i : Image) (size : ℕ) (t : Loaded) (a : UInt16) (b : UInt8) : Loaded :=
  if InWindow i size a then
    let bank := Function.update (t.banks t.selected) a (some b)
    { t with banks := Function.update t.banks t.selected bank }
  else
    let selected := if a = i.bankSelect then b else t.selected
    { t with memory := Function.update t.memory a (some b), selected }

/-- Stores bytes at consecutive addresses. -/
def storeAll (i : Image) (size : ℕ) (t : Loaded) (a : UInt16) : List UInt8 → Loaded
  | [] => t
  | b :: rest => storeAll i size (store i size t a b) (a + 1) rest

/-- Stores blocks in order. -/
def load (i : Image) (size : ℕ) (blocks : List SegmentImage) (t : Loaded) : Loaded :=
  blocks.foldl (fun t s => storeAll i size t s.origin s.bytes) t

variable {size : ℕ}

/-- The bytes of a segment laid over others. -/
def overlay (s : SegmentImage) (stored : UInt16 → Option UInt8) (a : UInt16) : Option UInt8 :=
  (byteAt? s a).or (stored a)

/-- Storing the first byte of a segment and then the others is storing the segment. -/
theorem overlay_update {origin : UInt16} {b : UInt8} {rest : List UInt8}
    (h : origin.toNat + (rest.length + 1) ≤ 0x10000) (stored : UInt16 → Option UInt8) :
    overlay ⟨origin + 1, rest⟩ (Function.update stored origin (some b)) =
      overlay ⟨origin, b :: rest⟩ stored := by
  funext a
  rw [overlay, overlay, byteAt?_cons h]
  by_cases hsame : a = origin
  · have hnot : ¬Covers ⟨origin + 1, rest⟩ origin := fun hcovers => by
      have hone : UInt16.toNat 1 = 1 := rfl
      have hle := hcovers.1
      have hlt := hcovers.2
      simp only [UInt16.toNat_add, hone] at hle hlt
      omega
    rw [if_pos hsame, hsame, byteAt?_eq_none hnot, Function.update_self]
    rfl
  · rw [if_neg hsame, Function.update_of_ne hsame]

theorem overlay_nil {origin : UInt16} (stored : UInt16 → Option UInt8) :
    overlay ⟨origin, []⟩ stored = stored := by
  funext a
  rw [overlay, byteAt?_nil]
  rfl

theorem next_room {origin : UInt16} {n : ℕ} (h : origin.toNat + (n + 1) ≤ 0x10000) :
    (origin + 1).toNat + n ≤ 0x10000 := by
  have hone : UInt16.toNat 1 = 1 := rfl
  rw [UInt16.toNat_add, hone]
  omega

/-- Bytes outside the window that do not touch the select register. -/
theorem storeAll_memory {bytes : List UInt8} {origin : UInt16} (t : Loaded)
    (hroom : origin.toNat + bytes.length ≤ 0x10000)
    (h : ∀ a, Covers ⟨origin, bytes⟩ a → ¬InWindow i size a ∧ a ≠ i.bankSelect) :
    storeAll i size t origin bytes = { t with memory := overlay ⟨origin, bytes⟩ t.memory } := by
  induction bytes generalizing origin t with
  | nil => rw [overlay_nil, storeAll]
  | cons b rest ih =>
    rw [List.length_cons] at hroom
    obtain ⟨hfirst, hothers⟩ := Covers.cons (b := b) hroom
    obtain ⟨houtside, hselect⟩ := h origin hfirst
    have hstore : store i size t origin b =
        { t with memory := Function.update t.memory origin (some b) } := by
      rw [store, if_neg houtside, if_neg hselect]
    rw [storeAll, hstore, ih _ (next_room hroom) fun a ha => h a (hothers a ha), overlay_update hroom]

/-- Bytes in the window go to the selected bank. -/
theorem storeAll_window {bytes : List UInt8} {origin : UInt16} (t : Loaded)
    (hroom : origin.toNat + bytes.length ≤ 0x10000)
    (h : ∀ a, Covers ⟨origin, bytes⟩ a → InWindow i size a) :
    storeAll i size t origin bytes = { t with
      banks := Function.update t.banks t.selected (overlay ⟨origin, bytes⟩ (t.banks t.selected)) } := by
  induction bytes generalizing origin t with
  | nil => rw [overlay_nil, Function.update_eq_self, storeAll]
  | cons b rest ih =>
    rw [List.length_cons] at hroom
    obtain ⟨hfirst, hothers⟩ := Covers.cons (b := b) hroom
    rw [storeAll, store, if_pos (h origin hfirst),
      ih _ (next_room hroom) fun a ha => h a (hothers a ha)]
    simp only [Function.update_self, Function.update_idem, overlay_update hroom]

/-- A block that selects a bank. -/
theorem storeAll_select (t : Loaded) (n : UInt8) (h : ¬InWindow i size i.bankSelect) :
    storeAll i size t i.bankSelect [n] =
      { t with memory := Function.update t.memory i.bankSelect (some n), selected := n } := by
  rw [storeAll, storeAll, store, if_neg h, if_pos rfl]

/-! ### Loading the banks -/

/-- The banks with bytes, in the order in which they are filled. -/
def filledBanks (banks : List (UInt8 × SegmentImage)) : List UInt8 :=
  (banks.filter fun b => b.2.bytes ≠ []).map (·.1)

theorem load_cons (s : SegmentImage) (rest : List SegmentImage) (t : Loaded) :
    load i size (s :: rest) t = load i size rest (storeAll i size t s.origin s.bytes) := rfl

theorem load_append (front back : List SegmentImage) (t : Loaded) :
    load i size (front ++ back) t = load i size back (load i size front t) := List.foldl_append

/-- Blocks without bytes store nothing. -/
theorem load_filter (blocks : List SegmentImage) (t : Loaded) :
    load i size (blocks.filter fun s => s.bytes ≠ []) t = load i size blocks t := by
  induction blocks generalizing t with
  | nil => rfl
  | cons s rest ih =>
    rw [load_cons]
    by_cases hempty : s.bytes = []
    · rw [List.filter_cons_of_neg (by simpa using hempty), hempty, storeAll, ih]
    · rw [List.filter_cons_of_pos (by simpa using hempty), load_cons, ih]

/-- **The banks are filled** one after the other. -/
theorem load_banks (hselect : ¬InWindow i size i.bankSelect) :
    ∀ {banks : List (UInt8 × SegmentImage)}, (banks.map (·.1)).Nodup →
      (∀ b ∈ banks, ¬RunsPast b.2 ∧ ∀ a, Covers b.2 a → InWindow i size a) → ∀ t : Loaded,
      let u := load i size (banks.flatMap (bankPieces i.bankSelect)) t
      (∀ a ≠ i.bankSelect, u.memory a = t.memory a) ∧
      u.memory i.bankSelect = (filledBanks banks).getLast?.or (t.memory i.bankSelect) ∧
      (∀ b ∈ banks, u.banks b.1 = overlay b.2 (t.banks b.1)) ∧
      ∀ n ∉ banks.map (·.1), u.banks n = t.banks n
  | [], _, _, t => ⟨fun _ _ => rfl, rfl, by simp, fun _ _ => rfl⟩
  | (n, s) :: rest, hnodup, hall, t => by
    rw [List.map_cons, List.nodup_cons] at hnodup
    obtain ⟨⟨hfits, hinside⟩, hothers⟩ := List.forall_mem_cons.mp hall
    rw [List.flatMap_cons, load_append]
    by_cases hempty : s.bytes = []
    · have hnothing : overlay s = id := by
        cases s
        cases hempty
        exact funext overlay_nil
      have hpieces : bankPieces i.bankSelect (n, s) = [] := if_pos hempty
      have hfilled : filledBanks ((n, s) :: rest) = filledBanks rest := by simp [filledBanks, hempty]
      obtain ⟨hmemory, hlast, hbanks, hkept⟩ := load_banks hselect hnodup.2 hothers t
      rw [hpieces, hfilled]
      refine ⟨hmemory, hlast, List.forall_mem_cons.mpr ⟨?_, hbanks⟩, fun m hm => ?_⟩
      · rw [hnothing]
        exact hkept n hnodup.1
      · exact hkept m fun hmem => hm (List.mem_cons_of_mem _ hmem)
    · have hroom := (not_runsPast hfits).resolve_left hempty
      have hpieces : bankPieces i.bankSelect (n, s) = [⟨i.bankSelect, [n]⟩, s] := if_neg hempty
      have hfilled : filledBanks ((n, s) :: rest) = n :: filledBanks rest := by
        simp [filledBanks, hempty]
      have hload : load i size [⟨i.bankSelect, [n]⟩, s] t =
          ⟨Function.update t.memory i.bankSelect (some n),
            Function.update t.banks n (overlay s (t.banks n)), n⟩ := by
        rw [load_cons, storeAll_select t n hselect, load_cons, storeAll_window _ hroom hinside]
        rfl
      rw [hpieces, hload, hfilled]
      obtain ⟨hmemory, hlast, hbanks, hkept⟩ := load_banks hselect hnodup.2 hothers
        ⟨Function.update t.memory i.bankSelect (some n),
          Function.update t.banks n (overlay s (t.banks n)), n⟩
      refine ⟨fun a ha => ?_, ?_, List.forall_mem_cons.mpr ⟨?_, fun b hb => ?_⟩, fun m hm => ?_⟩
      · rw [hmemory a ha]
        exact Function.update_of_ne ha ..
      · rw [hlast, List.getLast?_cons]
        simp only [Function.update_self]
        cases (filledBanks rest).getLast? <;> rfl
      · rw [hkept n hnodup.1]
        exact Function.update_self ..
      · rw [hbanks b hb]
        have hne : b.1 ≠ n := fun heq => hnodup.1 (heq ▸ List.mem_map.mpr ⟨b, hb, rfl⟩)
        exact congrArg _ (Function.update_of_ne hne ..)
      · rw [List.map_cons, List.mem_cons, not_or] at hm
        rw [hkept m hm.2]
        exact Function.update_of_ne hm.1 ..

/-! ### Loading an image -/

/-- The common area, the data area and the select register are outside of a window of a size and of
each other. -/
structure Apart (i : Image) (size : ℕ) : Prop where
  common : ∀ a, Covers i.common a → ¬InWindow i size a ∧ a ≠ i.bankSelect
  data : ∀ a, Covers i.data a → ¬InWindow i size a ∧ a ≠ i.bankSelect
  apart : ∀ a, Covers i.common a → ¬Covers i.data a
  select : ¬InWindow i size i.bankSelect

/-- The areas are apart, and all banks lie in the window. -/
structure Separate (i : Image) (size : ℕ) : Prop extends Apart i size where
  banks : ∀ (n : UInt8) (s : SegmentImage), i.banks[n]? = some s → ∀ a, Covers s a → InWindow i size a

/-- The bytes of an image have been stored, each at its address, and nothing else. -/
structure Reproduced (i : Image) (t : Loaded) : Prop where
  common : ∀ a, Covers i.common a → t.memory a = byteAt? i.common a
  data : ∀ a, Covers i.data a → t.memory a = byteAt? i.data a
  /-- The register holds what selected the last bank that was filled. -/
  select : t.memory i.bankSelect = (filledBanks i.banks.toList).getLast?
  others : ∀ a, ¬Covers i.common a → ¬Covers i.data a → a ≠ i.bankSelect → t.memory a = none
  banks : ∀ (n : UInt8) (a : UInt16), t.banks n a = i.banks[n]?.bind (byteAt? · a)

/-- The blocks of an image, once they are stored. -/
theorem load_pieces (hfits : ∀ s ∈ segments i, ¬RunsPast s) (hapart : Separate i size) (n : UInt8) :
    Reproduced i (load i size (pieces i) (.nothing n)) := by
  have hstore : ∀ s ∈ [i.common, i.data], (∀ a, Covers s a → ¬InWindow i size a ∧ a ≠ i.bankSelect) →
      ∀ t : Loaded, storeAll i size t s.origin s.bytes = { t with memory := overlay s t.memory } := by
    intro s hs houtside t
    rcases not_runsPast (hfits s (by simp [segments] at hs ⊢; grind)) with hempty | hroom
    · cases s
      cases hempty
      rw [overlay_nil, storeAll]
    · exact storeAll_memory t hroom houtside
  have hbanks : ∀ b ∈ i.banks.toList, ¬RunsPast b.2 ∧ ∀ a, Covers b.2 a → InWindow i size a := by
    intro b hb
    refine ⟨hfits _ (List.mem_cons_of_mem _ (List.mem_cons_of_mem _ (List.mem_map_of_mem hb))), ?_⟩
    exact hapart.banks b.1 b.2 (Std.TreeMap.mem_toList_iff_getElem?_eq_some.mp hb)
  obtain ⟨hmemory, hlast, hfilled, hkept⟩ := load_banks hapart.select (nodup_keys i.banks) hbanks
    ⟨overlay i.data (overlay i.common fun _ => none), fun _ _ => none, n⟩
  have hload : load i size (pieces i) (.nothing n) =
      load i size (i.banks.toList.flatMap (bankPieces i.bankSelect))
        ⟨overlay i.data (overlay i.common fun _ => none), fun _ _ => none, n⟩ := by
    rw [pieces, load_cons, load_cons, hstore i.common (by simp) hapart.common,
      hstore i.data (by simp) hapart.data]
    rfl
  have hnone : ∀ s : SegmentImage, ∀ a, ¬Covers s a → ∀ stored, overlay s stored a = stored a := by
    intro s a ha stored
    rw [overlay, byteAt?_eq_none ha, Option.none_or]
  dsimp only at hmemory hlast hfilled hkept
  rw [hload]
  refine ⟨fun a ha => ?_, fun a ha => ?_, ?_, fun a hcommon hdata hselect => ?_, fun m a => ?_⟩
  · rw [hmemory a (hapart.common a ha).2, hnone _ a (hapart.apart a ha), overlay, Option.or_none]
  · rw [hmemory a (hapart.data a ha).2, overlay, hnone _ a fun hcommon => hapart.apart a hcommon ha,
      Option.or_none]
  · rw [hlast, hnone _ _ fun hdata => (hapart.data _ hdata).2 rfl,
      hnone _ _ fun hcommon => (hapart.common _ hcommon).2 rfl, Option.or_none]
  · rw [hmemory a hselect, hnone _ a hdata, hnone _ a hcommon]
  · cases hbank : i.banks[m]? with
    | none =>
      have hkey : m ∉ i.banks.toList.map (·.1) := fun hmem => by
        obtain ⟨b, hb, rfl⟩ := List.mem_map.mp hmem
        rw [Std.TreeMap.mem_toList_iff_getElem?_eq_some.mp hb] at hbank
        cases hbank
      rw [hkept m hkey]
      rfl
    | some s =>
      have hmem := Std.TreeMap.mem_toList_iff_getElem?_eq_some.mpr hbank
      rw [hfilled (m, s) hmem, overlay, Option.or_none]
      rfl

/-- **The file of an image** fails to be written exactly if a segment with bytes runs past the last
address, and otherwise it can be read, and loading it reproduces the image. -/
theorem file_loads (i : Image) (hcounted : ∀ s ∈ segments i, Counted s) :
    ((∃ error, i.binaryLoad = .error error) ↔ ∃ s ∈ segments i, RunsPast s) ∧
      ∀ file, i.binaryLoad = .ok file → ∃ blocks, readFile? file = some blocks ∧
        ∀ size, Separate i size → ∀ n, Reproduced i (load i size blocks (.nothing n)) := by
  refine ⟨⟨fun ⟨error, herror⟩ => ?_, fun ⟨s, hs, hpast⟩ => ?_⟩, fun file hfile => ?_⟩
  · by_contra hnone
    have hok := (binaryLoad_eq_ok hcounted).mpr ⟨fun s hs hpast => hnone ⟨s, hs, hpast⟩, rfl⟩
    rw [herror] at hok
    cases hok
  · cases hload : i.binaryLoad with
    | error error => exact ⟨error, rfl⟩
    | ok file => exact absurd hpast (((binaryLoad_eq_ok hcounted).mp hload).1 s hs)
  · obtain ⟨hfits, rfl⟩ := (binaryLoad_eq_ok hcounted).mp hfile
    refine ⟨_, blocks?_flatMap (pieces_fit hfits), fun size hapart n => ?_⟩
    rw [load_filter]
    exact load_pieces hfits hapart n

def smallBanks : List (UInt8 × SegmentImage) := [(1, ⟨0x8000, []⟩), (2, ⟨0x8000, [0x60]⟩)]

/-- An image with two banks, one of them empty. -/
def smallImage : Image where
  common := ⟨0xA000, [0xA9, 0x2A, 0x60]⟩
  banks := .ofList smallBanks
  data := ⟨0x2000, [5, 0]⟩
  symbols := ∅
  bankWindow := 0x8000
  bankSelect := 0xD500

theorem counted_smallImage : ∀ s ∈ segments smallImage, Counted s := by
  have hbanks : smallImage.banks.toList = smallBanks := by decide +kernel
  rw [segments, hbanks]
  decide

theorem smallImage_loads : ∃ file blocks, smallImage.binaryLoad = .ok file ∧
    file = [0xFF, 0xFF, 0x00, 0xA0, 0x02, 0xA0, 0xA9, 0x2A, 0x60, 0x00, 0x20, 0x01, 0x20, 5, 0,
      0x00, 0xD5, 0x00, 0xD5, 2, 0x00, 0x80, 0x00, 0x80, 0x60] ∧
    readFile? file = some blocks ∧ Separate smallImage 0x2000 ∧
    Reproduced smallImage (load smallImage 0x2000 blocks (.nothing 0)) := by
  have hfile : smallImage.binaryLoad = .ok [0xFF, 0xFF, 0x00, 0xA0, 0x02, 0xA0, 0xA9, 0x2A, 0x60,
      0x00, 0x20, 0x01, 0x20, 5, 0, 0x00, 0xD5, 0x00, 0xD5, 2, 0x00, 0x80, 0x00, 0x80, 0x60] := by
    decide +kernel
  have hkeys : (smallBanks.map Prod.fst).Nodup := by decide
  have hseparate : Separate smallImage 0x2000 := by
    refine ⟨⟨fun a ha => ?_, fun a ha => ?_, fun a ha hdata => ?_, by decide⟩, fun n s hs a ha => ?_⟩
    · refine ⟨fun hin => ?_, ?_⟩
      · simp [Covers, InWindow, smallImage] at ha hin
        omega
      · rintro rfl
        simp [Covers, smallImage] at ha
    · refine ⟨fun hin => ?_, ?_⟩
      · simp [Covers, InWindow, smallImage] at ha hin
        omega
      · rintro rfl
        simp [Covers, smallImage] at ha
    · simp [Covers, smallImage] at ha hdata
      omega
    · rcases List.mem_cons.mp ((getElem?_ofList hkeys).mp hs) with heq | hs
      · cases heq
        exact absurd ha.2 (not_lt.mpr ha.1)
      · cases List.mem_singleton.mp hs
        exact ⟨ha.1, lt_of_lt_of_le ha.2 (by decide)⟩
  obtain ⟨blocks, hblocks, hloads⟩ := (file_loads smallImage counted_smallImage).2 _ hfile
  exact ⟨_, blocks, hfile, rfl, hblocks, hseparate, hloads _ hseparate 0⟩

/-! ### Bytes outside the window -/

def strayBanks : List (UInt8 × SegmentImage) := [(1, ⟨0xD500, [7, 8]⟩)]

/-- An image with a bank of which the first byte stands at the select register and the second at the
start of the window. -/
def strayImage : Image where
  common := ⟨0xA000, []⟩
  banks := .ofList strayBanks
  data := ⟨0x2000, []⟩
  symbols := ∅
  bankWindow := 0xD501
  bankSelect := 0xD500

/-- An image whose code has one byte more than words of 32 bits count. -/
def longImage : Image where
  common := ⟨0, List.replicate 0x100000001 0⟩
  banks := ∅
  data := ⟨0x2000, []⟩
  symbols := ∅
  bankWindow := 0x8000
  bankSelect := 0xD500

theorem pieces_strayImage : pieces strayImage =
    [⟨0xA000, []⟩, ⟨0x2000, []⟩, ⟨0xD500, [1]⟩, ⟨0xD500, [7, 8]⟩] := by decide +kernel

/-- The second byte of the bank has gone elsewhere. -/
theorem stray_byte_lost {size : ℕ} (hsize : 0 < size) (n : UInt8) :
    (load strayImage size (pieces strayImage) (.nothing n)).banks 1 0xD501 = none := by
  have hselect : ¬InWindow strayImage size 0xD500 := fun h => absurd h.1 (by decide)
  have hwindow : InWindow strayImage size 0xD501 := ⟨le_rfl, Nat.lt_add_of_pos_right hsize⟩
  have hnext : (0xD500 : UInt16) + 1 = 0xD501 := by decide
  have hregister : strayImage.bankSelect = 0xD500 := rfl
  rw [pieces_strayImage]
  simp only [load, List.foldl_cons, List.foldl_nil, storeAll, hnext]
  simp [store, hselect, hwindow, hregister, Loaded.nothing]

/-- **Not every file reproduces its image**, though the areas are apart.  A byte of a bank that
stands at the select register switches the bank, so that the byte behind it goes to another one; and
code that runs past the last address is written all the same when its end leaves its word. -/
theorem stray_bank_lost :
    (∃ file blocks, strayImage.binaryLoad = .ok file ∧ readFile? file = some blocks ∧
      ∀ size > 0, Apart strayImage size ∧
        ∀ n, ¬Reproduced strayImage (load strayImage size blocks (.nothing n))) ∧
    ∃ file, longImage.binaryLoad = .ok file ∧ RunsPast longImage.common := by
  constructor
  · have hbanks : strayImage.banks.toList = strayBanks := by decide +kernel
    have hcounted : ∀ s ∈ segments strayImage, Counted s := by
      rw [segments, hbanks]
      decide
    have hfits : ∀ s ∈ segments strayImage, ¬RunsPast s := by
      rw [segments, hbanks]
      decide
    refine ⟨_, _, (binaryLoad_eq_ok hcounted).mpr ⟨hfits, rfl⟩, blocks?_flatMap (pieces_fit hfits),
      fun size hsize => ⟨⟨fun a ha => ?_, fun a ha => ?_, fun a ha => ?_, fun h => ?_⟩, fun n hall => ?_⟩⟩
    · exact (not_covers_nil _ a ha).elim
    · exact (not_covers_nil _ a ha).elim
    · exact (not_covers_nil _ a ha).elim
    · exact absurd h.1 (by decide)
    · have hbyte := hall.banks 1 0xD501
      have hbank : strayImage.banks[(1 : UInt8)]? = some ⟨0xD500, [7, 8]⟩ := by decide +kernel
      rw [load_filter, stray_byte_lost hsize, hbank] at hbyte
      cases hbyte
  · have hlength : longImage.common.bytes.length = 0x100000001 := List.length_replicate ..
    have hbytes : longImage.common.bytes ≠ [] := fun h => by
      rw [h] at hlength
      cases hlength
    have hcommon : block longImage.common =
        .ok (wordBytes 0 ++ wordBytes 0 ++ longImage.common.bytes) := by
      rw [block, if_neg (by simpa using hbytes), hlength]
      rfl
    have hpast : RunsPast longImage.common := by
      refine ⟨hbytes, ?_⟩
      rw [hlength]
      decide
    exact ⟨_, bind_eq_ok.mpr ⟨_, hcommon, bind_eq_ok.mpr ⟨[], rfl, bind_eq_ok.mpr ⟨[], rfl, rfl⟩⟩⟩, hpast⟩

end Codegen6502.Proofs.Emitting.LoadFiles
