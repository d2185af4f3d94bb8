import Codegen6502.Proofs.Selecting.Bodies
import Codegen6502.Proofs.Selecting.Stacking

/-!
# Passing arguments

What the code in front of a call does: it gives bytes to argument slots and to bytes of the stack
(`fill`), and leaves everything else in use alone.  `Hands` is what such lines do, with the stack
pointer followed.

A value that is read while arguments are passed must not be read where they go (`Misses`).  Then it
is read as it was before the first line (`Misses.after`).
-/

namespace Codegen6502.Proofs.Selecting.Passing

open Selection Growth
open Processor.Memory Processor.LineRun Processor.Straight Processor.Stack
open Tracking Places Moves Courses Reading Computing Stacking Bodies

variable {c : Context} {k : Linkage} {s t u : Store} {st st' : State} {d d' d'' : Draft}
  {cell : UInt8} {n size : ℕ}

/-! ### Lines that hand bytes on -/

/-- What straight lines do that may use X and the stack. -/
structure Hands (k : Linkage) (fresh : ℕ) (d d' : Draft) (pre : Store → Prop)
    (post : Store → Store → Prop) : Prop extends Emits k fresh d d' pre post where
  tracks : TracksA d → TracksA d'

namespace Hands

variable {m n : ℕ} {pre pre' : Store → Prop} {post post' : Store → Store → Prop}

theorem refl (h : ∀ s, Ready k d s → pre s → post s s) : Hands k 0 d d pre post := ⟨.refl h, id⟩

theorem trans (h : Hands k m d d' pre post) (h' : Hands k n d' d'' pre' post')
    (link : ∀ s t, pre s → post s t → pre' t) :
    Hands k (m + n) d d'' pre fun s u => ∃ t, post s t ∧ post' t u :=
  ⟨h.toEmits.trans h'.toEmits link, h'.tracks ∘ h.tracks⟩

theorem imp (h : Hands k m d d' pre post) (hmn : m ≤ n) (hpre : ∀ s, pre' s → pre s)
    (hpost : ∀ s t, Ready k d s → pre' s → post s t → post' s t) : Hands k n d d' pre' post' :=
  ⟨h.toEmits.imp hmn hpre hpost, h.tracks⟩

/-- Plain lines leave the stack pointer alone. -/
theorem of_passes (h : Passes k m d d' pre post) :
    Hands k m d d' pre fun s t => post s t ∧ t.regs.sp = s.regs.sp :=
  ⟨Stacking.Emits.sp h.toEmits h.plain, Reading.Passes.tracks h⟩

/-- A line by itself. -/
theorem of_op {op : Opcode} {operand : Operand} (h : Emits k m d (d.op op operand) pre post) :
    Hands k m d (d.op op operand) pre post := ⟨h, fun ht => tracksA_push ht _⟩

end Hands

/-! ### Bytes that are loaded -/

/-- The byte that is loaded from a location. -/
def worth (k : Linkage) (s : Store) : ByteLoc → UInt8
  | .direct operand => value k s operand
  | .indirect pointer offset => held k s (.indirect pointer offset)

/-- The locations that are loaded: bytes of moves, and constants of any kind. -/
def IsLoadable (loc : ByteLoc) : Prop := IsByte loc ∨ ∃ i, loc = .direct (.immediate i)

theorem worth_eq {loc : ByteLoc} (h : IsByte loc) : worth k s loc = held k s loc := by
  cases loc with
  | direct operand => exact value_eq h
  | indirect pointer offset => rfl

theorem passes_load (d : Draft) {loc : ByteLoc} (h : IsLoadable loc) :
    Passes k 0 d (d.loadA loc) (fun s => Outside d.pointerCell (spotOf k s loc)) fun s t =>
      Same d.pointerCell everything s t ∧ t.regs.a = worth k s loc := by
  rcases h with h | ⟨i, rfl⟩
  · refine (passes_loadA d h).imp le_rfl (fun _ hp => hp) ?_
    rintro s t - - ⟨⟨hsame, ha⟩, -⟩
    exact ⟨hsame, ha.trans (worth_eq h).symm⟩
  · refine ⟨(emits_loadOperand d (.immediate i) rfl).imp le_rfl (fun _ _ => trivial) ?_,
      (@grown_loadA anywhere d (.direct (.immediate i)) trivial).imp fun _ => plain_of_moving⟩
    rintro s t - - ⟨ht, ha⟩
    exact ⟨ht ▸ Same.setRegs s _, ha⟩

/-- What is loaded after a byte of memory has been written elsewhere. -/
theorem worth_put {loc : ByteLoc} (h : IsLoadable loc) {a : UInt16} (hk : Keeps s (.memory a))
    {byte : UInt8} (hsame : Same cell everything (put s (.memory a) byte) t)
    (hout : Outside cell (spotOf k s loc)) (hne : spotOf k s loc ≠ .memory a) :
    spotOf k t loc = spotOf k s loc ∧ worth k t loc = worth k s loc := by
  have hspot : spotOf k t loc = spotOf k s loc := hsame.spotOf (below_everything loc)
  refine ⟨hspot, ?_⟩
  rcases h with h | ⟨i, rfl⟩
  · have hvisible := visible_of_clear ⟨h, below_everything loc⟩ hout
    rw [worth_eq h, worth_eq h, held, hspot, hsame.get _ hvisible, get_put hk, if_neg hne.symm]
  · rfl

/-! ### Bytes that are handed on one by one -/

section OneByOne

variable {loc : ByteLoc} {rest : List ByteLoc} {spot : Spot} {spots : List Spot} {byte : UInt8}
  {bytes : List UInt8}

/-- Bytes can be handed on to spots one after the other: none of them is loaded from one of the
spots. -/
def Handable (k : Linkage) (cell : UInt8) (locs : List ByteLoc) (spots : List Spot) (s : Store) : Prop :=
  LowPlain s ∧ Away k cell s locs ∧ ∀ loc ∈ locs, spotOf k s loc ∉ spots

/-- **When the first byte has been handed on**, the others can be handed on, and are what they
were. -/
theorem Handable.next {a : UInt16} (h : Handable k cell (loc :: rest) (.memory a :: spots) s)
    (hloadable : ∀ l ∈ rest, IsLoadable l) (hk : Keeps s (.memory a))
    (hsame : Same cell everything (put s (.memory a) byte) t) :
    Handable k cell rest spots t ∧ rest.map (worth k t) = rest.map (worth k s) := by
  obtain ⟨hlow, haway, hapart⟩ := h
  have hworth : ∀ l ∈ rest, spotOf k t l = spotOf k s l ∧ worth k t l = worth k s l := fun l hl => by
    have hmem := List.mem_cons_of_mem loc hl
    exact worth_put (hloadable l hl) hk hsame (haway l hmem) fun heq =>
      hapart l hmem (heq ▸ List.mem_cons_self ..)
  refine ⟨⟨(hlow.put _ _).same hsame, fun l hl => ?_, fun l hl => ?_⟩,
    List.map_congr_left fun l hl => (hworth l hl).2⟩
  · rw [(hworth l hl).1]
    exact haway l (List.mem_cons_of_mem _ hl)
  · rw [(hworth l hl).1]
    exact fun hmem => hapart l (List.mem_cons_of_mem _ hl) (List.mem_cons_of_mem _ hmem)

/-- Spots are given bytes behind the first one. -/
theorem same_fill_cons (h : Same cell n (put s spot byte) t) (hk : ∀ other ∈ spots, Keeps s other)
    (hfill : Same cell n (fill t spots bytes) u) :
    Same cell n (fill s (spot :: spots) (byte :: bytes)) u :=
  (same_fill h fun other hother => (keeps_put _ _ _).mpr (hk other hother)).trans hfill

end OneByOne

/-! ### Argument slots -/

/-- The spot of an argument slot. -/
def slotSpot (z : ZeroPage) (i : ℕ) : Spot := .memory (z.arg (UInt8.ofNat i)).toUInt16

/-- The spots of argument slots from one on. -/
def slotSpots (z : ZeroPage) (i size : ℕ) : List Spot := (List.range' i size).map (slotSpot z)

theorem slotSpots_succ (z : ZeroPage) (i size : ℕ) :
    slotSpots z i (size + 1) = slotSpot z i :: slotSpots z (i + 1) size := by
  simp [slotSpots, List.range'_succ]

theorem length_slotSpots (z : ZeroPage) (i size : ℕ) : (slotSpots z i size).length = size := by
  simp [slotSpots]

theorem keeps_slot (h : LowPlain s) (z : ZeroPage) (i : ℕ) : Keeps s (slotSpot z i) := h.cell _

theorem keeps_slots (h : LowPlain s) (z : ZeroPage) {i size : ℕ} :
    ∀ spot ∈ slotSpots z i size, Keeps s spot := by
  intro spot hspot
  obtain ⟨j, -, rfl⟩ := List.mem_map.mp hspot
  exact keeps_slot h z j

/-- A byte is passed in a slot. -/
theorem passes_passByte {i : ℕ} {loc : ByteLoc} {x : Unit} (hloc : IsLoadable loc)
    (h : passByte (UInt8.ofNat i) loc c st = .ok (x, st')) :
    Passes k 0 st.draft st'.draft
      (fun s => LowPlain s ∧ Outside st.draft.pointerCell (spotOf k s loc)) fun s t =>
      Same st.draft.pointerCell everything
        (put s (slotSpot c.convention.zeroPage i) (worth k s loc)) t := by
  obtain ⟨_, st₁, hload, h₁⟩ := bind_ok.mp h
  cases hload
  obtain ⟨slot, st₂, hslot, hstore⟩ := bind_ok.mp h₁
  cases hslot
  have hdraft := storeA_ok hstore
  rw [← Except.ok.inj hdraft]
  have hload : Passes k 0 st.draft (st.draft.loadA loc)
      (fun s => LowPlain s ∧ Outside st.draft.pointerCell (spotOf k s loc)) _ :=
    (passes_load st.draft hloc).imp le_rfl (fun _ hp => hp.2) fun _ _ _ _ h => h
  have hsta : Passes k 0 (st.draft.loadA loc) ((st.draft.loadA loc).op .sta
      (.zeroPage (c.convention.zeroPage.arg (UInt8.ofNat i)))) (fun _ => True) fun s t =>
      t = put s (slotSpot c.convention.zeroPage i) s.regs.a := by
    refine ⟨(emits_sta _ (.zeroPage _) trivial rfl).imp le_rfl (fun s _ a ha hscratch => ?_)
      fun _ _ _ _ h => h, .op _ rfl trivial rfl⟩
    cases ha
    exact hscratch.imp (fun h => by rw [UInt8.toUInt16_inj.mp h]) fun h => by
      rw [UInt8.toUInt16_inj.mp h]
  refine (hload.trans hsta fun _ _ _ _ => trivial).imp le_rfl (fun _ hp => hp) ?_
  rintro s u - ⟨hlow, -⟩ ⟨t, ⟨hsame, ha⟩, rfl⟩
  rw [ha]
  exact hsame.put (keeps_slot hlow _ i) _

/-- **Bytes are passed in slots one after the other.** -/
theorem passes_passBytes : ∀ {locs : List ByteLoc} {i : ℕ} {st st' : State} {x : Unit},
    passBytes (UInt8.ofNat i) locs c st = .ok (x, st') → (∀ loc ∈ locs, IsLoadable loc) →
    Passes k 0 st.draft st'.draft
      (Handable k st.draft.pointerCell locs (slotSpots c.convention.zeroPage i locs.length)) fun s t =>
      Same st.draft.pointerCell everything
        (fill s (slotSpots c.convention.zeroPage i locs.length) (locs.map (worth k s))) t
  | [], i, st, st', x, h, _ => by
    obtain ⟨-, rfl⟩ := pure_ok.mp h
    exact Passes.refl fun s _ _ => Same.refl s
  | loc :: rest, i, st, st', x, h, hlocs => by
    obtain ⟨_, st₁, hfirst, hrest⟩ := bind_ok.mp h
    have hnext : UInt8.ofNat i + 1 = UInt8.ofNat (i + 1) := (UInt8.ofNat_add i 1).symm
    rw [hnext] at hrest
    have hloadable : ∀ l ∈ rest, IsLoadable l := fun l hl => hlocs l (List.mem_cons_of_mem _ hl)
    have hpass := passes_passByte (k := k) (hlocs loc (List.mem_cons_self ..)) hfirst
    have ih := passes_passBytes hrest hloadable
    have hcell : st₁.draft.pointerCell = st.draft.pointerCell := hpass.cell
    rw [hcell] at ih
    rw [List.length_cons, slotSpots_succ]
    have hpass' : Passes k 0 st.draft st₁.draft (Handable k st.draft.pointerCell (loc :: rest)
        (slotSpot c.convention.zeroPage i :: slotSpots c.convention.zeroPage (i + 1) rest.length)) _ :=
      hpass.imp le_rfl (fun s hs => ⟨hs.1, hs.2.1 loc (List.mem_cons_self ..)⟩) fun _ _ _ _ h => h
    refine (hpass'.trans ih fun s t hs hsame =>
      (hs.next hloadable (keeps_slot hs.1 _ i) hsame).1).imp le_rfl (fun _ hs => hs) ?_
    rintro s u - hs ⟨t, hsame, hfill⟩
    rw [(hs.next hloadable (keeps_slot hs.1 _ i) hsame).2] at hfill
    exact same_fill_cons hsame (keeps_slots hs.1 _) hfill

/-! ### Values that are read meanwhile -/

/-- No byte of a value is read in an area. -/
def Misses (c : Context) (k : Linkage) (area : UInt16 → Prop) (s : Store) (size : ℕ)
    (value : Value) : Prop :=
  ∀ place, value = .memory place → ∀ i < size, ∀ a, found c k s place i = .memory a → ¬area a

/-- All spots are bytes of an area. -/
def Inside (area : UInt16 → Prop) (spots : List Spot) : Prop :=
  ∀ spot ∈ spots, ∃ a, spot = .memory a ∧ area a

theorem fill_append {spots more : List Spot} {bytes others : List UInt8}
    (h : spots.length = bytes.length) :
    fill s (spots ++ more) (bytes ++ others) = fill (fill s spots bytes) more others := by
  induction spots generalizing s bytes with
  | nil =>
    obtain rfl := List.eq_nil_of_length_eq_zero h.symm
    rfl
  | cons spot spots ih =>
    obtain ⟨byte, bytes, rfl⟩ := List.exists_cons_of_length_eq_add_one h.symm
    exact ih (by simpa using h)

/-- Spots that are not in use may be given bytes. -/
theorem same_fill_hidden : ∀ {spots : List Spot} {bytes : List UInt8} {s : Store},
    (∀ spot ∈ spots, Keeps s spot) → (∀ spot ∈ spots, ¬Visible cell n spot) →
      Same cell n s (fill s spots bytes)
  | [], _, _, _, _ => Same.refl _
  | _ :: _, [], _, _, _ => Same.refl _
  | spot :: _, byte :: _, _, hk, hv =>
    (Same.put_hidden (hk spot (List.mem_cons_self ..)) (hv spot (List.mem_cons_self ..)) byte).trans
      (same_fill_hidden (keeps_put_all hk byte) fun other hother =>
        hv other (List.mem_cons_of_mem _ hother))

section Meanwhile

variable {area : UInt16 → Prop} {spots : List Spot} {bytes : List UInt8} {value : Value}

theorem Misses.readable (h : Misses c k area s size value)
    (hscratch : ∀ a, IsScratch cell a → area a) : Readable c k cell s size value :=
  fun place hplace i hi a ha hbad => h place hplace i hi a ha (hscratch a hbad)

theorem lowPlain_fill (h : LowPlain s) (hsame : Same cell n (fill s spots bytes) t) : LowPlain t :=
  fun a ha => (hsame.plain a).mpr ((@keeps_fill (.memory a) spots bytes s).mpr (h a ha))

/-- A spot that is in use and has not been given a byte. -/
theorem get_of_fill (hsame : Same cell n (fill s spots bytes) t) (hk : ∀ spot ∈ spots, Keeps s spot)
    {spot : Spot} (hv : Visible cell n spot) (hspot : spot ∉ spots) : get t spot = get s spot :=
  (hsame.get spot hv).trans (get_fill_of_notMem hspot hk)

/-- Distinct spots in use hold what they have been given. -/
theorem map_get_of_fill (hnodup : spots.Nodup) (hsame : Same cell n (fill s spots bytes) t)
    (hk : ∀ spot ∈ spots, Keeps s spot) (hv : ∀ spot ∈ spots, Visible cell n spot)
    (hlength : bytes.length = spots.length) : spots.map (get t) = bytes :=
  (List.map_congr_left fun spot hspot => hsame.get spot (hv spot hspot)).trans
    (map_get_fill hnodup hk hlength)

theorem cells_of_fill (hsame : Same cell n (fill s spots bytes) t) (hk : ∀ spot ∈ spots, Keeps s spot)
    (hin : Inside area spots) {v : VReg} (hv : v.index.toNat < n) : t.cells v = s.cells v := by
  have hnot : Spot.cell v ∉ spots := fun hmem => by
    obtain ⟨a, ha, -⟩ := hin _ hmem
    cases ha
  exact @get_of_fill s t cell n spots bytes hsame hk (.cell v) hv hnot

/-- **A value that misses the area is read as before**, and still misses it. -/
theorem Misses.after (h : Misses c k area s size value)
    (hsame : Same cell n (fill s spots bytes) t) (hk : ∀ spot ∈ spots, Keeps s spot)
    (hin : Inside area spots) (hp : Pointed c n) (hscratch : ∀ a, IsScratch cell a → area a) :
    readOf c k t size value = readOf c k s size value ∧ Misses c k area t size value := by
  have hcells : ∀ v : VReg, v.index.toNat < n → t.cells v = s.cells v := fun v hv =>
    cells_of_fill hsame hk hin hv
  refine ⟨readOf_congr hcells hp fun place hplace i hi => ?_, fun place hplace i hi a ha => ?_⟩
  · refine get_of_fill hsame hk (visible_found (h.readable hscratch place hplace i hi)) fun hmem => ?_
    obtain ⟨a, ha, harea⟩ := hin _ hmem
    exact h place hplace i hi a ha harea
  · rw [found_congr hcells hp] at ha
    exact h place hplace i hi a ha

end Meanwhile

/-! ### The fixed arguments -/

/-- A byte of a value is a constant, in a register, or where the value is found. -/
theorem spots_valueBytes {value : Value} {type : ValueType} {locs : List ByteLoc}
    (h : valueBytes value type c st = .ok (locs, st')) (hp : Pointed c st.draft.nextVReg.toNat)
    (hroom : st.draft.nextVReg.toNat + 2 < everything) (t : Store) :
    ∀ loc ∈ locs, ∀ a, spotOf k t loc = .memory a →
      ∃ place, value = .memory place ∧ ∃ i < type.size.toNat, found c k t place i = .memory a := by
  intro loc hloc a ha
  by_cases hmemory : ∃ place, value = .memory place
  · obtain ⟨place, rfl⟩ := hmemory
    obtain ⟨-, hlocs⟩ := placeBytes_spec hp h
    obtain ⟨i, hi, rfl⟩ := List.getElem_of_mem hloc
    have hrange : i < (List.range type.size.toNat).length := hlocs.length_eq ▸ hi
    have hlocated := hlocs.get hrange hi
    simp only [List.get_eq_getElem, List.getElem_range] at hlocated
    exact ⟨place, rfl, i, by simpa using hrange, (spotOf_located hlocated).symm.trans ha⟩
  · have hvalue : ∀ place, value ≠ .memory place := fun place hplace => hmemory ⟨place, hplace⟩
    have hs := valueBytes_spec h hvalue hp le_rfl hroom
    obtain ⟨byte, rfl⟩ | ⟨v, rfl, -⟩ := hs.simple loc hloc <;> cases ha

/-- The setting in which values are read while an area is written: the scratch pointer belongs to
the area, and registers from `n` on are not in use yet. -/
structure Setting (c : Context) (area : UInt16 → Prop) (n : ℕ) (d : Draft) : Prop where
  scratch : ∀ a, IsScratch d.pointerCell a → area a
  pointed : Pointed c n
  fresh : n ≤ d.nextVReg.toNat
  tracks : TracksA d

section Reading

variable {area : UInt16 → Prop} {spots : List Spot} {bytes : List UInt8} {value : Value}
  {type : ValueType} {m : ℕ}

theorem Setting.bounded (h : Setting c area n d) : n ≤ everything :=
  h.fresh.trans d.nextVReg.toNat_lt.le

theorem Setting.step {pre : Store → Prop} {post : Store → Store → Prop}
    (h : Setting c area n d) (hands : Hands k m d d' pre post) : Setting c area n d' :=
  ⟨by rw [hands.cell]; exact h.scratch, h.pointed, h.fresh.trans hands.grows, hands.tracks h.tracks⟩

theorem Setting.fork (h : Setting c area n d) : Setting c area n d.fork :=
  ⟨h.scratch, h.pointed, h.fresh, h.tracks⟩

/-- **The bytes of a value** that misses an area are found outside of it. -/
theorem hands_valueBytes {locs : List ByteLoc} (hd : Setting c area n st.draft)
    (h : valueBytes value type c st = .ok (locs, st'))
    (hroom : st.draft.nextVReg.toNat + 2 < everything) :
    locs.length = type.size.toNat ∧ (∀ loc ∈ locs, IsByte loc) ∧
      Hands k 2 st.draft st'.draft (fun s => Misses c k area s type.size.toNat value) fun s t =>
        (Same st.draft.pointerCell n s t ∧ Away k st.draft.pointerCell t locs ∧
          (∀ loc ∈ locs, ∀ a, spotOf k t loc = .memory a → ¬area a) ∧
          locs.map (worth k t) = readOf c k s type.size.toNat value) ∧
        t.regs.sp = s.regs.sp := by
  have hp := pointed_mono hd.pointed hd.fresh
  have hs := supplied_valueBytes (k := k) h hp hd.tracks hroom
  have hbytes : ∀ loc ∈ locs, IsByte loc := fun loc hloc => (hs.moved loc hloc).1
  refine ⟨hs.length, hbytes, (Hands.of_passes hs.passes).imp le_rfl
    (fun s hm => hm.readable hd.scratch) ?_⟩
  rintro s t - hm ⟨⟨hsame, hpresents⟩, hsp⟩
  refine ⟨⟨hsame.mono hd.fresh, hpresents.outside, fun loc hloc a ha => ?_, ?_⟩, hsp⟩
  · obtain ⟨place, rfl, i, hi, hfound⟩ := spots_valueBytes h hp hroom t loc hloc a ha
    rw [Same.found hsame hp] at hfound
    exact hm place rfl i hi a hfound
  · rw [← hpresents.map_eq]
    exact List.map_congr_left fun loc hloc => worth_eq (hbytes loc hloc)

/-- **A value is passed in slots.** -/
theorem hands_passValue {slot : UInt8} {x : Unit} (hd : Setting c area n st.draft)
    (hslots : Inside area (slotSpots c.convention.zeroPage slot.toNat type.size.toNat))
    (h : (do passBytes slot (← valueBytes value type) : Lower Unit) c st = .ok (x, st'))
    (hroom : st.draft.nextVReg.toNat + 2 < everything) :
    Hands k 2 st.draft st'.draft
      (fun s => LowPlain s ∧ Misses c k area s type.size.toNat value) fun s t =>
      Same st.draft.pointerCell n
        (fill s (slotSpots c.convention.zeroPage slot.toNat type.size.toNat)
          (readOf c k s type.size.toNat value)) t ∧ t.regs.sp = s.regs.sp := by
  obtain ⟨locs, st₁, hvalue, hpass⟩ := bind_ok.mp h
  obtain ⟨hlength, hbytes, hands⟩ := hands_valueBytes (k := k) hd hvalue hroom
  rw [← @UInt8.ofNat_toNat slot] at hpass
  have hpasses := Hands.of_passes
    (passes_passBytes (k := k) hpass fun loc hloc => Or.inl (hbytes loc hloc))
  rw [hlength, hands.cell] at hpasses
  have hfirst : Hands k 2 st.draft st₁.draft
      (fun s => LowPlain s ∧ Misses c k area s type.size.toNat value) fun s t =>
      LowPlain s ∧ _ := hands.imp le_rfl (fun _ hs => hs.2) fun s t _ hs h => ⟨hs.1, h⟩
  refine (hfirst.trans hpasses ?_).imp le_rfl (fun _ hs => hs) ?_
  · rintro s t - ⟨hlow, ⟨hsame, haway, hmiss, -⟩, -⟩
    refine ⟨hlow.same hsame, haway, fun loc hloc hmem => ?_⟩
    obtain ⟨a, ha, harea⟩ := hslots _ hmem
    exact hmiss loc hloc a ha harea
  · rintro s u - ⟨hlow, -⟩ ⟨t, ⟨-, ⟨hsame, -, -, hworth⟩, hsp⟩, hfill, hsp'⟩
    rw [hworth] at hfill
    exact ⟨(same_fill hsame (keeps_slots hlow _)).trans (hfill.mono hd.bounded), hsp'.trans hsp⟩

end Reading

/-- The slots of arguments, and what is read for them. -/
def argumentSpots (z : ZeroPage) (pairs : List (Argument × ParamSlot)) : List Spot :=
  pairs.flatMap fun pair => slotSpots z pair.2.slot.toNat pair.2.type.size.toNat

def argumentBytes (c : Context) (k : Linkage) (s : Store) (pairs : List (Argument × ParamSlot)) :
    List UInt8 :=
  pairs.flatMap fun pair => readOf c k s pair.2.type.size.toNat pair.1.value

section Arguments

variable {area : UInt16 → Prop} {pairs : List (Argument × ParamSlot)}

theorem length_argumentBytes (z : ZeroPage) (pairs : List (Argument × ParamSlot)) :
    (argumentSpots z pairs).length = (argumentBytes c k s pairs).length := by
  simp [argumentSpots, argumentBytes, List.length_flatMap, length_slotSpots, length_readOf]

theorem keeps_arguments (h : LowPlain s) (z : ZeroPage) :
    ∀ spot ∈ argumentSpots z pairs, Keeps s spot := by
  intro spot hspot
  obtain ⟨pair, -, hmem⟩ := List.mem_flatMap.mp hspot
  exact keeps_slots h z spot hmem

/-- **The fixed arguments** are passed in their slots. -/
theorem hands_passArguments : ∀ {pairs : List (Argument × ParamSlot)} {st st' : State} {x : Unit},
    Setting c area n st.draft → Inside area (argumentSpots c.convention.zeroPage pairs) →
    passArguments pairs c st = .ok (x, st') →
    st.draft.nextVReg.toNat + 2 * pairs.length + 2 < everything →
    Hands k (2 * pairs.length) st.draft st'.draft
      (fun s => LowPlain s ∧
        ∀ pair ∈ pairs, Misses c k area s pair.2.type.size.toNat pair.1.value) fun s t =>
      Same st.draft.pointerCell n (fill s (argumentSpots c.convention.zeroPage pairs)
        (argumentBytes c k s pairs)) t ∧ t.regs.sp = s.regs.sp
  | [], st, st', x, _, _, h, _ => by
    obtain ⟨-, rfl⟩ := pure_ok.mp h
    exact Hands.refl fun s _ _ => ⟨Same.refl s, rfl⟩
  | (arg, param) :: rest, st, st', x, hd, hin, h, hroom => by
    obtain ⟨locs, st₀, hvalue, h₀⟩ := bind_ok.mp h
    obtain ⟨y, st₁, hpass, hrest⟩ := bind_ok.mp h₀
    simp only [List.length_cons] at hroom
    have hslots : Inside area
        (slotSpots c.convention.zeroPage param.slot.toNat param.type.size.toNat) := fun spot hspot =>
      hin spot (List.mem_append_left _ hspot)
    have hmore : Inside area (argumentSpots c.convention.zeroPage rest) := fun spot hspot =>
      hin spot (List.mem_append_right _ hspot)
    have hfirst := hands_passValue (k := k) hd hslots (bind_ok.mpr ⟨locs, st₀, hvalue, hpass⟩)
      (by omega)
    have hbounded := hfirst.bounded
    have ih := hands_passArguments (hd.step hfirst) hmore hrest (by omega)
    rw [hfirst.cell] at ih
    have hhead : Hands k 2 st.draft st₁.draft (fun s => LowPlain s ∧ ∀ pair ∈ (arg, param) :: rest,
        Misses c k area s pair.2.type.size.toNat pair.1.value) _ :=
      hfirst.imp le_rfl (fun s hs => ⟨hs.1, hs.2 _ (List.mem_cons_self ..)⟩) fun _ _ _ _ h => h
    -- The other arguments are read as they were before.
    have hafter : ∀ {s t : Store}, LowPlain s → (∀ pair ∈ (arg, param) :: rest,
        Misses c k area s pair.2.type.size.toNat pair.1.value) →
        Same st.draft.pointerCell n (fill s
          (slotSpots c.convention.zeroPage param.slot.toNat param.type.size.toNat)
          (readOf c k s param.type.size.toNat arg.value)) t → ∀ pair ∈ rest,
        readOf c k t pair.2.type.size.toNat pair.1.value =
            readOf c k s pair.2.type.size.toNat pair.1.value ∧
          Misses c k area t pair.2.type.size.toNat pair.1.value := fun hlow hmiss hsame pair hpair =>
      (hmiss pair (List.mem_cons_of_mem _ hpair)).after hsame (keeps_slots hlow _) hslots hd.pointed
        hd.scratch
    refine (hhead.trans ih ?_).imp (by simp only [List.length_cons]; omega) (fun _ hs => hs) ?_
    · rintro s t ⟨hlow, hmiss⟩ ⟨hsame, -⟩
      exact ⟨lowPlain_fill hlow hsame, fun pair hpair => (hafter hlow hmiss hsame pair hpair).2⟩
    · rintro s u - ⟨hlow, hmiss⟩ ⟨t, ⟨hsame, hsp⟩, hfill, hsp'⟩
      have hbytes : argumentBytes c k t rest = argumentBytes c k s rest :=
        List.flatMap_congr fun pair hpair => (hafter hlow hmiss hsame pair hpair).1
      rw [hbytes] at hfill
      refine ⟨?_, hsp'.trans hsp⟩
      have hall : fill s (argumentSpots c.convention.zeroPage ((arg, param) :: rest))
          (argumentBytes c k s ((arg, param) :: rest)) = fill (fill s
            (slotSpots c.convention.zeroPage param.slot.toNat param.type.size.toNat)
            (readOf c k s param.type.size.toNat arg.value))
          (argumentSpots c.convention.zeroPage rest) (argumentBytes c k s rest) :=
        fill_append (by rw [length_slotSpots, length_readOf])
      rw [hall]
      exact (same_fill hsame fun spot hspot =>
        keeps_fill.mpr (keeps_arguments hlow _ spot hspot)).trans hfill

end Arguments

/-! ### The variadic arguments -/

/-- The bytes of the stack page to which pushes go, in their order. -/
def pushed (sp : UInt8) (m : ℕ) : List Spot :=
  (List.range m).map fun i => .memory (Machine.stackAddress (sp - UInt8.ofNat i))

/-- The bytes of variadic arguments, in the order of their declaration. -/
def blockBytes (c : Context) (k : Linkage) (s : Store) (args : List Argument) : List UInt8 :=
  args.flatMap fun arg => readOf c k s arg.type.size.toNat arg.value

section Pushes

variable {sp : UInt8} {m : ℕ} {area : UInt16 → Prop}

theorem length_pushed (sp : UInt8) (m : ℕ) : (pushed sp m).length = m := by simp [pushed]

theorem sub_add_eq (a b e : UInt8) : a - (b + e) = a - b - e := by grind

theorem pushed_add (sp : UInt8) (m more : ℕ) :
    pushed sp (m + more) = pushed sp m ++ pushed (sp - UInt8.ofNat m) more := by
  unfold pushed
  rw [List.range_add, List.map_append, List.map_map]
  refine congrArg _ (List.map_congr_left fun i _ => ?_)
  rw [Function.comp_apply, UInt8.ofNat_add, sub_add_eq]

theorem pushed_succ (sp : UInt8) (m : ℕ) :
    pushed sp (m + 1) = .memory (Machine.stackAddress sp) :: pushed (sp - 1) m := by
  rw [Nat.add_comm, pushed_add]
  simp [pushed]

theorem keeps_pushed (h : LowPlain s) : ∀ spot ∈ pushed sp m, Keeps s spot := by
  intro spot hspot
  obtain ⟨i, -, rfl⟩ := List.mem_map.mp hspot
  exact h.stack _

theorem length_blockBytes (args : List Argument) :
    (blockBytes c k s args).length = Bodies.sizeOf args := by
  induction args with
  | nil => rfl
  | cons arg rest ih =>
    rw [blockBytes, List.flatMap_cons, List.length_append, length_readOf]
    rw [blockBytes] at ih
    rw [ih]
    exact (totalOf_cons (fun a : Argument => a.type.size.toNat) arg rest).symm

/-- A byte is loaded and pushed. -/
theorem hands_pushByte {loc : ByteLoc} (hloc : IsByte loc) :
    Hands k 0 d ((d.loadA loc).bare .pha)
      (fun s => LowPlain s ∧ Outside d.pointerCell (spotOf k s loc)) fun s t =>
      Same d.pointerCell everything (put s (top s) (worth k s loc)) t ∧ t.regs.sp = s.regs.sp - 1 := by
  have hload := Hands.of_passes (passes_load (k := k) d (Or.inl hloc))
  have hpha := Hands.of_op (emits_pha (n := everything) (k := k) (d.loadA loc))
  rw [hload.cell] at hpha
  have hload' : Hands k 0 d (d.loadA loc)
      (fun s => LowPlain s ∧ Outside d.pointerCell (spotOf k s loc)) _ :=
    hload.imp le_rfl (fun _ hs => hs.2) fun _ _ _ _ h => h
  refine (hload'.trans hpha fun s t hs ht => hs.1.same ht.1.1).imp le_rfl (fun _ hs => hs) ?_
  rintro s u - ⟨hlow, -⟩ ⟨t, ⟨⟨hsame, ha⟩, hsp⟩, hpushed, hsp'⟩
  have htop : top t = top s := by rw [top, hsp]; rfl
  rw [htop, ha] at hpushed
  exact ⟨(hsame.put (keeps_top hlow) _).trans hpushed, hsp'.trans (congrArg (· - 1) hsp)⟩

/-- **Bytes are pushed one after the other.** -/
theorem hands_pushAll : ∀ {locs : List ByteLoc} {st st' : State} {x : Unit},
    (locs.forM fun byte => do loadA byte; bare .pha : Lower Unit) c st = .ok (x, st') →
    (∀ loc ∈ locs, IsByte loc) → Hands k 0 st.draft st'.draft
      (fun s => Handable k st.draft.pointerCell locs (pushed s.regs.sp locs.length) s) fun s t =>
      Same st.draft.pointerCell everything
        (fill s (pushed s.regs.sp locs.length) (locs.map (worth k s))) t ∧
        t.regs.sp = s.regs.sp - UInt8.ofNat locs.length
  | [], st, st', x, h, _ => by
    obtain ⟨-, rfl⟩ := pure_ok.mp h
    exact Hands.refl fun s _ _ => ⟨Same.refl s, (UInt8.sub_zero _).symm⟩
  | loc :: rest, st, st', x, h, hlocs => by
    obtain ⟨y, st₁, hfirst, hrest⟩ := bind_ok.mp h
    obtain ⟨z, st₂, hload, hpush⟩ := bind_ok.mp hfirst
    cases hload
    cases hpush
    have hloadable : ∀ l ∈ rest, IsLoadable l := fun l hl => Or.inl (hlocs l (List.mem_cons_of_mem _ hl))
    have hone := hands_pushByte (k := k) (d := st.draft) (hlocs loc (List.mem_cons_self ..))
    have ih := hands_pushAll hrest fun l hl => hlocs l (List.mem_cons_of_mem _ hl)
    have hcell : ((st.draft.loadA loc).bare .pha).pointerCell = st.draft.pointerCell := hone.cell
    rw [hcell] at ih
    have hone' : Hands k 0 st.draft ((st.draft.loadA loc).bare .pha) (fun s =>
        Handable k st.draft.pointerCell (loc :: rest) (pushed s.regs.sp (loc :: rest).length) s) _ :=
      hone.imp le_rfl (fun s hs => ⟨hs.1, hs.2.1 loc (List.mem_cons_self ..)⟩) fun _ _ _ _ h => h
    -- After the first push the others go below it.
    have hrest : ∀ {s t : Store},
        Handable k st.draft.pointerCell (loc :: rest) (pushed s.regs.sp (loc :: rest).length) s →
        Same st.draft.pointerCell everything (put s (top s) (worth k s loc)) t →
        Handable k st.draft.pointerCell rest (pushed (s.regs.sp - 1) rest.length) t ∧
          rest.map (worth k t) = rest.map (worth k s) := fun hs hsame => by
      rw [List.length_cons, pushed_succ] at hs
      exact hs.next hloadable (keeps_top hs.1) hsame
    refine (hone'.trans ih fun s t hs ht => ?_).imp le_rfl (fun _ hs => hs) ?_
    · rw [ht.2]
      exact (hrest hs ht.1).1
    · rintro s u - hs ⟨t, ⟨hsame, hsp⟩, hfill, hsp'⟩
      rw [(hrest hs hsame).2, hsp] at hfill
      rw [List.length_cons, pushed_succ]
      refine ⟨same_fill_cons hsame (keeps_pushed hs.1) hfill, ?_⟩
      rw [hsp', hsp, Nat.add_comm, UInt8.ofNat_add, sub_add_eq]
      rfl

/-- Variadic arguments can be pushed: none of them is read in the area that the stack belongs to. -/
def Pushable (c : Context) (k : Linkage) (area : UInt16 → Prop) (args : List Argument) (s : Store) :
    Prop :=
  LowPlain s ∧ Inside area (pushed s.regs.sp (Bodies.sizeOf args)) ∧
    ∀ arg ∈ args, Misses c k area s arg.type.size.toNat arg.value

theorem pushed_sizeOf_cons (sp : UInt8) (arg : Argument) (rest : List Argument) :
    pushed sp (Bodies.sizeOf (arg :: rest)) = pushed sp (Bodies.sizeOf rest) ++
      pushed (sp - UInt8.ofNat (Bodies.sizeOf rest)) arg.type.size.toNat := by
  rw [Bodies.sizeOf_cons, pushed_add]

theorem Pushable.rest {arg : Argument} {others : List Argument}
    (h : Pushable c k area (arg :: others) s) : Pushable c k area others s :=
  ⟨h.1, fun spot hspot => h.2.1 spot (by
    rw [pushed_sizeOf_cons]
    exact List.mem_append_left _ hspot), fun a ha => h.2.2 a (List.mem_cons_of_mem _ ha)⟩

/-- Arguments have been pushed. -/
def Pushed (c : Context) (k : Linkage) (cell : UInt8) (n : ℕ) (args : List Argument) (s t : Store) :
    Prop :=
  Same cell n (fill s (pushed s.regs.sp (Bodies.sizeOf args)) (blockBytes c k s args).reverse) t ∧
    t.regs.sp = s.regs.sp - UInt8.ofNat (Bodies.sizeOf args)

/-- **The bytes of an argument are at hand** when the arguments behind it have been pushed. -/
theorem hands_behind {m : ℕ} {arg : Argument} {rest : List Argument} {locs : List ByteLoc}
    {st₁ st₂ : State} (hd : Setting c area n st.draft)
    (hrest : Hands k m st.draft st₁.draft (Pushable c k area rest)
      (Pushed c k st.draft.pointerCell n rest))
    (h : valueBytes arg.value arg.type c st₁ = .ok (locs, st₂))
    (hroom : st₁.draft.nextVReg.toNat + 2 < everything) :
    Hands k (m + 2) st.draft st₂.draft (Pushable c k area (arg :: rest)) fun s t =>
      Pushed c k st.draft.pointerCell n rest s t ∧
        Handable k st.draft.pointerCell locs.reverse (pushed t.regs.sp arg.type.size.toNat) t ∧
        locs.map (worth k t) = readOf c k s arg.type.size.toNat arg.value := by
  obtain ⟨-, -, hread⟩ := hands_valueBytes (k := k) (hd.step hrest) h hroom
  rw [hrest.cell] at hread
  -- The pushes do not touch the argument.
  have hkept : ∀ {s t : Store}, Pushable c k area (arg :: rest) s →
      Pushed c k st.draft.pointerCell n rest s t →
      readOf c k t arg.type.size.toNat arg.value = readOf c k s arg.type.size.toNat arg.value ∧
        Misses c k area t arg.type.size.toNat arg.value := fun hs ht =>
    (hs.2.2 arg (List.mem_cons_self ..)).after ht.1 (keeps_pushed hs.1) hs.rest.2.1 hd.pointed
      hd.scratch
  have hfront : Hands k m st.draft st₁.draft (Pushable c k area (arg :: rest)) _ :=
    hrest.imp le_rfl (fun _ hs => hs.rest) fun _ _ _ _ h => h
  refine (hfront.trans hread fun s t hs ht => (hkept hs ht).2).imp le_rfl (fun _ hs => hs) ?_
  rintro s u - hs ⟨t, ht, ⟨hsame, haway, hapart, hworth⟩, hsp⟩
  have hall : Same st.draft.pointerCell n _ u := ht.1.trans hsame
  refine ⟨⟨hall, hsp.trans ht.2⟩, ⟨lowPlain_fill hs.1 hall,
    fun loc hloc => haway loc (List.mem_reverse.mp hloc), fun loc hloc hmem => ?_⟩,
    hworth.trans (hkept hs ht).1⟩
  rw [hsp, ht.2] at hmem
  obtain ⟨a, ha, harea⟩ := hs.2.1 _ (by
    rw [pushed_sizeOf_cons]
    exact List.mem_append_right _ hmem)
  exact hapart loc (List.mem_reverse.mp hloc) a ha harea

/-- **The variadic arguments** are pushed so that the first one comes lowest. -/
theorem hands_pushVariadic {node : Node} : ∀ {args : List Argument} {st st' : State}
    {block : UInt16}, Setting c area n st.draft →
    pushVariadic node args c st = .ok (block, st') →
    st.draft.nextVReg.toNat + 2 * args.length + 2 < everything →
    block.toNat = Bodies.sizeOf args ∧ Hands k (2 * args.length) st.draft st'.draft
      (Pushable c k area args) (Pushed c k st.draft.pointerCell n args)
  | [], st, st', block, _, h, _ => by
    obtain ⟨rfl, rfl⟩ := pure_ok.mp h
    exact ⟨rfl, Hands.refl fun s _ _ => ⟨Same.refl s, (UInt8.sub_zero _).symm⟩⟩
  | arg :: rest, st, st', block, hd, h, hroom => by
    obtain ⟨above, st₁, hrest, h₁⟩ := bind_ok.mp h
    obtain ⟨x, st₂, hcheck, h₂⟩ := bind_ok.mp h₁
    obtain ⟨-, rfl⟩ := checkScalar_ok hcheck
    obtain ⟨locs, st₃, hvalue, h₃⟩ := bind_ok.mp h₂
    obtain ⟨y, st₄, hpush, hadd⟩ := bind_ok.mp h₃
    obtain ⟨hsum, rfl⟩ := Shapes.lift_ok hadd
    simp only [List.length_cons] at hroom
    obtain ⟨habove, ih⟩ := hands_pushVariadic hd hrest (by omega)
    have hbounded := ih.bounded
    obtain ⟨hlength, hbytes, hread⟩ := hands_valueBytes (k := k) (hd.step ih) hvalue (by omega)
    have hbehind := hands_behind hd ih hvalue (by omega)
    have hpushes := hands_pushAll (k := k) hpush fun loc hloc => hbytes loc (List.mem_reverse.mp hloc)
    rw [List.length_reverse, hlength, hbehind.cell] at hpushes
    refine ⟨by rw [addWords_eq_ok_iff.mp hsum, habove, Bodies.sizeOf_cons], ?_⟩
    refine (hbehind.trans hpushes fun s t _ ht => ht.2.1).imp
      (by simp only [List.length_cons]; omega) (fun _ hs => hs) ?_
    rintro s u - ⟨hlow, -⟩ ⟨t, ⟨⟨hsame, hsp⟩, -, hworth⟩, hfill, hsp'⟩
    rw [List.map_reverse, hworth, hsp] at hfill
    have hblock : (blockBytes c k s (arg :: rest)).reverse = (blockBytes c k s rest).reverse ++
        (readOf c k s arg.type.size.toNat arg.value).reverse := List.reverse_append
    refine ⟨?_, by rw [hsp', hsp, Bodies.sizeOf_cons, UInt8.ofNat_add, sub_add_eq]⟩
    rw [pushed_sizeOf_cons, hblock, fill_append (by rw [length_pushed, List.length_reverse,
      length_blockBytes])]
    exact (same_fill hsame fun spot hspot => keeps_fill.mpr (keeps_pushed hlow spot hspot)).trans
      (hfill.mono hd.bounded)

end Pushes

/-- The steps that pass the address of a block of at most 255 bytes and its size. -/
theorem passPointer_ok {callee : String} {shape : Binding} {block block' : UInt16}
    (h : passPointer callee shape block c st = .ok (block', st')) :
    block' = block ∧ block ≤ 0xFF ∧ ∃ count pointer, shape.vaCountSlot = some count ∧
      shape.vaPtrSlot = some pointer ∧ ∃ st₁ st₂ : State, ∃ x y : Unit,
        st₁.draft = ((st.draft.bare .tsx).bare .inx).op .stx
          (.zeroPage (c.convention.zeroPage.arg pointer)) ∧
        passByte (UInt8.ofNat (pointer.toNat + 1)) (.byte 0x01) c st₁ = .ok (x, st₂) ∧
        passByte (UInt8.ofNat count.toNat) (.byte block.toUInt8) c st₂ = .ok (y, st') := by
  unfold passPointer at h
  simp only at h
  split at h
  · cases h
  · rename_i hsmall
    cases hcount : shape.vaCountSlot with
    | none =>
      simp only [hcount] at h
      cases h
    | some count =>
    cases hpointer : shape.vaPtrSlot with
    | none =>
      simp only [hcount, hpointer] at h
      cases h
    | some pointer =>
    simp only [hcount, hpointer] at h
    obtain ⟨x₁, st₁, htsx, h₁⟩ := bind_ok.mp h
    obtain ⟨x₂, st₂, hinx, h₂⟩ := bind_ok.mp h₁
    obtain ⟨c', st₃, hread, h₃⟩ := bind_ok.mp h₂
    obtain ⟨x₄, st₄, hstx, h₄⟩ := bind_ok.mp h₃
    obtain ⟨x₅, st₅, hhi, h₅⟩ := bind_ok.mp h₄
    obtain ⟨x₆, st₆, hlo, hpure⟩ := bind_ok.mp h₅
    obtain ⟨rfl, rfl⟩ := pure_ok.mp hpure
    cases hread
    have hslot : pointer + 1 = UInt8.ofNat (pointer.toNat + 1) := by
      rw [UInt8.ofNat_add, UInt8.ofNat_toNat]
      rfl
    rw [hslot] at hhi
    rw [← @UInt8.ofNat_toNat count] at hlo
    refine ⟨rfl, UInt16.not_lt.mp hsmall, count, pointer, rfl, rfl, st₄, st₅, x₅, x₆, ?_, hhi, hlo⟩
    rw [modifyDraft_ok hstx, modifyDraft_ok hinx, modifyDraft_ok htsx]

/-- The offset of the lowest byte of the block is passed in a slot. -/
theorem hands_passOffset (z : ZeroPage) (pointer : UInt8) :
    Hands k 0 d (((d.bare .tsx).bare .inx).op .stx (.zeroPage (z.arg pointer))) LowPlain fun s t =>
      Same d.pointerCell everything (put s (slotSpot z pointer.toNat) (s.regs.sp + 1)) t ∧
        t.regs.sp = s.regs.sp := by
  have hlines := ((Hands.of_op (emits_transfer (k := k) d (show isTransfer .tsx = true from rfl))).trans
    (Hands.of_op (emits_transfer (d.bare .tsx) (show isTransfer .inx = true from rfl)))
      fun _ _ _ _ => trivial).trans
    (Hands.of_op (emits_stx ((d.bare .tsx).bare .inx) (z.arg pointer))) fun _ _ _ _ => trivial
  refine hlines.imp le_rfl (fun _ _ => trivial) ?_
  rintro s w - hlow ⟨v, ⟨u, rfl, rfl⟩, rfl⟩
  have hslot : Spot.memory (z.arg pointer).toUInt16 = slotSpot z pointer.toNat := by
    rw [slotSpot, UInt8.ofNat_toNat]
  rw [hslot]
  refine ⟨Same.put ?_ (keeps_slot hlow _ _) _, by rw [regs_put]; rfl⟩
  exact (Same.setRegs s _).trans (Same.setRegs _ _)

/-- **The address of the block** on the stack and its size are passed in three slots. -/
theorem hands_passPointer {callee : String} {shape : Binding} {block block' : UInt16}
    (h : passPointer callee shape block c st = .ok (block', st')) :
    block' = block ∧ block ≤ 0xFF ∧ ∃ count pointer, shape.vaCountSlot = some count ∧
      shape.vaPtrSlot = some pointer ∧ Hands k 0 st.draft st'.draft LowPlain fun s t =>
        Same st.draft.pointerCell everything (fill s
          [slotSpot c.convention.zeroPage pointer.toNat,
            slotSpot c.convention.zeroPage (pointer.toNat + 1),
            slotSpot c.convention.zeroPage count.toNat] [s.regs.sp + 1, 1, block.toUInt8]) t ∧
          t.regs.sp = s.regs.sp := by
  obtain ⟨rfl, hsmall, count, pointer, hcount, hpointer, st₁, st₂, x, y, hdraft, hhi, hlo⟩ :=
    passPointer_ok h
  refine ⟨rfl, hsmall, count, pointer, hcount, hpointer, ?_⟩
  have hfirst := hands_passOffset (k := k) (d := st.draft) c.convention.zeroPage pointer
  rw [← hdraft] at hfirst
  have hsecond := Hands.of_passes (passes_passByte (k := k) (Or.inr ⟨_, rfl⟩) hhi)
  have hthird := Hands.of_passes (passes_passByte (k := k) (Or.inr ⟨_, rfl⟩) hlo)
  rw [hfirst.cell] at hsecond
  rw [hsecond.cell, hfirst.cell] at hthird
  refine ((hfirst.trans hsecond fun s t hlow ht => ⟨(hlow.put _ _).same ht.1, fun a ha => by
    cases ha⟩).trans hthird fun s t hlow ht => ⟨?_, fun a ha => by cases ha⟩).imp le_rfl
      (fun _ hs => hs) ?_
  · obtain ⟨u, ⟨hsame, -⟩, hsame', -⟩ := ht
    exact ((((hlow.put _ _).same hsame).put _ _).same hsame')
  · rintro s w - hlow ⟨v, ⟨u, ⟨hu, hsp⟩, hv, hsp'⟩, hw, hsp''⟩
    have hkeeps : ∀ i, Keeps s (slotSpot c.convention.zeroPage i) := keeps_slot hlow _
    refine ⟨same_fill_cons hu (by simp [hkeeps]) (same_fill_cons hv ?_ hw), hsp''.trans (hsp'.trans hsp)⟩
    have hlow' : LowPlain u := (hlow.put _ _).same hu
    simpa using keeps_slot hlow' _ _

end Codegen6502.Proofs.Selecting.Passing
