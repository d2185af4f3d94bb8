import Codegen6502.Proofs.Selecting.Courses

/-!
# Reading values

What code reads where a value should be read (`readOf`).  It is the value (`readOf_eq`), but behind
a pointer: there the offset of each byte is counted in 8 bits, and behind offset 255 comes offset 0.

`supplied_valueBytes` and `supplied_operandBytes` say that the locations that lowering finds for the
bytes of a value hold what is read, after code that leaves everything in use alone.
-/

namespace Codegen6502.Proofs.Selecting.Reading

open Selection Growth
open Processor.Memory Processor.LineRun Processor.Straight
open Tracking Places Moves Courses

variable {c : Context} {k : Linkage} {s t u : Store} {st st' : State} {d d' : Draft}
  {cell : UInt8} {n size : ℕ}

/-! ### What is read -/

/-- The byte that code takes for byte `i` of a place. -/
def found (c : Context) (k : Linkage) (s : Store) : Place → ℕ → Spot
  | .indirect base offset, i =>
    .memory (addressIn s (registersOf c base) + (offset + UInt8.ofNat i).toUInt16)
  | .returnSlot offset, i =>
    .memory (addressIn s (resultRegisters c) + (offset + UInt8.ofNat i).toUInt16)
  | place, i => plus (start c k s place) i

/-- The bytes that code takes for the bytes of a value. -/
def readOf (c : Context) (k : Linkage) (s : Store) (size : ℕ) : Value → List UInt8
  | .memory place => (List.range size).map fun i => get s (found c k s place i)
  | value => bytesOf c k s size value

/-- Whether the offset of a byte of a value does not fit into 8 bits. -/
def Wraps (size : ℕ) : Value → Prop
  | .memory (.indirect _ offset) | .memory (.returnSlot offset) => 256 < offset.toNat + size
  | _ => False

theorem toUInt16_offset {offset : UInt8} {i : ℕ} (h : offset.toNat + i < 256) :
    (offset + UInt8.ofNat i).toUInt16 = offset.toUInt16 + UInt16.ofNat i := by
  refine UInt16.toNat_inj.mp ?_
  simp only [UInt8.toNat_toUInt16, UInt8.toNat_add, UInt16.toNat_add, UInt8.toNat_ofNat',
    UInt16.toNat_ofNat']
  omega

theorem found_eq {place : Place} {i : ℕ} (h : ¬Wraps size (.memory place)) (hi : i < size) :
    found c k s place i = plus (start c k s place) i := by
  cases place with
  | indirect base offset | returnSlot offset =>
    have hfits : offset.toNat + i < 256 := by
      simp only [Wraps, not_lt] at h
      omega
    simp only [found, start, plus, toUInt16_offset hfits, UInt16.add_assoc]
  | _ => rfl

/-- **What is read is the value** if no offset wraps. -/
theorem readOf_eq {value : Value} (h : ¬Wraps size value) :
    readOf c k s size value = bytesOf c k s size value := by
  cases value with
  | memory place =>
    refine List.map_congr_left fun i hi => ?_
    rw [found_eq h (List.mem_range.mp hi)]
  | _ => rfl

theorem length_readOf (value : Value) : (readOf c k s size value).length = size := by
  cases value with
  | memory place => simp [readOf]
  | constant v => simp [readOf, bytesOf]
  | temp x => simp [readOf, bytesOf]

/-- The low byte of a value. -/
def lowOf (c : Context) (k : Linkage) (s : Store) (value : Value) : UInt8 :=
  (bytesOf c k s 1 value).headD 0

theorem bytesOf_low (s : Store) (value : Value) : bytesOf c k s 1 value = [lowOf c k s value] := by
  obtain ⟨byte, hbyte⟩ := List.length_eq_one_iff.mp (length_bytesOf (c := c) (k := k) (s := s) 1 value)
  rw [lowOf, hbyte]
  rfl

/-- A single byte never wraps. -/
theorem readOf_low (s : Store) (value : Value) : readOf c k s 1 value = [lowOf c k s value] := by
  have hwraps : ¬ Wraps 1 value := by
    cases value with
    | memory place =>
      cases place with
      | indirect base offset | returnSlot offset =>
        have := offset.toNat_lt
        unfold Wraps
        omega
      | _ => exact id
    | _ => exact id
  rw [readOf_eq hwraps, bytesOf_low]

theorem lowOf_memory (s : Store) (place : Place) :
    lowOf c k s (.memory place) = get s (found c k s place 0) :=
  (List.singleton_inj.mp (readOf_low s (.memory place))).symm

theorem spotOf_located {place : Place} {i : ℕ} {loc : ByteLoc}
    (h : Locates c n (place.displaced (UInt16.ofNat i)) loc) :
    spotOf k s loc = found c k s place i := by
  have hbyte : (UInt16.ofNat i).toUInt8 = UInt8.ofNat i := by
    refine UInt8.toNat_inj.mp ?_
    simp only [UInt16.toNat_toUInt8, UInt16.toNat_ofNat', UInt8.toNat_ofNat']
    omega
  rw [h.spot]
  cases place with
  | absolute address => rfl
  | global name offset => simp only [Place.displaced, start, found, plus, UInt16.add_assoc]
  | frameByte offset => simp only [Place.displaced, start, found, plus, hbyte]
  | indirect base offset => simp only [Place.displaced, start, found, hbyte]
  | banked bank offset => simp only [Place.displaced, start, found, plus, UInt16.add_assoc]
  | iocb channel field =>
    cases hfield : field.address? channel with
    | some address => simp only [Place.displaced, hfield, start, found, plus, Option.getD_some]
    | none =>
      have hsome := h.addressed channel field (by simp [Place.displaced, hfield])
      rw [hfield] at hsome
      cases hsome
  | returnSlot offset => simp only [Place.displaced, start, found, hbyte]

/-! ### Locations that hold bytes -/

/-- The locations hold the bytes, and none is in the scratch pointer. -/
def Presents (k : Linkage) (cell : UInt8) (t : Store) (locs : List ByteLoc) (bytes : List UInt8) :
    Prop :=
  List.Forall₂ (fun loc byte => get t (spotOf k t loc) = byte ∧ Outside cell (spotOf k t loc))
    locs bytes

/-- A location whose registers are in use looks the same in stores that look the same. -/
theorem Same.presented {loc : ByteLoc} {byte : UInt8} (h : Same cell n t u) (hloc : IsMoved n loc)
    (hp : get t (spotOf k t loc) = byte ∧ Outside cell (spotOf k t loc)) :
    get u (spotOf k u loc) = byte ∧ Outside cell (spotOf k u loc) := by
  rw [h.spotOf hloc.2]
  exact ⟨(h.get _ (visible_of_clear hloc hp.2)).trans hp.1, hp.2⟩

theorem Presents.same {locs : List ByteLoc} {bytes : List UInt8} (hp : Presents k cell t locs bytes)
    (h : Same cell n t u) (hlocs : ∀ loc ∈ locs, IsMoved n loc) : Presents k cell u locs bytes := by
  induction hp with
  | nil => exact .nil
  | cons hfirst _ ih =>
    exact .cons (Same.presented h (hlocs _ (List.mem_cons_self ..)) hfirst)
      (ih fun loc hloc => hlocs loc (List.mem_cons_of_mem _ hloc))

/-- No byte of the value is in the scratch pointer. -/
def Readable (c : Context) (k : Linkage) (cell : UInt8) (s : Store) (size : ℕ) (value : Value) :
    Prop :=
  ∀ place, value = .memory place → ∀ i < size, Outside cell (found c k s place i)

theorem pointed_mono {m : ℕ} (h : Pointed c m) (hle : m ≤ n) : Pointed c n :=
  ⟨fun x v hv => (h.temps x v hv).trans_le hle, fun v hv => (h.result v hv).trans_le hle⟩

section Congruence

variable (hcells : ∀ v : VReg, v.index.toNat < n → t.cells v = s.cells v)
include hcells

theorem addressIn_congr {vs : List VReg} (hvs : ∀ v ∈ vs, v.index.toNat < n) :
    addressIn t vs = addressIn s vs := by
  unfold addressIn
  split
  · rename_i lo hi
    rw [hcells lo (hvs lo (by simp)), hcells hi (hvs hi (by simp))]
  · rfl

/-- What is found for a place depends on the registers of pointers only. -/
theorem found_congr (hp : Pointed c n) (place : Place) (i : ℕ) :
    found c k t place i = found c k s place i := by
  cases place with
  | indirect base offset => simp only [found, addressIn_congr hcells (hp.temps base)]
  | returnSlot offset => simp only [found, addressIn_congr hcells hp.result]
  | _ => rfl

/-- What is read depends on registers in use and on the bytes that are found. -/
theorem readOf_congr {value : Value} (hp : Pointed c n)
    (hget : ∀ place, value = .memory place → ∀ i < size,
      get t (found c k s place i) = get s (found c k s place i)) :
    readOf c k t size value = readOf c k s size value := by
  cases value with
  | constant v => rfl
  | memory place =>
    refine List.map_congr_left fun i hi => ?_
    rw [found_congr hcells hp]
    exact hget place rfl i (List.mem_range.mp hi)
  | temp x =>
    have hcell : ∀ v ∈ registersOf c x, t.cells v = s.cells v := fun v hv =>
      hcells v (hp.temps x v hv)
    have hextension : extension c t x = extension c s x := by
      unfold extension
      split
      · rename_i top htop
        rw [hcell top (List.mem_of_getLast? htop)]
      · rfl
    simp only [readOf, bytesOf, hextension, List.map_congr_left hcell]

end Congruence

theorem Same.cells (h : Same cell n s t) {v : VReg} (hv : v.index.toNat < n) :
    t.cells v = s.cells v := h.get (.cell v) hv

theorem Same.found (h : Same cell n s t) (hp : Pointed c n) (place : Place) (i : ℕ) :
    found c k t place i = found c k s place i := found_congr (fun _ hv => Same.cells h hv) hp place i

theorem Readable.same {value : Value} (hr : Readable c k cell s size value) (h : Same cell n s t)
    (hp : Pointed c n) : Readable c k cell t size value := by
  intro place hvalue i hi
  rw [Same.found h hp]
  exact hr place hvalue i hi

theorem visible_found {place : Place} {i : ℕ} (h : Outside cell (found c k s place i)) :
    Visible cell n (found c k s place i) := by
  have hspot : (∃ a, found c k s place i = .memory a) ∨ ∃ o, found c k s place i = .frame o := by
    cases place <;> first | exact Or.inl ⟨_, rfl⟩ | exact Or.inr ⟨_, rfl⟩
  obtain ⟨a, ha⟩ | ⟨o, ho⟩ := hspot
  · rw [ha]
    exact h a ha
  · rw [ho]
    trivial

/-- What is read does not depend on what is not in use. -/
theorem Same.readOf {value : Value} (h : Same cell n s t) (hp : Pointed c n)
    (hr : Readable c k cell s size value) : readOf c k t size value = readOf c k s size value :=
  readOf_congr (fun _ hv => Same.cells h hv) hp fun place hvalue i hi =>
    h.get _ (visible_found (hr place hvalue i hi))

/-! ### The bytes of a value -/

theorem presents_map {locs : List ByteLoc} (h : ∀ loc ∈ locs, Outside cell (spotOf k t loc)) :
    Presents k cell t locs (locs.map fun loc => get t (spotOf k t loc)) :=
  List.forall₂_map_right_iff.mpr (List.forall₂_same.mpr fun loc hloc => ⟨rfl, h loc hloc⟩)

theorem presents_located {place : Place} {is : List ℕ} {locs : List ByteLoc}
    (h : List.Forall₂ (fun i loc => Locates c n (place.displaced (UInt16.ofNat i)) loc) is locs)
    (hout : ∀ i ∈ is, Outside cell (found c k s place i)) :
    Presents k cell s locs (is.map fun i => get s (found c k s place i)) := by
  induction h with
  | nil => exact .nil
  | @cons i loc _ _ hloc _ ih =>
    have hspot : spotOf k s loc = found c k s place i := spotOf_located hloc
    refine .cons ?_ (ih fun j hj => hout j (List.mem_cons_of_mem _ hj))
    rw [hspot]
    exact ⟨rfl, hout i (List.mem_cons_self ..)⟩

theorem isMoved_of_located {place : Place} {is : List ℕ} {locs : List ByteLoc}
    (h : List.Forall₂ (fun i loc => Locates c n (place.displaced (UInt16.ofNat i)) loc) is locs) :
    ∀ loc ∈ locs, IsMoved n loc := by
  induction h with
  | nil => exact fun _ hloc => (List.not_mem_nil hloc).elim
  | cons hloc _ ih =>
    intro loc hmem
    rcases List.mem_cons.mp hmem with rfl | hmem
    · exact ⟨hloc.isByte, hloc.below⟩
    · exact ih loc hmem

/-- A register among locations is new, or belongs to a temporary and stands there at the same
index. -/
def Ranked (c : Context) (n : ℕ) (locs : List ByteLoc) : Prop :=
  ∀ (i : ℕ) (v : VReg), locs[i]? = some (.vreg v) →
    (∃ x, (registersOf c x)[i]? = some v) ∨ n ≤ v.index.toNat

theorem Ranked.mono {m : ℕ} {locs : List ByteLoc} (h : Ranked c n locs) (hle : m ≤ n) :
    Ranked c m locs := fun i v hv => (h i v hv).imp id hle.trans

theorem ranked_of_forall {locs : List ByteLoc} (h : ∀ loc ∈ locs, ∀ v, loc ≠ .vreg v) :
    Ranked c n locs := fun _ v hv => absurd rfl (h _ (List.mem_of_getElem? hv) v)

/-- The first registers of a temporary, and behind them what it is extended by. -/
theorem ranked_temp {x : Temp} {fill : ByteLoc} (hfill : ∀ v, fill = .vreg v → n ≤ v.index.toNat)
    (m : ℕ) : Ranked c n (((registersOf c x).take size).map ByteLoc.vreg ++ List.replicate m fill) := by
  intro i v hv
  rw [List.getElem?_append] at hv
  split at hv
  · rw [List.getElem?_map] at hv
    obtain ⟨w, hw, heq⟩ := Option.map_eq_some_iff.mp hv
    cases heq
    rw [List.getElem?_take] at hw
    split at hw
    · exact Or.inl ⟨x, hw⟩
    · cases hw
  · exact Or.inr (hfill v (List.mem_replicate.mp (List.mem_of_getElem? hv)).2.symm)

theorem ne_vreg_of_located {place : Place} {is : List ℕ} {locs : List ByteLoc}
    (h : List.Forall₂ (fun i loc => Locates c n (place.displaced (UInt16.ofNat i)) loc) is locs) :
    ∀ loc ∈ locs, ∀ v, loc ≠ .vreg v := by
  induction h with
  | nil => exact fun _ hloc => (List.not_mem_nil hloc).elim
  | cons hloc _ ih =>
    intro loc hmem v hv
    rcases List.mem_cons.mp hmem with rfl | hmem
    · -- In any store a register is another spot than a byte of memory or of the frame.
      have hspot := hloc.spot plainLinkage followStore
      rw [hv] at hspot
      rcases start_cases (c := c) (k := plainLinkage) (s := followStore) _ with ⟨a, ha⟩ | ⟨o, ho⟩
      · cases hspot.trans ha
      · cases hspot.trans ho
    · exact ih loc hmem v hv

theorem ranked_valueBytes {value : Value} {type : ValueType} {locs : List ByteLoc}
    (h : valueBytes value type c st = .ok (locs, st')) (hp : Pointed c n)
    (hn : n ≤ st.draft.nextVReg.toNat) (hroom : st.draft.nextVReg.toNat + 2 < everything) :
    Ranked c n locs := by
  cases value with
  | constant v =>
    obtain ⟨_, st₁, -, hpure⟩ := bind_ok.mp h
    obtain ⟨rfl, -⟩ := pure_ok.mp hpure
    refine ranked_of_forall fun loc hloc v hv => ?_
    obtain ⟨i, -, rfl⟩ := List.mem_map.mp hloc
    cases hv
  | memory place =>
    obtain ⟨-, hlocs⟩ := placeBytes_spec hp h
    exact ranked_of_forall (ne_vreg_of_located hlocs)
  | temp x =>
    obtain ⟨info, st₁, hinfo, hrest⟩ := bind_ok.mp h
    obtain ⟨rfl, hget⟩ := tempInfo_ok hinfo
    have hregs : info.vregs = registersOf c x := by simp [registersOf, hget]
    simp only [hregs] at hrest
    split at hrest
    · split at hrest
      · cases hlast : (registersOf c x).getLast? with
        | none =>
          simp only [hlast] at hrest
          cases hrest
        | some top =>
          simp only [hlast] at hrest
          obtain ⟨fill, st₂, hfill, hpure⟩ := bind_ok.mp hrest
          obtain ⟨rfl, -⟩ := pure_ok.mp hpure
          obtain ⟨rfl, -⟩ := signByte_spec (k := ⟨fun _ => 0, 0⟩) hfill hn hroom
          refine ranked_temp (fun v hv => ?_) _
          cases hv
          exact hn
      · obtain ⟨fill, st₂, hfill, hpure⟩ := bind_ok.mp hrest
        obtain ⟨rfl, -⟩ := pure_ok.mp hpure
        obtain ⟨rfl, -⟩ := pure_ok.mp hfill
        exact ranked_temp (fun v hv => by cases hv) _
    · obtain ⟨rfl, -⟩ := pure_ok.mp hrest
      have hranked : Ranked c n (((registersOf c x).take type.size.toNat).map ByteLoc.vreg ++
          List.replicate 0 (.byte 0)) := ranked_temp (fun v hv => by cases hv) 0
      rwa [List.replicate_zero, List.append_nil] at hranked

/-- What lowering finds for the bytes of a value. -/
structure Supplied (c : Context) (k : Linkage) (value : Value) (size fresh : ℕ) (st st' : State)
    (locs : List ByteLoc) : Prop where
  length : locs.length = size
  moved : ∀ loc ∈ locs, IsMoved st'.draft.nextVReg.toNat loc
  ranked : Ranked c st.draft.nextVReg.toNat locs
  label : st'.nextLabel = st.nextLabel
  passes : Passes k fresh st.draft st'.draft
    (fun s => Readable c k st.draft.pointerCell s size value) fun s t =>
    Same st.draft.pointerCell st.draft.nextVReg.toNat s t ∧
      Presents k st.draft.pointerCell t locs (readOf c k s size value)

theorem supplied_valueBytes {value : Value} {type : ValueType} {locs : List ByteLoc}
    (h : valueBytes value type c st = .ok (locs, st'))
    (hp : Pointed c st.draft.nextVReg.toNat) (htracks : TracksA st.draft)
    (hroom : st.draft.nextVReg.toNat + 2 < everything) :
    Supplied c k value type.size.toNat 2 st st' locs := by
  have hlays : Lays c (Growth.Plain anywhere) (valueBytes value type) _ :=
    lays_valueBytes fun _ _ _ _ _ _ => trivial
  obtain ⟨⟨es, hes, hplain⟩, -⟩ := hlays _ _ _ h htracks
  have hranked := ranked_valueBytes h hp le_rfl hroom
  by_cases hmemory : ∃ place, value = .memory place
  · obtain ⟨place, rfl⟩ := hmemory
    obtain ⟨rfl, hlocs⟩ := placeBytes_spec hp h
    refine ⟨by simpa using hlocs.length_eq.symm, isMoved_of_located hlocs, hranked, rfl,
      (Passes.refl fun s _ hr => ⟨Same.refl s, ?_⟩).imp (Nat.zero_le 2) (fun _ hr => hr)
        fun _ _ _ _ h => h⟩
    exact presents_located hlocs fun i hi => hr place rfl i (List.mem_range.mp hi)
  · have hvalue : ∀ place, value ≠ .memory place := fun place hplace => hmemory ⟨place, hplace⟩
    have hs := valueBytes_spec h hvalue hp le_rfl hroom
    refine ⟨hs.length, fun loc hloc => ?_, hranked, hes.label, ⟨(hs.emits k).imp le_rfl
      (fun _ _ => trivial) ?_, es, hes.draft, hplain⟩⟩
    · obtain ⟨byte, rfl⟩ | ⟨v, rfl, hlt, -⟩ := hs.simple loc hloc
      · exact ⟨trivial, trivial⟩
      · exact ⟨trivial, hlt⟩
    · rintro s t - - ⟨hsame, hbytes⟩
      have hread : readOf c k s type.size.toNat value = bytesOf c k s type.size.toNat value := by
        cases value with
        | memory place => exact absurd rfl (hvalue place)
        | _ => rfl
      rw [hread, ← hbytes]
      refine ⟨hsame, presents_map fun loc hloc a ha => ?_⟩
      obtain ⟨byte, rfl⟩ | ⟨v, rfl, -⟩ := hs.simple loc hloc <;> cases ha

/-! ### Bytes copied out -/

/-- A byte behind a pointer is copied to a new register; others stay where they are. -/
theorem passes_materialize {loc loc' : ByteLoc} (h : d.materialize loc = .ok (loc', d'))
    (hloc : IsMoved d.nextVReg.toNat loc) (hroom : d.nextVReg.toNat + 1 < everything) :
    loc'.isIndirect = false ∧ IsMoved d'.nextVReg.toNat loc' ∧
      (loc' = loc ∨ loc' = .vreg ⟨d.nextVReg⟩) ∧
      Passes k 1 d d' (fun s => Outside d.pointerCell (spotOf k s loc)) fun s t =>
        Same d.pointerCell d.nextVReg.toNat s t ∧
          get t (spotOf k t loc') = get s (spotOf k s loc) ∧
          Outside d.pointerCell (spotOf k t loc') := by
  unfold Draft.materialize at h
  split at h
  · have hnew : Passes k 1 d d.newVReg.2 (fun s => Outside d.pointerCell (spotOf k s loc))
        fun s t => t = s :=
      (passes_newVReg hroom).imp le_rfl (fun _ _ => trivial) fun _ _ _ _ h => h
    have hload := passes_loadA (k := k) d.newVReg.2 hloc.1
    have hkeep := passes_keep (k := k) (d.newVReg.2.loadA loc) d.newVReg.1
    have hd' : (d.newVReg.2.loadA loc).op .sta (.virtual d.newVReg.1) = d' ∧
        ByteLoc.vreg d.newVReg.1 = loc' := by
      have hok := Except.ok.inj h
      exact ⟨congrArg Prod.snd hok, congrArg Prod.fst hok⟩
    obtain ⟨rfl, rfl⟩ := hd'
    have hnext := nextVReg_newVReg hroom
    have hgrows := hload.grows
    refine ⟨rfl, ⟨trivial, ?_⟩, Or.inr rfl, ?_⟩
    · change d.nextVReg.toNat < _
      exact lt_of_lt_of_le (by omega) hgrows
    · refine ((hnew.trans hload ?_).trans hkeep fun _ _ _ _ => trivial).imp le_rfl (fun _ hp => hp) ?_
      · rintro s t hout rfl
        exact hout
      · rintro s w - - ⟨u, ⟨t, rfl, ⟨hsame, ha⟩, -⟩, rfl⟩
        have hhidden : ¬Visible d.pointerCell d.nextVReg.toNat (.cell d.newVReg.1) :=
          not_lt.mpr le_rfl
        refine ⟨(hsame.mono (by have := d.nextVReg.toNat_lt; omega)).trans
          (Same.put_hidden (show Keeps u (.cell d.newVReg.1) from trivial) hhidden _), ?_,
          fun a ha => by cases ha⟩
        exact (Function.update_self ..).trans ha
  · rename_i hdirect
    cases h
    refine ⟨by simpa using hdirect, hloc, Or.inl rfl, (Passes.refl fun s _ hout => ?_).imp
      (Nat.zero_le 1) (fun _ hp => hp) fun _ _ _ _ h => h⟩
    exact ⟨Same.refl s, rfl, hout⟩

/-- What is left when all bytes of a list behind pointers have been copied out. -/
structure CopiedOut (k : Linkage) (st st' : State) (locs locs' : List ByteLoc) : Prop where
  length : locs'.length = locs.length
  direct : ∀ loc ∈ locs', loc.isIndirect = false
  moved : ∀ loc ∈ locs', IsMoved st'.draft.nextVReg.toNat loc
  copied : List.Forall₂ (fun loc loc' => loc' = loc ∨ ∃ v, loc' = .vreg v ∧
    st.draft.nextVReg.toNat ≤ v.index.toNat) locs locs'
  label : st'.nextLabel = st.nextLabel
  passes : Passes k locs.length st.draft st'.draft
    (fun s => ∀ loc ∈ locs, Outside st.draft.pointerCell (spotOf k s loc)) fun s t =>
    Same st.draft.pointerCell st.draft.nextVReg.toNat s t ∧
      Presents k st.draft.pointerCell t locs' (locs.map fun loc => get s (spotOf k s loc))

theorem copiedOut_mapM : ∀ {locs locs' : List ByteLoc} {st st' : State},
    locs.mapM materialize c st = .ok (locs', st') →
    (∀ loc ∈ locs, IsMoved st.draft.nextVReg.toNat loc) →
    st.draft.nextVReg.toNat + locs.length < everything → CopiedOut k st st' locs locs'
  | [], locs', st, st', h, _, _ => by
    obtain ⟨rfl, rfl⟩ := pure_ok.mp h
    exact ⟨rfl, by simp, by simp, .nil, rfl, Passes.refl fun s _ _ => ⟨Same.refl s, .nil⟩⟩
  | loc :: rest, locs', st, st', h, hlocs, hroom => by
    rw [List.mapM_cons] at h
    obtain ⟨first, st₁, hfirst, h1⟩ := bind_ok.mp h
    obtain ⟨others, st₂, hothers, h2⟩ := bind_ok.mp h1
    obtain ⟨rfl, rfl⟩ := pure_ok.mp h2
    obtain ⟨hdraft, hlabel⟩ := materialize_ok hfirst
    have hloc := hlocs loc (List.mem_cons_self ..)
    simp only [List.length_cons] at hroom
    obtain ⟨hdirect, hmoved, hcopied, hpasses⟩ := passes_materialize (k := k) hdraft hloc (by omega)
    have hgrows := hpasses.grows
    have hbounded := hpasses.bounded
    have hrest : ∀ l ∈ rest, IsMoved st.draft.nextVReg.toNat l := fun l hl =>
      hlocs l (List.mem_cons_of_mem _ hl)
    have ih := copiedOut_mapM hothers (fun l hl => (hrest l hl).mono hgrows) (by omega)
    have hgrows' := ih.passes.grows
    have hcell : st₁.draft.pointerCell = st.draft.pointerCell := hpasses.cell
    refine ⟨by simp [ih.length], ?_, ?_, ?_, ih.label.trans hlabel, ?_⟩
    · exact fun l hl => (List.mem_cons.mp hl).elim (fun heq => heq ▸ hdirect) (ih.direct l)
    · exact fun l hl => (List.mem_cons.mp hl).elim (fun heq => heq ▸ hmoved.mono hgrows') (ih.moved l)
    · exact .cons (hcopied.imp id fun heq => ⟨_, heq, le_rfl⟩)
        (ih.copied.imp fun _ _ => Or.imp id fun ⟨v, hv, hle⟩ => ⟨v, hv, hgrows.trans hle⟩)
    · have hfirst' : Passes k 1 st.draft st₁.draft
          (fun s => ∀ l ∈ loc :: rest, Outside st.draft.pointerCell (spotOf k s l)) _ :=
        hpasses.imp le_rfl (fun s hout => hout loc (List.mem_cons_self ..)) fun _ _ _ _ h => h
      have hsecond := ih.passes
      rw [hcell] at hsecond
      refine (hfirst'.trans hsecond ?_).imp (by simp only [List.length_cons]; omega)
        (fun _ hp => hp) ?_
      · rintro s t hout ⟨hsame, -⟩ l hl
        rw [hsame.spotOf (hrest l hl).2]
        exact hout l (List.mem_cons_of_mem _ hl)
      · rintro s u - hout ⟨t, ⟨hsame, hvalue⟩, hsame', hpresents⟩
        refine ⟨hsame.trans (hsame'.mono hgrows), .cons (Same.presented hsame' hmoved hvalue) ?_⟩
        have hmap : (rest.map fun l => get t (spotOf k t l)) = rest.map fun l => get s (spotOf k s l) :=
          List.map_congr_left fun l hl => (Same.presented hsame (hrest l hl)
            ⟨rfl, hout l (List.mem_cons_of_mem _ hl)⟩).1
        rw [← hmap]
        exact hpresents

/-- Copying out puts new registers in the place of bytes behind pointers. -/
theorem CopiedOut.ranked {locs locs' : List ByteLoc} (h : CopiedOut k st st' locs locs')
    (hlocs : Ranked c n locs) (hn : n ≤ st.draft.nextVReg.toNat) : Ranked c n locs' := by
  intro i v hv
  obtain ⟨hlength, hall⟩ := List.forall₂_iff_get.mp h.copied
  obtain ⟨hi, hget⟩ := List.getElem?_eq_some_iff.mp hv
  rcases hall i (by omega) hi with heq | ⟨w, hw, hle⟩
  · refine hlocs i v (List.getElem?_eq_some_iff.mpr ⟨by omega, ?_⟩)
    exact heq.symm.trans hget
  · obtain rfl : v = w := by
      have heq : ByteLoc.vreg v = .vreg w := hget.symm.trans hw
      cases heq
      rfl
    exact Or.inr (hn.trans hle)

theorem Presents.outside {locs : List ByteLoc} {bytes : List UInt8}
    (h : Presents k cell t locs bytes) : ∀ loc ∈ locs, Outside cell (spotOf k t loc) := by
  induction h with
  | nil => exact fun _ hloc => (List.not_mem_nil hloc).elim
  | cons hfirst _ ih =>
    intro loc hmem
    rcases List.mem_cons.mp hmem with rfl | hmem
    · exact hfirst.2
    · exact ih loc hmem

theorem Presents.map_eq {locs : List ByteLoc} {bytes : List UInt8}
    (h : Presents k cell t locs bytes) : locs.map (fun loc => get t (spotOf k t loc)) = bytes := by
  induction h with
  | nil => rfl
  | cons hfirst _ ih => rw [List.map_cons, ih, hfirst.1]

theorem Presents.split {ls rs : List ByteLoc} {bl br : List UInt8}
    (h : Presents k cell t (ls ++ rs) (bl ++ br)) (hlength : ls.length = bl.length) :
    Presents k cell t ls bl ∧ Presents k cell t rs br := by
  have hl := List.forall₂_take_append _ _ _ h
  have hr := List.forall₂_drop_append _ _ _ h
  rw [← hlength, List.take_left] at hl
  rw [← hlength, List.drop_left] at hr
  exact ⟨hl, hr⟩

/-- **The bytes of an operand**, those behind a pointer copied out. -/
theorem supplied_operandBytes {value : Value} {type : ValueType} {locs : List ByteLoc}
    (h : operandBytes value type c st = .ok (locs, st'))
    (hp : Pointed c st.draft.nextVReg.toNat) (htracks : TracksA st.draft)
    (hroom : st.draft.nextVReg.toNat + (2 + type.size.toNat) < everything) :
    Supplied c k value type.size.toNat (2 + type.size.toNat) st st' locs ∧
      ∀ loc ∈ locs, loc.isIndirect = false := by
  obtain ⟨bytes, st₁, hbytes, hcopy⟩ := bind_ok.mp h
  have hs := supplied_valueBytes (k := k) hbytes hp htracks (by omega)
  have hbounded := hs.passes.bounded
  have hgrows := hs.passes.grows
  have hlength := hs.length
  have hc := copiedOut_mapM (k := k) hcopy hs.moved (by omega)
  have hpasses := hc.passes
  have hcell : st₁.draft.pointerCell = st.draft.pointerCell := hs.passes.cell
  rw [hcell] at hpasses
  refine ⟨⟨hc.length.trans hlength, hc.moved, hc.ranked hs.ranked hgrows, hc.label.trans hs.label, ?_⟩,
    hc.direct⟩
  refine (hs.passes.trans hpasses ?_).imp (by omega) (fun _ hr => hr) ?_
  · rintro s t - ⟨-, hpresents⟩
    exact hpresents.outside
  · rintro s u - - ⟨t, ⟨hsame, hpresents⟩, hsame', hpresents'⟩
    rw [hpresents.map_eq] at hpresents'
    exact ⟨hsame.trans (hsame'.mono hgrows), hpresents'⟩

/-! ### Two operands -/

/-- The state of a lowering of which the knowledge is of the right form and numbers for new
registers have not run out. -/
structure Settled (c : Context) (d : Draft) : Prop where
  pointed : Pointed c d.nextVReg.toNat
  tracks : TracksA d
  room : d.nextVReg.toNat + 16 < everything

theorem Settled.fork (h : Settled c d) : Settled c d.fork := ⟨h.pointed, h.tracks, h.room⟩

/-- The locations of the bytes of two operands. -/
structure Paired (c : Context) (k : Linkage) (lhs rhs : Value) (size : ℕ) (st st' : State)
    (lb rb : List ByteLoc) : Prop where
  left : lb.length = size
  right : rb.length = size
  moved : ∀ loc ∈ lb ++ rb, IsMoved st'.draft.nextVReg.toNat loc
  direct : ∀ loc ∈ rb, loc.isIndirect = false
  rankedLeft : Ranked c st.draft.nextVReg.toNat lb
  rankedRight : Ranked c st.draft.nextVReg.toNat rb
  label : st'.nextLabel = st.nextLabel
  passes : Passes k (4 + size) st.draft st'.draft
    (fun s => Readable c k st.draft.pointerCell s size lhs ∧
      Readable c k st.draft.pointerCell s size rhs) fun s t =>
    Same st.draft.pointerCell st.draft.nextVReg.toNat s t ∧
      Presents k st.draft.pointerCell t (lb ++ rb) (readOf c k s size lhs ++ readOf c k s size rhs)

theorem Passes.tracks {fresh : ℕ} {pre : Store → Prop} {post : Store → Store → Prop}
    (h : Passes k fresh d d' pre post) (hd : TracksA d) : TracksA d' := by
  obtain ⟨es, hes, -⟩ := h.plain
  exact hes.tracks hd

/-- **Two operands.**  The code for the second leaves the bytes of the first alone. -/
theorem paired_bytes {lhs rhs : Value} {type : ValueType} {st₁ : State} {lb rb : List ByteLoc}
    (hst : Settled c st.draft) (hl : valueBytes lhs type c st = .ok (lb, st₁))
    (hr : operandBytes rhs type c st₁ = .ok (rb, st')) (hsize : type.size.toNat ≤ 2) :
    Paired c k lhs rhs type.size.toNat st st' lb rb := by
  have hroom := hst.room
  have hleft := supplied_valueBytes (k := k) hl hst.pointed hst.tracks (by omega)
  have hgrows := hleft.passes.grows
  have hbounded := hleft.passes.bounded
  have hpointed : Pointed c st₁.draft.nextVReg.toNat := pointed_mono hst.pointed hgrows
  obtain ⟨hright, hdirect⟩ := supplied_operandBytes (k := k) hr hpointed
    (Passes.tracks hleft.passes hst.tracks) (by omega)
  have hgrows' := hright.passes.grows
  have hcell : st₁.draft.pointerCell = st.draft.pointerCell := hleft.passes.cell
  have hsecond := hright.passes
  rw [hcell] at hsecond
  have hfirst : Passes k 2 st.draft st₁.draft
      (fun s => Readable c k st.draft.pointerCell s type.size.toNat lhs ∧
        Readable c k st.draft.pointerCell s type.size.toNat rhs) _ :=
    hleft.passes.imp le_rfl (fun s hs => hs.1) fun _ _ _ _ h => h
  refine ⟨hleft.length, hright.length, fun loc hloc => ?_, hdirect, hleft.ranked,
    hright.ranked.mono hgrows, hright.label.trans hleft.label, ?_⟩
  · rcases List.mem_append.mp hloc with hloc | hloc
    · exact (hleft.moved loc hloc).mono hgrows'
    · exact hright.moved loc hloc
  · refine (hfirst.trans hsecond ?_).imp (by omega) (fun _ hs => hs) ?_
    · rintro s t ⟨-, hreadable⟩ ⟨hsame, -⟩
      exact hreadable.same hsame hst.pointed
    · rintro s u - ⟨-, hreadable⟩ ⟨t, ⟨hsame, hpresents⟩, hsame', hpresents'⟩
      rw [Same.readOf hsame hst.pointed hreadable] at hpresents'
      exact ⟨hsame.trans (hsame'.mono hgrows),
        List.rel_append (hpresents.same hsame' hleft.moved) hpresents'⟩

/-! ### A word of which the second byte is behind offset 255 -/

/-- A function with a pointer in its first temporary. -/
def farContext (body : List Node) : Context :=
  { followContext with
    function := { followContext.function with body := .copy 0 (.constant 0x3000) .ptr :: body } }

/-- The word at offset 255 behind the pointer. -/
def farWord : Value := .memory (.indirect 0 0xFF)

/-- A memory in which only the two bytes of that word are not zero, and the pointer. -/
def farStore : Store where
  machine :=
    { Machine.create 0 0 0xD301 with
      bus := ((Bus.create 0 0 0xD301).write 0x30FF 5).write 0x3100 5 }
  cells v := if v.index = 1 then 0x30 else 0
  frame _ := 0

theorem read_farStore (a : UInt16) : farStore.machine.bus.read a =
    if 0x3100 = a then 5 else if 0x30FF = a then 5 else 0 := by
  have hplain : Plain (Bus.create 0 0 0xD301) 0x30FF := ⟨by decide, by decide⟩
  have hplain' : Plain ((Bus.create 0 0 0xD301).write 0x30FF 5) 0x3100 := ⟨by decide, by decide⟩
  have hzero : (Bus.create 0 0 0xD301).read a = 0 := by
    have hwindow : (Bus.create 0 0 0xD301).inWindow a = false := by simp [Bus.inWindow, Bus.create]
    unfold Bus.read
    rw [hwindow]
    simp [Bus.create, Ram.get, Vector.get]
  unfold farStore
  rw [read_write hplain', read_write hplain, hzero]

theorem plain_farStore {a : UInt16} (h : a ≠ 0xD301) :
    Processor.Memory.Plain farStore.machine.bus a := by
  unfold farStore Processor.Memory.Plain
  simp only [inWindow_write, bankSelect_write]
  exact ⟨by simp [Bus.inWindow, Bus.create], h⟩

/-- **The second byte is taken from the start of the page** instead of the next one. -/
theorem readOf_farWord (body : List Node) :
    readOf (farContext body) plainLinkage farStore 2 farWord = [5, 0] ∧
      bytesOf (farContext body) plainLinkage farStore 2 farWord = [5, 5] := by
  have hread : readOf (farContext body) plainLinkage farStore 2 farWord =
      [farStore.machine.bus.read 0x30FF, farStore.machine.bus.read 0x3000] := rfl
  have hbytes : bytesOf (farContext body) plainLinkage farStore 2 farWord =
      [farStore.machine.bus.read 0x30FF, farStore.machine.bus.read 0x3100] := rfl
  rw [hread, hbytes, read_farStore, read_farStore, read_farStore]
  decide

theorem readable_farWord (body : List Node) :
    Readable (farContext body) plainLinkage 0x90 farStore 2 farWord := by
  rintro place hplace i hi a ha
  obtain rfl : place = .indirect 0 0xFF := (Value.memory.inj hplace).symm
  obtain rfl | rfl : i = 0 ∨ i = 1 := by omega
  · obtain rfl : (0x30FF : UInt16) = a := Spot.memory.inj ha
    decide
  · obtain rfl : (0x3000 : UInt16) = a := Spot.memory.inj ha
    decide

end Codegen6502.Proofs.Selecting.Reading
