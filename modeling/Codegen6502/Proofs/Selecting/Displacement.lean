import Codegen6502.Proofs.Selecting.FrameReach
import Codegen6502.Proofs.Selecting.Reading

/-!
# Bytes further on

Lowering goes to byte `delta` of a place by displacing it.  Places with an address of their own are
displaced in 16 bits, as addresses are.  The offsets of frame bytes and behind pointers have 8 bits,
and so has what is added to them: `displaced_above_iff` says for which bytes the one that is found
is the one that is meant (`Fits`).

The bytes of a frame that are accessed by the size of a node fit, since the frame could not hold
them otherwise (`fits_access`); the byte of a bit-field need not.
-/

namespace Codegen6502.Proofs.Selecting.Displacement

open Selection Processor.LineRun Processor.Straight
open Tracking Places Moves Reading FrameReach

variable {c : Context} {k : Linkage} {s : Store} {st st' : State} {place : Place} {loc loc' : ByteLoc}
  {delta : UInt16}

/-- The byte `i` bytes above another one.  Memory is a ring; there is none above the last byte of a
frame. -/
def Above (i : ℕ) : Spot → Spot → Prop
  | .memory address, .memory address' => address' = address + UInt16.ofNat i
  | .frame offset, .frame offset' => offset'.toNat = offset.toNat + i
  | _, _ => False

/-- Whether the offset of a byte fits into its 8 bits. -/
def Fits (i : ℕ) : Place → Prop
  | .frameByte offset => offset.toNat + i < 2 ^ 8
  | .indirect _ offset | .returnSlot offset => (offset.toNat + i) % 2 ^ 16 < 2 ^ 8
  | _ => True

/-- Behind a pointer, the byte is the right one if the offset fits or comes round in 16 bits. -/
theorem above_pointer_iff (base : UInt16) (offset : UInt8) (i : ℕ) :
    Above i (.memory (base + offset.toUInt16)) (.memory (base + (offset + UInt8.ofNat i).toUInt16)) ↔
      (offset.toNat + i) % 2 ^ 16 < 2 ^ 8 := by
  have hcancel : base + (offset + UInt8.ofNat i).toUInt16 = base + offset.toUInt16 + UInt16.ofNat i ↔
      (offset + UInt8.ofNat i).toUInt16 = offset.toUInt16 + UInt16.ofNat i := by
    rw [UInt16.add_assoc]
    exact UInt16.add_right_inj _
  rw [Above, hcancel, ← UInt16.toNat_inj]
  simp only [UInt8.toNat_toUInt16, UInt8.toNat_add, UInt16.toNat_add, UInt8.toNat_ofNat',
    UInt16.toNat_ofNat']
  omega

theorem above_frame_iff (offset : UInt8) (i : ℕ) :
    Above i (.frame offset) (.frame (offset + UInt8.ofNat i)) ↔ offset.toNat + i < 2 ^ 8 := by
  simp only [Above, UInt8.toNat_add, UInt8.toNat_ofNat']
  omega

/-- What is found for a byte of a place is the byte above its first one if its offset fits. -/
theorem above_found_iff (hplace : ∀ channel field, place = .iocb channel field →
    (field.address? channel).isSome) (i : ℕ) :
    Above i (start c k s place) (found c k s place i) ↔ Fits i place := by
  cases place with
  | frameByte offset => exact above_frame_iff offset i
  | indirect base offset | returnSlot offset => exact above_pointer_iff _ offset i
  | _ => exact iff_of_true rfl trivial

/-- Any pointer is numbered below the number of all registers. -/
theorem pointed_all (c : Context) : Pointed c (2 ^ 32) :=
  ⟨fun _ v _ => v.index.toNat_lt, fun v _ => v.index.toNat_lt⟩

/-- A displaced place is found whenever the place is. -/
theorem placeLoc_displaced (h : placeLoc place c st = .ok (loc, st')) (delta : UInt16) :
    ∃ loc', placeLoc (place.displaced delta) c st = .ok (loc', st) := by
  cases place with
  | indirect base offset =>
    obtain ⟨pointer, st₁, hpointer, -⟩ := bind_ok.mp h
    obtain ⟨rfl, -⟩ := pointerOf_ok hpointer
    exact ⟨_, bind_ok.mpr ⟨pointer, st₁, hpointer, rfl⟩⟩
  | returnSlot offset =>
    obtain ⟨pointer, st₁, hpointer, -⟩ := bind_ok.mp h
    obtain ⟨rfl, -⟩ := resultPointer_ok hpointer
    exact ⟨_, bind_ok.mpr ⟨pointer, st₁, hpointer, rfl⟩⟩
  | banked bank offset =>
    cases bank with
    | paged bank => exact ⟨_, rfl⟩
    | common => cases h
  | iocb channel field =>
    have hsome := (placeLoc_spec (pointed_all c) h).2.addressed channel field rfl
    obtain ⟨address, haddress⟩ := Option.isSome_iff_exists.mp hsome
    simp only [Place.displaced, haddress]
    exact ⟨_, rfl⟩
  | _ => exact ⟨_, rfl⟩

/-- The bytes of a frame that a node accesses by its size fit. -/
theorem fits_access {f : FunctionDef} {locals : UInt8} {node : Node} {offset : UInt8} {i : ℕ}
    (hlocals : frameLocals f = .ok locals) (hnode : node ∈ f.body)
    (hplace : .frameByte offset ∈ placesIn node) (hi : i < (accessSize node).toNat) :
    Fits i (.frameByte offset) := by
  have hend := end_le_locals hlocals hnode hplace
  have hlt := locals.toNat_lt
  change offset.toNat + i < 2 ^ 8
  omega

/-- What is found for a displaced place is above the place if the offset of the byte fits. -/
theorem above_located_iff (h : placeLoc place c st = .ok (loc, st')) {n i : ℕ}
    (h' : Locates c n (place.displaced (UInt16.ofNat i)) loc') (k : Linkage) (s : Store) :
    Above i (spotOf k s loc) (spotOf k s loc') ↔ Fits i place := by
  have hfirst := (placeLoc_spec (pointed_all c) h).2
  rw [hfirst.spot, spotOf_located h']
  exact above_found_iff hfirst.addressed i

/-- **A displaced place is above the place** by what it is displaced, as an address, exactly if the
offset of the byte fits; so are the bytes of an access.  All bytes of a frame fit that are accessed
by the size of a node. -/
theorem displaced_above_iff (h : placeLoc place c st = .ok (loc, st')) :
    (∀ delta : UInt16, ∃ loc', placeLoc (place.displaced delta) c st = .ok (loc', st) ∧
      ∀ k s, Above delta.toNat (spotOf k s loc) (spotOf k s loc') ↔ Fits delta.toNat place) ∧
    (∀ size locs st₁ st₂, placeBytes place size c st₁ = .ok (locs, st₂) →
      List.Forall₂ (fun i loc' => ∀ k s, Above i (spotOf k s loc) (spotOf k s loc') ↔ Fits i place)
        (List.range size) locs) ∧
    ∀ f locals node offset, frameLocals f = .ok locals → node ∈ f.body → place = .frameByte offset →
      place ∈ placesIn node → ∀ i < (accessSize node).toNat, Fits i place := by
  refine ⟨fun delta => ?_, fun size locs st₁ st₂ hbytes => ?_, ?_⟩
  · obtain ⟨loc', h'⟩ := placeLoc_displaced h delta
    have hthere := (placeLoc_spec (pointed_all c) h').2
    rw [← UInt16.ofNat_toNat (x := delta)] at hthere
    exact ⟨loc', h', above_located_iff h hthere⟩
  · exact (placeBytes_spec (pointed_all c) hbytes).2.imp fun i loc' => above_located_iff h
  · rintro f locals node offset hlocals hnode rfl hplace i hi
    exact fits_access hlocals hnode hplace hi

/-- The second byte of a word at offset 255 behind a pointer is not above the first. -/
theorem far_byte_missed : ∃ loc loc' st, placeLoc (.indirect 0 0xFF) (farContext []) st = .ok (loc, st) ∧
    placeLoc ((Place.indirect 0 0xFF).displaced 1) (farContext []) st = .ok (loc', st) ∧
      ∀ k s, ¬Above 1 (spotOf k s loc) (spotOf k s loc') := by
  have hfirst : placeLoc (.indirect 0 0xFF) (farContext []) ⟨.create 0x90 2, 0⟩ =
      .ok (.indirect (⟨0⟩, ⟨1⟩) 0xFF, ⟨.create 0x90 2, 0⟩) := rfl
  obtain ⟨loc', hsecond, habove⟩ := (displaced_above_iff hfirst).1 1
  refine ⟨_, loc', _, hfirst, hsecond, fun k s h => ?_⟩
  have hfits : (255 + 1) % 2 ^ 16 < 2 ^ 8 := (habove k s).mp h
  exact absurd hfits (by decide)

end Codegen6502.Proofs.Selecting.Displacement
