import Codegen6502.Platform.BitField
import Mathlib.Algebra.Order.Ring.Nat
import Mathlib.Data.List.Pairwise

/-!
# Bit-fields in their bytes

A field that lies inside its byte (`Inside`) is a slice of the byte's bits: `testBit_extract` and
`testBit_insert` say which bits are read and written.  From them, a field that is written reads back
as the value cut to its width (`extract_insert`), and a field that shares no bit with it reads as
before (`extract_insert_apart`).

`packed_layout` says where a sequence of widths is laid out: the fields lie inside their bytes, one
behind the other.  The number of bytes does not come round; a sequence that needs more has no
layout.
-/

namespace Codegen6502.Proofs.Platform.Packing

open BitField

variable {f g : BitField} {byte value : UInt8}

/-! ### The bits of a field -/

/-- The field is not empty and does not reach past its byte. -/
structure Inside (f : BitField) : Prop where
  width : 0 < f.width.toNat
  reach : f.bitOffset.toNat + f.width.toNat ≤ 8

theorem toNat_mask (h : f.width.toNat ≤ 8) : f.mask.toNat = 2 ^ f.width.toNat - 1 := by
  have hwidths : ∀ w : Fin 9, (if UInt8.ofNat w ≥ 8 then (0xFF : UInt8)
      else ((1 <<< (UInt8.ofNat w).toUInt16) - 1 : UInt16).toUInt8).toNat = 2 ^ (w : ℕ) - 1 := by decide
  have hwidth := hwidths ⟨f.width.toNat, by omega⟩
  rwa [UInt8.ofNat_toNat] at hwidth

theorem testBit_mask (h : f.width.toNat ≤ 8) (i : ℕ) :
    f.mask.toNat.testBit i = decide (i < f.width.toNat) := by
  rw [toNat_mask h, Nat.testBit_two_pow_sub_one]

theorem testBit_of_le {i : ℕ} (h : 8 ≤ i) (byte : UInt8) : byte.toNat.testBit i = false :=
  Nat.testBit_lt_two_pow (byte.toNat_lt.trans_le (Nat.pow_le_pow_right (by decide) h))

theorem testBit_not {i : ℕ} (h : i < 8) (byte : UInt8) :
    (~~~byte).toNat.testBit i = !byte.toNat.testBit i := by
  have hnot : (~~~byte).toNat = 2 ^ 8 - (byte.toNat + 1) := by
    have hcomplement : (~~~byte).toNat = 2 ^ 8 - 1 - byte.toNat := UInt8.toNat_not byte
    omega
  rw [hnot, Nat.testBit_two_pow_sub_succ byte.toNat_lt]
  simp [h]

theorem testBit_shiftLeft {i : ℕ} (hi : i < 8) {count : UInt8} (hcount : count.toNat < 8) :
    (byte <<< count).toNat.testBit i =
      (decide (count.toNat ≤ i) && byte.toNat.testBit (i - count.toNat)) := by
  rw [UInt8.toNat_shiftLeft, Nat.mod_eq_of_lt hcount, Nat.testBit_mod_two_pow, Nat.testBit_shiftLeft]
  simp [hi]

theorem toNat_shiftRight {count : UInt8} (hcount : count.toNat < 8) :
    (byte >>> count).toNat = byte.toNat >>> count.toNat := by
  rw [UInt8.toNat_shiftRight, Nat.mod_eq_of_lt hcount]

/-- **A field reads the bits from its offset on**, as many as it is wide. -/
theorem testBit_extract (h : Inside f) (i : ℕ) : (f.extract byte).toNat.testBit i =
    (decide (i < f.width.toNat) && byte.toNat.testBit (f.bitOffset.toNat + i)) := by
  obtain ⟨hwidth, hreach⟩ := h
  rw [BitField.extract, UInt8.toNat_and, Nat.testBit_and, testBit_mask (by omega),
    toNat_shiftRight (by omega), Nat.testBit_shiftRight, Bool.and_comm]

/-- **A field writes the bits that it reads** and leaves all others. -/
theorem testBit_insert (h : Inside f) {i : ℕ} (hi : i < 8) : (f.insert byte value).toNat.testBit i =
    if f.bitOffset.toNat ≤ i ∧ i < f.bitOffset.toNat + f.width.toNat then
      value.toNat.testBit (i - f.bitOffset.toNat)
    else byte.toNat.testBit i := by
  obtain ⟨hwidth, hreach⟩ := h
  have hmask := testBit_mask (f := f) (by omega) (i - f.bitOffset.toNat)
  rw [BitField.insert, UInt8.toNat_or, Nat.testBit_or, UInt8.toNat_and, Nat.testBit_and, testBit_not hi,
    maskInPlace, testBit_shiftLeft hi (by omega), testBit_shiftLeft hi (by omega), UInt8.toNat_and,
    Nat.testBit_and, hmask]
  by_cases hfirst : f.bitOffset.toNat ≤ i
  · by_cases hlast : i < f.bitOffset.toNat + f.width.toNat
    · have hinside : i - f.bitOffset.toNat < f.width.toNat := by omega
      simp [hfirst, hlast, hinside]
    · have houtside : ¬ i - f.bitOffset.toNat < f.width.toNat := by omega
      simp [hlast, houtside]
  · simp [hfirst]

/-- **A field that is written reads back as the value cut to its width.** -/
theorem extract_insert (h : Inside f) (byte value : UInt8) :
    (f.extract (f.insert byte value)).toNat = value.toNat % 2 ^ f.width.toNat := by
  have hreach := h.reach
  refine Nat.eq_of_testBit_eq fun i => ?_
  rw [testBit_extract h, Nat.testBit_mod_two_pow]
  by_cases hi : i < f.width.toNat
  · rw [testBit_insert h (by omega), if_pos (by omega), Nat.add_sub_cancel_left]
  · simp [hi]

/-- **A field that shares no bit with one that is written reads as before.** -/
theorem extract_insert_apart (hf : Inside f) (hg : Inside g)
    (h : f.bitOffset.toNat + f.width.toNat ≤ g.bitOffset.toNat ∨
      g.bitOffset.toNat + g.width.toNat ≤ f.bitOffset.toNat) (byte value : UInt8) :
    g.extract (f.insert byte value) = g.extract byte := by
  have hreach := hg.reach
  refine UInt8.toNat_inj.mp (Nat.eq_of_testBit_eq fun i => ?_)
  rw [testBit_extract hg, testBit_extract hg]
  by_cases hi : i < g.width.toNat
  · rw [testBit_insert hf (by omega), if_neg (by omega)]
  · simp [hi]

/-! ### Layout -/

/-- The bit of the storage unit where the field begins. -/
def first (f : BitField) : ℕ := 8 * f.byteOffset.toNat + f.bitOffset.toNat

/-- The field lies behind another one. -/
def Before (f g : BitField) : Prop := first f + f.width.toNat ≤ first g

/-- Of two fields that lie one behind the other in one byte, the bits are apart. -/
theorem Before.apart (h : Before f g) (hbyte : f.byteOffset = g.byteOffset) :
    f.bitOffset.toNat + f.width.toNat ≤ g.bitOffset.toNat := by
  unfold Before first at h
  rw [hbyte] at h
  omega

/-- Of two fields in order, one lies behind the other. -/
theorem before_or_of_mem {fields : List BitField} (h : fields.Pairwise Before) (hf : f ∈ fields)
    (hg : g ∈ fields) (hne : f ≠ g) : Before f g ∨ Before g f := by
  have : Std.Symm fun a b => Before a b ∨ Before b a := ⟨fun _ _ => Or.symm⟩
  have hapart : fields.Pairwise fun a b => Before a b ∨ Before b a := h.imp Or.inl
  exact hapart.forall hf hg hne

/-- Where widths are placed: the fields so far lie inside their bytes, one behind the other and in
front of the next free bit. -/
structure Packed (p : Packing) : Prop where
  bit : p.bit.toNat ≤ 8
  inside : ∀ f ∈ p.placed, Inside f
  free : ∀ f ∈ p.placed, first f + f.width.toNat ≤ 8 * p.byte.toNat + p.bit.toNat
  ordered : p.placed.reverse.Pairwise Before

theorem packed_empty : Packed {} :=
  ⟨by decide, by simp, by simp, List.Pairwise.nil⟩

/-- Behind the byte, all of the next one is free. -/
theorem Packed.close {p q : Packing} (h : Packed p) (hclose : p.close = .ok q) :
    Packed q ∧ q.bit = 0 ∧ q.placed = p.placed := by
  unfold Packing.close at hclose
  split at hclose
  · cases hclose
  · rename_i hmore
    obtain rfl := Except.ok.inj hclose
    have hnext : (p.byte + 1).toNat = p.byte.toNat + 1 := by
      have hlt := p.byte.toNat_lt
      have hne : p.byte.toNat ≠ 0xFFFF := fun heq => hmore (UInt16.toNat_inj.mp heq)
      have hone : (1 : UInt16).toNat = 1 := rfl
      rw [UInt16.toNat_add]
      omega
    refine ⟨⟨Nat.zero_le _, h.inside, fun f hf => ?_, h.ordered⟩, rfl, rfl⟩
    have hfree := h.free f hf
    have hbit := h.bit
    change _ ≤ 8 * (p.byte + 1).toNat + 0
    omega

/-- A field behind all others is placed. -/
theorem Packed.push {p : Packing} (h : Packed p) {width : UInt8} (hwidth : 0 < width.toNat)
    (hreach : p.bit.toNat + width.toNat ≤ 8) : Packed (p.push width) := by
  have hbit : (p.bit + width).toNat = p.bit.toNat + width.toNat := by
    rw [UInt8.toNat_add]
    omega
  refine ⟨?_, ?_, ?_, ?_⟩
  · change (p.bit + width).toNat ≤ 8
    omega
  · rintro f hf
    rcases List.mem_cons.mp hf with rfl | hf
    · exact ⟨hwidth, hreach⟩
    · exact h.inside f hf
  · rintro f hf
    change first f + f.width.toNat ≤ 8 * p.byte.toNat + (p.bit + width).toNat
    rcases List.mem_cons.mp hf with rfl | hf
    · change 8 * p.byte.toNat + p.bit.toNat + width.toNat ≤ _
      omega
    · have := h.free f hf
      omega
  · change ((⟨p.byte, p.bit, width⟩ :: p.placed).reverse).Pairwise Before
    rw [List.reverse_cons, List.pairwise_append]
    refine ⟨h.ordered, List.pairwise_singleton _ _, fun f hf g hg => ?_⟩
    rw [List.mem_singleton.mp hg]
    exact h.free f (List.mem_reverse.mp hf)

/-- **One width more** is placed behind what is there. -/
theorem Packed.place {p q : Packing} (h : Packed p) {width : UInt8} (hplace : p.place width = .ok q) :
    Packed q ∧ q.placed.reverse.map BitField.width =
      p.placed.reverse.map BitField.width ++ [width].filter (· ≠ 0) := by
  have hbit := h.bit
  unfold Packing.place at hplace
  split_ifs at hplace with hwide hempty hopen hover
  · -- An empty width closes the byte.
    obtain ⟨hq, -, hplaced⟩ := h.close hplace
    exact ⟨hq, by simp [hplaced, hempty]⟩
  · obtain rfl := Except.ok.inj hplace
    exact ⟨h, by simp [hempty]⟩
  all_goals
    have hpos : 0 < width.toNat :=
      Nat.pos_of_ne_zero fun hz => hempty (UInt8.toNat_inj.mp hz)
    have hnarrow : width.toNat ≤ 8 := UInt8.le_iff_toNat_le.mp (UInt8.not_lt.mp hwide)
  · -- The width does not fit into the byte, so it begins the next one.
    cases hclose : p.close with
    | error e =>
      rw [hclose] at hplace
      cases hplace
    | ok r =>
      rw [hclose] at hplace
      obtain rfl := Except.ok.inj hplace
      obtain ⟨hr, hzero, hplaced⟩ := h.close hclose
      have hroom : r.bit.toNat + width.toNat ≤ 8 := by rw [hzero]; exact (Nat.zero_add _).trans_le hnarrow
      exact ⟨hr.push hpos hroom, by simp [Packing.push, hplaced, hempty]⟩
  · obtain rfl := Except.ok.inj hplace
    have hroom : p.bit.toNat + width.toNat ≤ 8 := by
      have hle : (p.bit + width).toNat ≤ 8 := UInt8.le_iff_toNat_le.mp (UInt8.not_lt.mp hover)
      rw [UInt8.toNat_add] at hle
      omega
    exact ⟨h.push hpos hroom, by simp [Packing.push, hempty]⟩

/-- **All widths** are placed one behind the other. -/
theorem Packed.foldlM : ∀ {widths : List UInt8} {p q : Packing}, Packed p →
    widths.foldlM Packing.place p = .ok q → Packed q ∧ q.placed.reverse.map BitField.width =
      p.placed.reverse.map BitField.width ++ widths.filter (· ≠ 0)
  | [], p, q, h, hfold => by
    obtain rfl : p = q := Except.ok.inj hfold
    exact ⟨h, by simp⟩
  | width :: widths, p, q, h, hfold => by
    rw [List.foldlM_cons] at hfold
    cases hplace : p.place width with
    | error e =>
      rw [hplace] at hfold
      cases hfold
    | ok r =>
      rw [hplace] at hfold
      obtain ⟨hr, hwidths⟩ := h.place hplace
      obtain ⟨hq, hwidths'⟩ := hr.foldlM hfold
      refine ⟨hq, ?_⟩
      rw [hwidths', hwidths, List.append_assoc, ← List.filter_append]
      rfl

/-- **A layout** has a field for every width but the empty ones, in order.  The fields lie inside
their bytes, one behind the other. -/
theorem packed_layout {widths : List UInt8} {fields : List BitField} (h : layout widths = .ok fields) :
    fields.map BitField.width = widths.filter (· ≠ 0) ∧ (∀ f ∈ fields, Inside f) ∧
      fields.Pairwise Before := by
  unfold layout at h
  cases hfold : widths.foldlM Packing.place {} with
  | error e =>
    rw [hfold] at h
    cases h
  | ok p =>
    rw [hfold] at h
    obtain rfl : p.placed.reverse = fields := Except.ok.inj h
    obtain ⟨hp, hwidths⟩ := packed_empty.foldlM hfold
    exact ⟨hwidths, fun f hf => hp.inside f (List.mem_reverse.mp hf), hp.ordered⟩

end Codegen6502.Proofs.Platform.Packing
