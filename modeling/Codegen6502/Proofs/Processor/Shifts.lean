import Codegen6502.Proofs.Processor.Chains
import Mathlib.Tactic.Linarith
import Mathlib.Tactic.Ring

/-!
# Shifts bit by bit

The instructions that shift and rotate are told in numbers: what they leave, with the carry that
goes out, is twice or half of the byte with the carry that comes in (`toNat_rol`, `toNat_ror`).

`IsShift` is what bytes are to hold after a shift by some bits: to the left what fits of the product
with a power of two, to the right the quotient, rounded down, of the number without or with a sign.
A shift by `j + k` bits is one by `j` and one by `k` (`IsShift.trans`), so the code needs to be
looked at for one bit only.
-/

namespace Codegen6502.Proofs.Processor.Shifts

open Memory LineRun Straight Arithmetic Chains

variable {k : Linkage} {s : Store} {op : Opcode}

/-! ### Instructions -/

def isShift : Opcode → Bool
  | .asl | .lsr | .rol | .ror => true
  | _ => false

theorem cellOp_shift (h : isShift op = true) (r : Registers) (byte : UInt8) : cellOp op r byte =
    ((r.setFlag .c (Machine.shifted op byte (r.flag .c)).2).setNZ (Machine.shifted op byte (r.flag .c)).1,
      (Machine.shifted op byte (r.flag .c)).1) := by
  have hwrite := read_alone_write r byte (Machine.shifted op byte (r.flag .c)).1
  have hregs : (alone r byte).regs = r := rfl
  cases op <;> first
    | (cases h; done)
    | (simp only [cellOp, Machine.execute, Machine.readOperand, Machine.mapRegs, Machine.writeOperand,
        read_alone, hregs]
       exact Prod.ext rfl hwrite)

/-- A shift to the left, with the carry that comes in and the one that goes out. -/
theorem toNat_rol (byte : UInt8) (carry : Bool) : (Machine.shifted .rol byte carry).1.toNat +
    256 * (Machine.shifted .rol byte carry).2.toNat = 2 * byte.toNat + carry.toNat := by
  have h : ∀ (x : BitVec 8) (b : Bool), (Machine.shifted .rol ⟨x⟩ b).1.toNat +
      256 * (Machine.shifted .rol ⟨x⟩ b).2.toNat = 2 * x.toNat + b.toNat := by decide +kernel
  exact h byte.toBitVec carry

theorem toNat_asl (byte : UInt8) (carry : Bool) : (Machine.shifted .asl byte carry).1.toNat +
    256 * (Machine.shifted .asl byte carry).2.toNat = 2 * byte.toNat := by
  have h : ∀ x : BitVec 8, (Machine.shifted .asl ⟨x⟩ false).1.toNat +
      256 * (Machine.shifted .asl ⟨x⟩ false).2.toNat = 2 * x.toNat := by decide +kernel
  exact h byte.toBitVec

/-- A shift to the right, likewise. -/
theorem toNat_ror (byte : UInt8) (carry : Bool) : 2 * (Machine.shifted .ror byte carry).1.toNat +
    (Machine.shifted .ror byte carry).2.toNat = byte.toNat + 256 * carry.toNat := by
  have h : ∀ (x : BitVec 8) (b : Bool), 2 * (Machine.shifted .ror ⟨x⟩ b).1.toNat +
      (Machine.shifted .ror ⟨x⟩ b).2.toNat = x.toNat + 256 * b.toNat := by decide +kernel
  exact h byte.toBitVec carry

theorem toNat_lsr (byte : UInt8) (carry : Bool) : 2 * (Machine.shifted .lsr byte carry).1.toNat +
    (Machine.shifted .lsr byte carry).2.toNat = byte.toNat := by
  have h : ∀ x : BitVec 8, 2 * (Machine.shifted .lsr ⟨x⟩ false).1.toNat +
      (Machine.shifted .lsr ⟨x⟩ false).2.toNat = x.toNat := by decide +kernel
  exact h byte.toBitVec

/-! ### Shifted numbers -/

/-- What bytes are to hold after a shift by `j` bits. -/
structure IsShift (left signed : Bool) (j : ℕ) (before after : List UInt8) : Prop where
  length : after.length = before.length
  shifted : if left then natural after = natural before * 2 ^ j % 256 ^ before.length
    else number signed after = number signed before / 2 ^ j

/-- A number shifted by `j` bits. -/
def shiftOf (left : Bool) (z : ℤ) (j : ℕ) : ℤ := if left then z * 2 ^ j else z / 2 ^ j

namespace IsShift

variable {left signed : Bool} {i j : ℕ} {v w x : List UInt8} {lo hi : UInt8}

theorem zero (v : List UInt8) : IsShift left signed 0 v v := by
  refine ⟨rfl, ?_⟩
  split
  · rw [pow_zero, Nat.mul_one, Nat.mod_eq_of_lt (natural_lt v)]
  · rw [pow_zero, Int.ediv_one]

/-- **Shifts add up.** -/
theorem trans (h : IsShift left signed i v w) (h' : IsShift left signed j w x) :
    IsShift left signed (i + j) v x := by
  have hfirst := h.shifted
  have hsecond := h'.shifted
  refine ⟨h'.length.trans h.length, ?_⟩
  cases left with
  | true =>
    simp only [if_true] at hfirst hsecond ⊢
    rw [hsecond, hfirst, h.length, Nat.mod_mul_mod, Nat.mul_assoc, ← pow_add]
  | false =>
    simp only [Bool.false_eq_true, if_false] at hfirst hsecond ⊢
    rw [hsecond, hfirst, pow_add, Int.ediv_ediv_of_nonneg (by positivity)]

/-- Whether a number has a sign does not matter for shifts to the left. -/
theorem relabel (h : IsShift true signed j v w) (signed' : Bool) : IsShift true signed' j v w :=
  ⟨h.length, h.shifted⟩

/-! #### One bit -/

theorem asl (b : UInt8) (carry : Bool) : IsShift true signed 1 [b] [(Machine.shifted .asl b carry).1] := by
  have h := toNat_asl b carry
  have hout := (Machine.shifted .asl b carry).2.toNat_lt
  have hlt := (Machine.shifted .asl b carry).1.toNat_lt
  refine ⟨rfl, ?_⟩
  simp only [if_true, natural_one, List.length_singleton]
  omega

theorem lsr (b : UInt8) (carry : Bool) : IsShift false false 1 [b] [(Machine.shifted .lsr b carry).1] := by
  have h := toNat_lsr b carry
  have hout := (Machine.shifted .lsr b carry).2.toNat_lt
  refine ⟨rfl, ?_⟩
  simp only [Bool.false_eq_true, if_false, number_unsigned, natural_one]
  omega

theorem signedByte_eq (b : UInt8) : signedByte b = b.toNat - 256 * (isNegative b).toNat := by
  unfold signedByte
  cases isNegative b <;> simp

/-- A rotation that takes in the sign keeps it. -/
theorem isNegative_ror (b : UInt8) :
    isNegative (Machine.shifted .ror b (isNegative b)).1 = isNegative b := by
  have h := toNat_ror b (isNegative b)
  have hout := (Machine.shifted .ror b (isNegative b)).2.toNat_lt
  have hlt := b.toNat_lt
  rw [Bool.eq_iff_iff, isNegative_iff]
  cases hneg : isNegative b
  · simp only [hneg, Bool.toNat_false, Bool.false_eq_true, iff_false] at h hout ⊢
    omega
  · simp only [hneg, Bool.toNat_true, iff_true] at h hout ⊢
    omega

theorem signedByte_ror (b : UInt8) :
    2 * signedByte (Machine.shifted .ror b (isNegative b)).1 +
      (Machine.shifted .ror b (isNegative b)).2.toNat = signedByte b := by
  have h := toNat_ror b (isNegative b)
  rw [signedByte_eq, signedByte_eq, isNegative_ror]
  omega

theorem ror (b : UInt8) : IsShift false true 1 [b] [(Machine.shifted .ror b (isNegative b)).1] := by
  have h := signedByte_ror b
  have hout := (Machine.shifted .ror b (isNegative b)).2.toNat_lt
  refine ⟨rfl, ?_⟩
  simp only [Bool.false_eq_true, if_false, number_one]
  omega

/-! #### One bit of a word -/

/-- The carry of the low byte goes into the high byte. -/
theorem aslRol (lo hi : UInt8) (carry : Bool) : IsShift true signed 1 [lo, hi]
    [(Machine.shifted .asl lo carry).1,
      (Machine.shifted .rol hi (Machine.shifted .asl lo carry).2).1] := by
  have hlow := toNat_asl lo carry
  have hhigh := toNat_rol hi (Machine.shifted .asl lo carry).2
  have hlt := (Machine.shifted .asl lo carry).1.toNat_lt
  have hlt' := (Machine.shifted .rol hi (Machine.shifted .asl lo carry).2).1.toNat_lt
  refine ⟨rfl, ?_⟩
  simp only [if_true, natural_two, List.length_cons, List.length_nil]
  omega

/-- The carry of the high byte goes into the low byte. -/
theorem lsrRor (lo hi : UInt8) (carry : Bool) : IsShift false false 1 [lo, hi]
    [(Machine.shifted .ror lo (Machine.shifted .lsr hi carry).2).1,
      (Machine.shifted .lsr hi carry).1] := by
  have hhigh := toNat_lsr hi carry
  have hlow := toNat_ror lo (Machine.shifted .lsr hi carry).2
  have hout := (Machine.shifted .ror lo (Machine.shifted .lsr hi carry).2).2.toNat_lt
  refine ⟨rfl, ?_⟩
  simp only [Bool.false_eq_true, if_false, number_unsigned, natural_two]
  omega

theorem rorRor (lo hi : UInt8) : IsShift false true 1 [lo, hi]
    [(Machine.shifted .ror lo (Machine.shifted .ror hi (isNegative hi)).2).1,
      (Machine.shifted .ror hi (isNegative hi)).1] := by
  have hhigh := signedByte_ror hi
  have hlow := toNat_ror lo (Machine.shifted .ror hi (isNegative hi)).2
  have hout := (Machine.shifted .ror lo (Machine.shifted .ror hi (isNegative hi)).2).2.toNat_lt
  refine ⟨rfl, ?_⟩
  simp only [Bool.false_eq_true, if_false, number_two]
  omega

/-! #### Whole bytes -/

/-- The low byte becomes the high one. -/
theorem moveUp {b : UInt8} (h : IsShift true signed j [lo] [b]) :
    IsShift true signed (8 + j) [lo, hi] [0, b] := by
  have hlow := h.shifted
  simp only [if_true, natural_one, List.length_singleton] at hlow
  refine ⟨rfl, ?_⟩
  have hsplit : (lo.toNat + 256 * hi.toNat) * 2 ^ (8 + j) =
      256 * (lo.toNat * 2 ^ j) + 256 * 256 * (hi.toNat * 2 ^ j) := by ring
  simp only [if_true, natural_two, List.length_cons, List.length_nil, UInt8.toNat_zero, hsplit]
  omega

/-- The high byte becomes the low one. -/
theorem moveDown {b : UInt8} (h : IsShift false false j [hi] [b]) :
    IsShift false false (8 + j) [lo, hi] [b, 0] := by
  have hhigh := h.shifted
  have hlt := lo.toNat_lt
  simp only [Bool.false_eq_true, if_false, number_unsigned, natural_one] at hhigh
  refine ⟨rfl, ?_⟩
  simp only [Bool.false_eq_true, if_false, number_unsigned, natural_two, UInt8.toNat_zero]
  rw [pow_add, ← Int.ediv_ediv_of_nonneg (by positivity)]
  have hhalf : ((lo.toNat + 256 * hi.toNat : ℕ) : ℤ) / 2 ^ 8 = hi.toNat := by push_cast; omega
  rw [hhalf, ← hhigh]
  push_cast
  omega

/-! #### Shifts beyond the width -/

theorem natural_zeros (n : ℕ) : natural (List.replicate n 0) = 0 := by
  induction n with
  | zero => rfl
  | succ n ih =>
    rw [List.replicate_succ, natural, ih]
    rfl

/-- Nothing is left of a number that is shifted out. -/
theorem beyond (hj : 8 * v.length ≤ j) (h : left = true ∨ signed = false) :
    IsShift left signed j v (List.replicate v.length 0) := by
  have hpow : 256 ^ v.length = 2 ^ (8 * v.length) := by rw [pow_mul]; norm_num
  refine ⟨List.length_replicate, ?_⟩
  split
  · rw [natural_zeros, hpow, eq_comm, ← Nat.dvd_iff_mod_eq_zero]
    exact Dvd.dvd.mul_left (pow_dvd_pow 2 hj) _
  · rename_i hleft
    obtain rfl := h.resolve_left hleft
    rw [number_unsigned, number_unsigned, natural_zeros, eq_comm]
    have hlt := natural_lt v
    rw [hpow] at hlt
    exact_mod_cast Nat.div_eq_of_lt (hlt.trans_le (Nat.pow_le_pow_right two_pos hj))

/-- The number with a sign that bytes stand for. -/
theorem number_bounds (v : List UInt8) (hv : v ≠ []) :
    -2 ^ (8 * v.length - 1) ≤ number true v ∧ number true v < 2 ^ (8 * v.length - 1) := by
  have hlt := natural_lt v
  have hlength : 0 < v.length := List.length_pos_iff.mpr hv
  have hpow : 256 ^ v.length = 2 * 2 ^ (8 * v.length - 1) := by
    rw [← pow_succ', Nat.sub_add_cancel (by omega), pow_mul]
    norm_num
  have hcast : (256 : ℤ) ^ v.length = ((256 ^ v.length : ℕ) : ℤ) := by push_cast; rfl
  have hcast' : (2 : ℤ) ^ (8 * v.length - 1) = ((2 ^ (8 * v.length - 1) : ℕ) : ℤ) := by push_cast; rfl
  unfold number
  simp only [true_and]
  rw [hcast, hcast', hpow]
  rw [hpow] at hlt
  split <;> constructor <;> push_cast <;> omega

/-- Only the sign is left of a number that is shifted by all bits but one, or by more. -/
theorem ediv_of_bounds {z : ℤ} {m j : ℕ} (hm : m ≤ j) (h : -2 ^ m ≤ z ∧ z < 2 ^ m) :
    z / 2 ^ j = if z < 0 then -1 else 0 := by
  have hle : (2 : ℤ) ^ m ≤ 2 ^ j := pow_le_pow_right₀ (by norm_num) hm
  have hpos : (0 : ℤ) < 2 ^ j := by positivity
  split
  · rw [Int.ediv_eq_iff_of_pos hpos]
    constructor <;> linarith
  · exact Int.ediv_eq_zero_of_lt (by omega) (by linarith)

theorem saturate (hv : v ≠ []) (hj : 8 * v.length - 1 ≤ j)
    (h : IsShift false true (8 * v.length - 1) v w) : IsShift false true j v w := by
  have hw := h.shifted
  have hbounds := number_bounds v hv
  refine ⟨h.length, ?_⟩
  simp only [Bool.false_eq_true, if_false] at hw ⊢
  rw [hw, ediv_of_bounds le_rfl hbounds, ediv_of_bounds hj hbounds]

/-! #### Numbers -/

/-- **Shifted bytes stand for the shifted number**, modulo their size. -/
theorem natural_eq (h : IsShift left signed j v w) :
    (natural w : ℤ) = shiftOf left (number signed v) j % 256 ^ v.length := by
  have hshifted := h.shifted
  unfold shiftOf
  cases left with
  | true =>
    simp only [if_true] at hshifted ⊢
    push_cast [hshifted]
    rw [← number_emod signed v, Int.mul_emod, Int.emod_emod_of_dvd _ dvd_rfl, ← Int.mul_emod]
  | false =>
    simp only [Bool.false_eq_true, if_false] at hshifted ⊢
    rw [← hshifted, ← h.length, number_emod]

/-- There is only one outcome. -/
theorem unique (h : IsShift left signed j v w) (h' : IsShift left signed j v x) : w = x :=
  natural_inj (h.length.trans h'.length.symm) (Int.ofNat.inj (h.natural_eq.trans h'.natural_eq.symm))

theorem natural_ones (n : ℕ) : (natural (List.replicate n 0xFF) : ℤ) = -1 % 256 ^ n := by
  have h : natural (List.replicate n 0xFF) + 1 = 256 ^ n := by
    induction n with
    | zero => rfl
    | succ n ih =>
      rw [List.replicate_succ, natural, pow_succ, show (0xFF : UInt8).toNat = 255 from rfl]
      omega
  have hcast : (256 : ℤ) ^ n = natural (List.replicate n 0xFF) + 1 := by exact_mod_cast h.symm
  rw [hcast, ← Int.add_emod_right, Int.emod_eq_of_lt] <;> omega

/-- **Shifts by all bits** and more leave zero or, for a negative number that keeps its sign,
ones. -/
theorem eq_replicate (h : IsShift left signed j v w) (hv : v ≠ []) (hj : 8 * v.length ≤ j) :
    w = List.replicate v.length
      (if left = false ∧ signed = true ∧ number true v < 0 then 0xFF else 0) := by
  by_cases hsaturates : left = false ∧ signed = true
  · obtain ⟨rfl, rfl⟩ := hsaturates
    refine natural_inj (h.length.trans List.length_replicate.symm) (Int.ofNat.inj (h.natural_eq.trans ?_))
    simp only [shiftOf, Bool.false_eq_true, if_false, true_and]
    rw [ediv_of_bounds (by omega) (number_bounds v hv)]
    split
    · exact (natural_ones _).symm
    · rw [Int.zero_emod, natural_zeros]
      rfl
  · rw [if_neg fun hall => hsaturates ⟨hall.1, hall.2.1⟩]
    refine h.unique (beyond hj ?_)
    cases left <;> cases signed <;> simp_all

end IsShift

end Codegen6502.Proofs.Processor.Shifts
