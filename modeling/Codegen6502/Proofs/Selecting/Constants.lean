import Codegen6502.Proofs.Processor.Arithmetic
import Codegen6502.Selection.Arithmetic
import Codegen6502.Selection.Branching

/-!
# Constants and their bytes

The bytes of a constant stand for the constant wrapped to its type (`number_constant`), and the
values of a type lie between its bounds (`number_bounds`).
-/

namespace Codegen6502.Proofs.Selecting.Constants

open Selection Processor.Arithmetic

variable {type : ValueType}

/-- The types that can be computed with. -/
theorem scalar_cases (h : type.isScalar = true) :
    type = .u8 ∨ type = .i8 ∨ type = .u16 ∨ type = .i16 ∨ type = .ptr := by
  revert h
  cases type <;> simp [ValueType.isScalar]

theorem size_cases (h : type.isScalar = true) :
    type.size.toNat = 1 ∨ type.size.toNat = 2 := by
  obtain rfl | rfl | rfl | rfl | rfl := scalar_cases h <;> decide

/-! ### Bytes -/

/-- The bits of a constant as a number. -/
def bits (v : Int64) : ℕ := v.toBitVec.toNat

theorem toInt_and_mask (v : Int64) {w : ℕ} (hw : w = 8 ∨ w = 16) :
    (v &&& (bit w - 1)).toInt = (bits v % 2 ^ w : ℕ) := by
  have hmask : (bit w - 1).toBitVec = BitVec.ofNat 64 (2 ^ w - 1) := by
    obtain rfl | rfl := hw <;> decide
  have hlt : 2 ^ w - 1 < 2 ^ 64 := by obtain rfl | rfl := hw <;> decide
  have hnat : (v &&& (bit w - 1)).toBitVec.toNat = bits v % 2 ^ w := by
    rw [Int64.toBitVec_and, hmask, BitVec.toNat_and, BitVec.toNat_ofNat, Nat.mod_eq_of_lt hlt]
    exact Nat.and_two_pow_sub_one_eq_mod _ w
  have hbound : bits v % 2 ^ w < 2 ^ 16 :=
    (Nat.mod_lt _ (Nat.two_pow_pos w)).trans_le (Nat.pow_le_pow_right (by decide) (by omega))
  change (v &&& (bit w - 1)).toBitVec.toInt = _
  rw [BitVec.toInt_eq_toNat_of_lt (by rw [hnat]; omega), hnat]

theorem toNat_constByte_zero (v : Int64) : (constByte v 0).toNat = bits v % 256 := by
  simp [constByte, bits]
  rfl

theorem toNat_constByte_one (v : Int64) : (constByte v 1).toNat = bits v / 256 % 256 := by
  have hshift : (v >>> (8 : Int64)).toBitVec = v.toBitVec.sshiftRight 8 := by
    rw [Int64.toBitVec_shiftRight]
    rfl
  have hbyte : (constByte v 1).toBitVec = (v.toBitVec.sshiftRight 8).setWidth 8 := by
    rw [← hshift]
    rfl
  have hlow : (v.toBitVec.sshiftRight 8).setWidth 8 = (v.toBitVec >>> 8).setWidth 8 := by
    refine BitVec.eq_of_getLsbD_eq fun i hi => ?_
    have hlt : 8 + i < 64 := by omega
    simp only [BitVec.getLsbD_setWidth, hi, decide_true, Bool.true_and, BitVec.getLsbD_sshiftRight,
      hlt, ↓reduceIte, BitVec.getLsbD_ushiftRight]
    simp
    omega
  change (constByte v 1).toBitVec.toNat = _
  rw [hbyte, hlow]
  simp [bits, Nat.shiftRight_eq_div_pow]

/-- The bytes of a constant. -/
def bytes (v : Int64) (size : ℕ) : List UInt8 := (List.range size).map (constByte v)

@[simp] theorem bytes_one (v : Int64) : bytes v 1 = [constByte v 0] := rfl

@[simp] theorem bytes_two (v : Int64) : bytes v 2 = [constByte v 0, constByte v 1] := rfl

theorem natural_bytes (v : Int64) {size : ℕ} (h : size = 1 ∨ size = 2) :
    natural (bytes v size) = bits v % 256 ^ size := by
  obtain rfl | rfl := h
  · simp [toNat_constByte_zero]
  · simp only [bytes_two, natural_two, toNat_constByte_zero, toNat_constByte_one]
    omega

/-- An operation on bits goes byte by byte. -/
theorem bytes_bitwise {f : Int64 → Int64 → Int64} {g : UInt8 → UInt8 → UInt8} {h : ℕ → ℕ → ℕ}
    (hf : ∀ v w, bits (f v w) = h (bits v) (bits w)) (hg : ∀ a b, (g a b).toNat = h a.toNat b.toNat)
    (hmod : ∀ a b, h a b % 256 = h (a % 256) (b % 256)) (hdiv : ∀ a b, h a b / 256 = h (a / 256) (b / 256))
    (v w : Int64) {size : ℕ} (hsize : size = 1 ∨ size = 2) :
    bytes (f v w) size = List.zipWith g (bytes v size) (bytes w size) := by
  have hzero : constByte (f v w) 0 = g (constByte v 0) (constByte w 0) := by
    refine UInt8.toNat_inj.mp ?_
    rw [hg, toNat_constByte_zero, toNat_constByte_zero, toNat_constByte_zero, hf, hmod]
  have hone : constByte (f v w) 1 = g (constByte v 1) (constByte w 1) := by
    refine UInt8.toNat_inj.mp ?_
    rw [hg, toNat_constByte_one, toNat_constByte_one, toNat_constByte_one, hf, hdiv, hmod]
  obtain rfl | rfl := hsize
  · simp [hzero]
  · simp [hzero, hone]

theorem bits_add (v w : Int64) : bits (v + w) = (bits v + bits w) % 2 ^ 64 := by
  simp [bits]

theorem bits_sub (v w : Int64) : bits (v - w) = (2 ^ 64 - bits w + bits v) % 2 ^ 64 := by
  simp [bits, BitVec.toNat_sub]

/-! ### Wrapping -/

theorem bits_cases (h : type.isScalar = true) : bitsOf type = 8 ∨ bitsOf type = 16 := by
  obtain rfl | rfl | rfl | rfl | rfl := scalar_cases h <;> decide

/-- **The bytes of a constant stand for the wrapped constant.** -/
theorem number_constant (h : type.isScalar = true) (v : Int64) :
    number type.isSigned (bytes v type.size.toNat) = (wrap v type).toInt := by
  have hsize := size_cases h
  have hbits : bitsOf type = 8 * type.size.toNat := Nat.mul_comm ..
  have hlength : (bytes v type.size.toNat).length = type.size.toNat := by simp [bytes]
  have hlow := toInt_and_mask v (bits_cases h)
  have hpow : (2 : ℕ) ^ bitsOf type = 256 ^ type.size.toNat := by
    rw [hbits, pow_mul]
    norm_num
  rw [hpow] at hlow
  have hlt : bits v % 256 ^ type.size.toNat < 256 ^ type.size.toNat := Nat.mod_lt _ (by positivity)
  have hcast : (256 : ℤ) ^ type.size.toNat = ((256 ^ type.size.toNat : ℕ) : ℤ) := by push_cast; rfl
  have htop : (bit (bitsOf type)).toInt = 256 ^ type.size.toNat := by
    obtain rfl | rfl | rfl | rfl | rfl := scalar_cases h <;> decide
  have hhalf : 2 * (bit (bitsOf type - 1)).toInt = 256 ^ type.size.toNat := by
    obtain rfl | rfl | rfl | rfl | rfl := scalar_cases h <;> decide
  have hbound : (256 : ℕ) ^ type.size.toNat ≤ 65536 := by
    obtain hs | hs := hsize <;> rw [hs] <;> decide
  unfold number wrap
  rw [natural_bytes v hsize, hlength, hcast]
  rw [hcast] at htop hhalf
  generalize bits v % 256 ^ type.size.toNat = low at hlow hlt
  generalize v &&& (bit (bitsOf type) - 1) = masked at hlow
  generalize (256 : ℕ) ^ type.size.toNat = span at hlt htop hhalf hbound
  -- The two comparisons agree, and so do the two differences.
  have hle : masked ≥ bit (bitsOf type - 1) ↔ span ≤ 2 * low := by
    rw [ge_iff_le, Int64.le_iff_toInt_le, hlow]
    omega
  by_cases hsigned : type.isSigned = true ∧ span ≤ 2 * low
  · rw [if_pos hsigned, if_pos (by simp [hsigned.1, hle, hsigned.2]), Int64.toInt_sub, hlow, htop,
      Int.bmod_def]
    split <;> omega
  · rw [if_neg hsigned, if_neg (by simpa [hle] using hsigned), hlow]

/-! ### Bounds -/

theorem toInt_typeBounds (h : type.isScalar = true) :
    (typeBounds type).1.toInt = (if type.isSigned then -(256 ^ type.size.toNat / 2) else 0) ∧
      (typeBounds type).2.toInt =
        if type.isSigned then 256 ^ type.size.toNat / 2 - 1 else 256 ^ type.size.toNat - 1 := by
  obtain rfl | rfl | rfl | rfl | rfl := scalar_cases h <;> decide

/-- **The values of a type** lie between its bounds. -/
theorem number_bounds (h : type.isScalar = true) {bs : List UInt8}
    (hlength : bs.length = type.size.toNat) :
    (typeBounds type).1.toInt ≤ number type.isSigned bs ∧
      number type.isSigned bs ≤ (typeBounds type).2.toInt := by
  have hlt := natural_lt bs
  have hcast : (256 : ℤ) ^ bs.length = ((256 ^ bs.length : ℕ) : ℤ) := by push_cast; rfl
  obtain ⟨hleast, hgreatest⟩ := toInt_typeBounds h
  have heven : 256 ^ bs.length % 2 = 0 := by
    obtain hs | hs := size_cases h <;> rw [hlength, hs] <;> decide
  rw [hleast, hgreatest, ← hlength]
  unfold number
  rw [hcast]
  generalize 256 ^ bs.length = span at hlt heven
  cases type.isSigned
  · simp only [Bool.false_eq_true, false_and, ↓reduceIte]
    omega
  · simp only [true_and, ↓reduceIte]
    split <;> omega

theorem length_bytes (v : Int64) (size : ℕ) : (bytes v size).length = size := by simp [bytes]

theorem wrap_bounds (h : type.isScalar = true) (v : Int64) :
    (typeBounds type).1.toInt ≤ (wrap v type).toInt ∧
      (wrap v type).toInt ≤ (typeBounds type).2.toInt := by
  rw [← number_constant h]
  exact number_bounds h (length_bytes v _)

/-- A constant within the bounds of a type is wrapped to itself. -/
theorem toInt_wrap (h : type.isScalar = true) {v : Int64}
    (hleast : (typeBounds type).1.toInt ≤ v.toInt) (hgreatest : v.toInt ≤ (typeBounds type).2.toInt) :
    (wrap v type).toInt = v.toInt := by
  have hlt : bits v < 2 ^ 64 := v.toBitVec.isLt
  have hv : v.toInt = if 2 * bits v < 2 ^ 64 then (bits v : ℤ) else bits v - 2 ^ 64 :=
    BitVec.toInt_eq_toNat_cond ..
  obtain ⟨hl, hg⟩ := toInt_typeBounds h
  rw [hl] at hleast
  rw [hg] at hgreatest
  rw [← number_constant h]
  unfold number
  rw [natural_bytes v (size_cases h), length_bytes]
  -- Both lie in one interval and differ by a multiple of its length.
  obtain hs | hs := size_cases h
  all_goals
    rw [hs] at hleast hgreatest ⊢
    cases hsigned : type.isSigned
    · simp only [hsigned, Bool.false_eq_true, false_and, ↓reduceIte] at hleast hgreatest ⊢
      split at hv <;> omega
    · simp only [hsigned, true_and, ↓reduceIte] at hleast hgreatest ⊢
      split <;> split at hv <;> omega

/-- Wrapping keeps the bytes. -/
theorem bytes_wrap (h : type.isScalar = true) (v : Int64) :
    bytes (wrap v type) type.size.toNat = bytes v type.size.toNat := by
  have hlength : (bytes (wrap v type) type.size.toNat).length = (bytes v type.size.toNat).length := by
    rw [length_bytes, length_bytes]
  obtain ⟨hleast, hgreatest⟩ := wrap_bounds h v
  have hnumbers : number type.isSigned (bytes (wrap v type) type.size.toNat) =
      number type.isSigned (bytes v type.size.toNat) := by
    rw [number_constant h, number_constant h, toInt_wrap h hleast hgreatest]
  exact (number_inj hlength).mp hnumbers

section Successor

variable (h : type.isScalar = true) {v : Int64} (hne : wrap v type ≠ (typeBounds type).2)
include h hne

/-- The constant behind a wrapped one that is not the greatest. -/
theorem toInt_successor : (wrap v type + 1).toInt = (wrap v type).toInt + 1 ∧
    (wrap v type).toInt < (typeBounds type).2.toInt := by
  obtain ⟨hleast, hgreatest⟩ := wrap_bounds h v
  have hlt : (wrap v type).toInt ≠ (typeBounds type).2.toInt := fun heq => hne (Int64.toInt_inj.mp heq)
  have hone : (1 : Int64).toInt = 1 := by decide
  have hsmall : (typeBounds type).2.toInt < 65536 ∧ -65536 < (typeBounds type).1.toInt := by
    obtain rfl | rfl | rfl | rfl | rfl := scalar_cases h <;> decide
  refine ⟨?_, lt_of_le_of_ne hgreatest hlt⟩
  rw [Int64.toInt_add, hone, Int.bmod_def]
  split <;> omega

theorem number_successor :
    number type.isSigned (bytes (wrap v type + 1) type.size.toNat) = (wrap v type).toInt + 1 := by
  obtain ⟨hleast, -⟩ := wrap_bounds h v
  obtain ⟨hnext, hlt⟩ := toInt_successor h hne
  rw [number_constant h, toInt_wrap h, hnext]
  · omega
  · omega

end Successor

/-! ### Comparisons -/

/-- Whether a comparison holds between two numbers. -/
def compares (op : CompareOp) (l r : ℤ) : Bool :=
  match op with
  | .eq => l = r
  | .ne => l ≠ r
  | .lt => l < r
  | .le => l ≤ r
  | .gt => l > r
  | .ge => l ≥ r

theorem compares_negated (op : CompareOp) (l r : ℤ) : compares op.negated l r = !compares op l r := by
  rw [Bool.eq_iff_iff]
  cases op <;> simp [CompareOp.negated, compares]

theorem compares_swapped (op : CompareOp) (l r : ℤ) : compares op.swapped r l = compares op l r := by
  cases op <;> simp [CompareOp.swapped, compares, eq_comm]

theorem holds_eq (op : CompareOp) (l r : Int64) : op.holds l r = compares op l.toInt r.toInt := by
  have heq : l = r ↔ l.toInt = r.toInt := Int64.toInt_inj.symm
  cases op <;> simp only [CompareOp.holds, compares, heq, ne_eq, gt_iff_lt, ge_iff_le,
    Int64.lt_iff_toInt_lt, Int64.le_iff_toInt_le]

end Codegen6502.Proofs.Selecting.Constants
