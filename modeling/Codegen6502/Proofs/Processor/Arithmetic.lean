import Codegen6502.Proofs.Processor.Straight

/-!
# Arithmetic with carry

What the instructions that compute in A do to the registers (`alu`), told in numbers: an addition
and a subtraction by an equation with the carry (`toNat_add`, `toNat_subtract`), the corrected sign
of a difference by the numbers that the bytes stand for (`sign_subtract`).

Bytes stand for a number, low byte first: `natural` without and `number` with a sign.
-/

namespace Codegen6502.Proofs.Processor.Arithmetic

open Memory LineRun Straight

variable {k : Linkage} {s : Store}

/-! ### Instructions -/

/-- What an instruction that computes in A does to the registers. -/
def alu (op : Opcode) (r : Registers) (byte : UInt8) : Registers :=
  match op with
  | .adc => r.add byte
  | .sbc => r.add (byte ^^^ 0xFF)
  | .and => r.loadA (r.a &&& byte)
  | .ora => r.loadA (r.a ||| byte)
  | .eor => r.loadA (r.a ^^^ byte)
  | .cmp => r.compare r.a byte
  | _ => r

def isAlu : Opcode → Bool
  | .adc | .sbc | .and | .ora | .eor | .cmp => true
  | _ => false

theorem isAlu_cases {op : Opcode} (h : isAlu op = true) :
    op = .adc ∨ op = .sbc ∨ op = .and ∨ op = .ora ∨ op = .eor ∨ op = .cmp := by
  revert h
  cases op <;> decide

theorem cellOp_alu {op : Opcode} (h : isAlu op = true) (r : Registers) (byte : UInt8) :
    cellOp op r byte = (alu op r byte, byte) := by
  have hread := read_alone r byte
  obtain rfl | rfl | rfl | rfl | rfl | rfl := isAlu_cases h
  all_goals
    simp only [cellOp, Machine.execute, Machine.readOperand, Machine.mapRegs, hread]
    rfl

theorem exec_alu {op : Opcode} (h : isAlu op = true) (operand : Operand) :
    s.exec k op operand = s.setRegs (alu op s.regs (value k s operand)) := by
  have hcell := cellOp_alu h s.regs
  cases operand with
  | virtual v =>
    simp only [Store.exec, hcell, value, Store.setCell, Store.setRegs, Function.update_eq_self]
  | frame offset =>
    simp only [Store.exec, hcell, value, Store.setFrame, Store.setRegs, Function.update_eq_self]
  | _ => obtain rfl | rfl | rfl | rfl | rfl | rfl := isAlu_cases h <;> rfl

/-- The instructions that step a byte by one. -/
theorem cellOp_inc (r : Registers) (byte : UInt8) :
    cellOp .inc r byte = (r.setNZ (byte + 1), byte + 1) := by
  have h := read_alone_write r byte (byte + 1)
  simp only [cellOp, Machine.execute, Machine.readOperand, Machine.mapRegs, Machine.writeOperand,
    read_alone]
  exact Prod.ext rfl h

theorem cellOp_dec (r : Registers) (byte : UInt8) :
    cellOp .dec r byte = (r.setNZ (byte - 1), byte - 1) := by
  have h := read_alone_write r byte (byte - 1)
  simp only [cellOp, Machine.execute, Machine.readOperand, Machine.mapRegs, Machine.writeOperand,
    read_alone]
  exact Prod.ext rfl h

/-! ### Flags -/

/-- Whether the top bit of a byte is set. -/
def isNegative (byte : UInt8) : Bool := byte &&& 0x80 != 0

theorem isNegative_eq (byte : UInt8) : isNegative byte = byte.toBitVec.getLsbD 7 :=
  flag_eq { p := byte } .n

theorem isNegative_iff (byte : UInt8) : isNegative byte = true ↔ 128 ≤ byte.toNat := by
  rw [isNegative_eq, ← BitVec.msb_eq_getLsbD_last, BitVec.msb_eq_decide, decide_eq_true_eq]
  rfl

@[simp] theorem flag_loadA (r : Registers) (byte : UInt8) (f : Flag) :
    (r.loadA byte).flag f =
      if f = .n then isNegative byte else if f = .z then decide (byte = 0) else r.flag f :=
  flag_setNZ ..

theorem flag_compare (r : Registers) (a byte : UInt8) (f : Flag) :
    (r.compare a byte).flag f = if f = .n then isNegative (a - byte) else
      if f = .z then decide (a = byte) else if f = .c then decide (byte ≤ a) else r.flag f := by
  have hzero : a - byte = 0 ↔ a = byte := by
    refine ⟨fun h => ?_, fun h => by simp [h]⟩
    simpa using congrArg (· + byte) h
  unfold Registers.compare
  rw [flag_setNZ]
  cases f <;> simp [isNegative, hzero]

/-- The carry as a number. -/
def carry (r : Registers) : ℕ := if r.flag .c then 1 else 0

theorem carry_le (r : Registers) : carry r ≤ 1 := by
  unfold carry
  split <;> omega

theorem flag_c_iff (r : Registers) : r.flag .c = true ↔ carry r = 1 := by
  unfold carry
  split <;> simp_all

/-- The byte that an addition leaves in A. -/
def sum (r : Registers) (byte : UInt8) : UInt8 := r.a + byte + if r.flag .c then 1 else 0

theorem add_a (r : Registers) (byte : UInt8) : (r.add byte).a = sum r byte := rfl

theorem toNat_sum (r : Registers) (byte : UInt8) :
    (sum r byte).toNat = (r.a.toNat + byte.toNat + carry r) % 256 := by
  have hone : (1 : UInt8).toNat = 1 := rfl
  have hzero : (0 : UInt8).toNat = 0 := rfl
  unfold sum carry
  split <;> simp only [UInt8.toNat_add, hone, hzero] <;> omega

theorem flag_add (r : Registers) (byte : UInt8) (f : Flag) :
    (r.add byte).flag f = match f with
      | .n => isNegative (sum r byte)
      | .z => decide (sum r byte = 0)
      | .c => decide (255 < r.a.toNat + byte.toNat + carry r)
      | .v => isNegative (~~~(r.a ^^^ byte) &&& (r.a ^^^ sum r byte))
      | f => r.flag f := by
  have hcarry : (if r.flag .c = true then 1 else 0 : UInt8).toNat = carry r := by
    unfold carry
    split <;> rfl
  unfold Registers.add sum
  rw [flag_loadA]
  cases f <;> simp [hcarry, isNegative]

/-- **An addition**, with the carry that comes in and the one that goes out. -/
theorem toNat_add (r : Registers) (byte : UInt8) :
    (r.add byte).a.toNat + 256 * carry (r.add byte) = r.a.toNat + byte.toNat + carry r := by
  have ha := r.a.toNat_lt
  have hb := byte.toNat_lt
  have hle := carry_le r
  have hout : carry (r.add byte) = if 255 < r.a.toNat + byte.toNat + carry r then 1 else 0 := by
    unfold carry
    rw [flag_add]
    simp only [decide_eq_true_eq]
    rfl
  rw [add_a, toNat_sum, hout]
  split <;> omega

theorem toNat_complement (byte : UInt8) : (byte ^^^ 0xFF).toNat = 255 - byte.toNat := by
  have h : ∀ x : BitVec 8, (x ^^^ 0xFF#8).toNat = 255 - x.toNat := by decide
  exact h byte.toBitVec

/-- **A subtraction**; a borrow is a carry that is missing. -/
theorem toNat_subtract (r : Registers) (byte : UInt8) :
    (alu .sbc r byte).a.toNat + 256 * carry (alu .sbc r byte) + byte.toNat =
      r.a.toNat + 255 + carry r := by
  have h := toNat_add r (byte ^^^ 0xFF)
  have hb := byte.toNat_lt
  rw [toNat_complement] at h
  change (r.add (byte ^^^ 0xFF)).a.toNat + 256 * carry (r.add (byte ^^^ 0xFF)) + _ = _
  omega

/-! ### Bytes as numbers -/

/-- The number that bytes stand for, low byte first. -/
def natural : List UInt8 → ℕ
  | [] => 0
  | byte :: rest => byte.toNat + 256 * natural rest

@[simp] theorem natural_one (b : UInt8) : natural [b] = b.toNat := by simp [natural]

@[simp] theorem natural_two (lo hi : UInt8) : natural [lo, hi] = lo.toNat + 256 * hi.toNat := by
  simp [natural]

theorem natural_lt (bytes : List UInt8) : natural bytes < 256 ^ bytes.length := by
  induction bytes with
  | nil => simp [natural]
  | cons b rest ih =>
    have hb := b.toNat_lt
    rw [natural, List.length_cons, pow_succ]
    omega

theorem natural_inj : ∀ {bytes bytes' : List UInt8}, bytes.length = bytes'.length →
    natural bytes = natural bytes' → bytes = bytes'
  | [], [], _, _ => rfl
  | b :: rest, b' :: rest', hlength, h => by
    have hb := b.toNat_lt
    have hb' := b'.toNat_lt
    simp only [natural] at h
    have hfirst : b.toNat = b'.toNat := by omega
    have hrest : rest = rest' := natural_inj (by simpa using hlength) (by omega)
    rw [UInt8.toNat_inj.mp hfirst, hrest]

/-- The number that bytes stand for in two's complement, if it has a sign. -/
def number (signed : Bool) (bytes : List UInt8) : ℤ :=
  if signed = true ∧ 256 ^ bytes.length ≤ 2 * natural bytes then
    (natural bytes : ℤ) - 256 ^ bytes.length
  else natural bytes

theorem number_inj {signed : Bool} {l r : List UInt8} (hlength : l.length = r.length) :
    number signed l = number signed r ↔ l = r := by
  refine ⟨fun h => natural_inj hlength ?_, fun h => by rw [h]⟩
  have hl := natural_lt l
  have hr := natural_lt r
  have hcast : (256 : ℤ) ^ r.length = ((256 ^ r.length : ℕ) : ℤ) := by push_cast; rfl
  unfold number at h
  rw [hlength, hcast] at h
  rw [hlength] at hl
  generalize 256 ^ r.length = span at h hl hr
  split at h <;> split at h <;> omega

theorem number_unsigned (bytes : List UInt8) : number false bytes = natural bytes := by
  simp [number]

/-- The value of a byte with a sign. -/
def signedByte (byte : UInt8) : ℤ := if isNegative byte then byte.toNat - 256 else byte.toNat

theorem number_one (b : UInt8) : number true [b] = signedByte b := by
  have h := isNegative_iff b
  unfold number signedByte
  simp only [true_and, List.length_singleton, natural_one]
  by_cases hb : isNegative b = true
  · rw [if_pos (by have := h.mp hb; omega), if_pos hb]
    norm_num
  · rw [if_neg (by have := mt h.mpr hb; omega), if_neg hb]

theorem number_two (lo hi : UInt8) : number true [lo, hi] = lo.toNat + 256 * signedByte hi := by
  have h := isNegative_iff hi
  have hlo := lo.toNat_lt
  unfold number signedByte
  simp only [true_and, List.length_cons, List.length_nil, natural_two]
  by_cases hb : isNegative hi = true
  · rw [if_pos (by have := h.mp hb; omega), if_pos hb]
    push_cast
    omega
  · rw [if_neg (by have := mt h.mpr hb; omega), if_neg hb]
    push_cast
    omega

theorem signedByte_complement (byte : UInt8) : signedByte (byte ^^^ 0xFF) = -1 - signedByte byte := by
  have h := isNegative_iff byte
  have h' := isNegative_iff (byte ^^^ 0xFF)
  have hb := byte.toNat_lt
  rw [toNat_complement] at h'
  unfold signedByte
  rw [toNat_complement]
  by_cases hn : isNegative byte = true
  · have := h.mp hn
    rw [if_pos hn, if_neg (by rw [h']; omega)]
    omega
  · have := mt h.mpr hn
    rw [if_neg hn, if_pos (by rw [h']; omega)]
    omega

/-- The sign of a sum, corrected by V. -/
theorem sign_add (r : Registers) (byte : UInt8) :
    ((r.add byte).flag .n ^^ (r.add byte).flag .v) =
      decide (signedByte r.a + signedByte byte + carry r < 0) := by
  have hsum := toNat_sum r byte
  have ha := r.a.toNat_lt
  have hb := byte.toNat_lt
  have hle := carry_le r
  have hna := isNegative_iff r.a
  have hnb := isNegative_iff byte
  have hns := isNegative_iff (sum r byte)
  have hv : isNegative (~~~(r.a ^^^ byte) &&& (r.a ^^^ sum r byte)) =
      (!(isNegative r.a ^^ isNegative byte) && (isNegative r.a ^^ isNegative (sum r byte))) := by
    simp [isNegative_eq]
  rw [flag_add, flag_add]
  simp only
  rw [hv, Bool.eq_iff_iff, decide_eq_true_eq]
  unfold signedByte
  cases h1 : isNegative r.a <;> cases h2 : isNegative byte <;> cases h3 : isNegative (sum r byte) <;>
    simp only [h1, h2, h3, Bool.false_eq_true, false_iff, true_iff, not_le] at hna hnb hns <;>
    simp <;> omega

/-- **The sign of a difference**, corrected by V, tells whether the difference is negative. -/
theorem sign_subtract (r : Registers) (byte : UInt8) :
    ((alu .sbc r byte).flag .n ^^ (alu .sbc r byte).flag .v) =
      decide (signedByte r.a + carry r ≤ signedByte byte) := by
  change ((r.add (byte ^^^ 0xFF)).flag .n ^^ (r.add (byte ^^^ 0xFF)).flag .v) = _
  rw [sign_add, signedByte_complement, decide_eq_decide]
  omega

end Codegen6502.Proofs.Processor.Arithmetic
