import Codegen6502.Program.Node
import Codegen6502.Proofs.Processor.Arithmetic
import Mathlib.Data.Int.Bitwise

/-!
# Arithmetic byte by byte

An operation on numbers of several bytes goes from the low byte to the high one and hands the carry
on (`chain`).  What it leaves is the exact result of the operation on the numbers, with or without a
sign, modulo a power of 256 (`natural_chain`).
-/

namespace Codegen6502.Proofs.Processor.Chains

open Memory Straight Arithmetic

/-! ### One byte after the other -/

/-- Registers with a byte in A and a carry. -/
def loaded (carry : Bool) (a : UInt8) : Registers := { ({} : Registers).setFlag .c carry with a }

theorem flag_loaded (carry : Bool) (a : UInt8) : (loaded carry a).flag .c = carry := by
  change (({} : Registers).setFlag .c carry).flag .c = carry
  rw [flag_setFlag, if_pos rfl]

theorem carry_eq (q : Registers) : carry q = (q.flag .c).toNat := by
  rw [carry]
  cases q.flag .c <;> rfl

/-- What an instruction leaves in A and in the carry depends on A and the carry only. -/
theorem alu_congr {op : Opcode} (hop : isAlu op = true) {q q' : Registers} (ha : q.a = q'.a)
    (hc : q.flag .c = q'.flag .c) (byte : UInt8) :
    (alu op q byte).a = (alu op q' byte).a ∧ (alu op q byte).flag .c = (alu op q' byte).flag .c := by
  have hsum : ∀ b, sum q b = sum q' b := fun b => by rw [sum, sum, ha, hc]
  have hcarry : carry q = carry q' := by rw [carry, carry, hc]
  obtain rfl | rfl | rfl | rfl | rfl | rfl := isAlu_cases hop
  · exact ⟨hsum _, by simp only [alu, flag_add, ha, hcarry]⟩
  · exact ⟨hsum _, by simp only [alu, flag_add, ha, hcarry]⟩
  · exact ⟨congrArg (· &&& byte) ha, by simp [alu, hc]⟩
  · exact ⟨congrArg (· ||| byte) ha, by simp [alu, hc]⟩
  · exact ⟨congrArg (· ^^^ byte) ha, by simp [alu, hc]⟩
  · exact ⟨ha, by simp [alu, flag_compare, ha]⟩

/-- The bytes that an instruction leaves in A, one after the other. -/
def chain (op : Opcode) : Bool → List UInt8 → List UInt8 → List UInt8
  | carry, l :: ls, r :: rs =>
    (alu op (loaded carry l) r).a :: chain op ((alu op (loaded carry l) r).flag .c) ls rs
  | _, _, _ => []

theorem length_chain {op : Opcode} : ∀ {carry : Bool} {l r : List UInt8}, l.length = r.length →
    (chain op carry l r).length = l.length
  | _, [], _, _ => by simp [chain]
  | _, l :: ls, [], h => by cases h
  | _, l :: ls, r :: rs, h => by
    rw [chain, List.length_cons, length_chain (by simpa using h), List.length_cons]

/-! ### Addition and subtraction -/

theorem natural_add : ∀ {c : Bool} {l r : List UInt8}, l.length = r.length →
    natural (chain .adc c l r) = (natural l + natural r + c.toNat) % 256 ^ l.length
  | c, [], [], _ => by simp [chain, natural, Nat.mod_one]
  | c, [], r :: rs, h => by cases h
  | c, l :: ls, [], h => by cases h
  | c, l :: ls, r :: rs, h => by
    have hbyte := toNat_add (loaded c l) r
    have hlt := ((loaded c l).add r).a.toNat_lt
    rw [carry_eq, carry_eq, flag_loaded, show (loaded c l).a = l from rfl] at hbyte
    rw [chain, natural, natural_add (by simpa using h), natural, natural, List.length_cons, pow_succ,
      Nat.mul_comm (256 ^ ls.length), Nat.mod_mul]
    -- The low byte of the sum, and the rest of it with the carry.
    have hlow : (l.toNat + 256 * natural ls + (r.toNat + 256 * natural rs) + c.toNat) % 256 =
        ((loaded c l).add r).a.toNat := by omega
    have hhigh : (l.toNat + 256 * natural ls + (r.toNat + 256 * natural rs) + c.toNat) / 256 =
        natural ls + natural rs + (((loaded c l).add r).flag .c).toNat := by omega
    rw [hlow, hhigh]
    rfl

/-- A subtraction adds the complement. -/
theorem chain_sbc : ∀ (c : Bool) (l r : List UInt8),
    chain .sbc c l r = chain .adc c l (r.map (· ^^^ 0xFF))
  | _, [], _ => by simp [chain]
  | _, _ :: _, [] => by simp [chain]
  | c, l :: ls, r :: rs => by
    rw [List.map_cons, chain, chain, chain_sbc]
    rfl

theorem natural_complement (r : List UInt8) :
    natural (r.map (· ^^^ 0xFF)) + natural r + 1 = 256 ^ r.length := by
  induction r with
  | nil => rfl
  | cons b rest ih =>
    have hb := b.toNat_lt
    rw [List.map_cons, natural, natural, toNat_complement, List.length_cons, pow_succ]
    omega

theorem natural_subtract {l r : List UInt8} (h : l.length = r.length) :
    natural (chain .sbc true l r) = (natural l + (256 ^ l.length - natural r)) % 256 ^ l.length := by
  have hcomplement := natural_complement r
  rw [chain_sbc, natural_add (by simpa using h), h]
  congr 1
  simp only [Bool.toNat_true]
  omega

/-! ### Bits -/

theorem testBit_natural (b : UInt8) (rest : List UInt8) (i : ℕ) : (natural (b :: rest)).testBit i =
    if i < 8 then b.toNat.testBit i else (natural rest).testBit (i - 8) := by
  rw [natural, Nat.add_comm]
  exact Nat.testBit_two_pow_mul_add (natural rest) b.toNat_lt i

/-- An operation on bits goes through bytes. -/
theorem natural_zipWith {f : UInt8 → UInt8 → UInt8} {g : Bool → Bool → Bool} (hg : g false false = false)
    (hf : ∀ (x y : UInt8) (i : ℕ), (f x y).toNat.testBit i = g (x.toNat.testBit i) (y.toNat.testBit i)) :
    ∀ {l r : List UInt8}, l.length = r.length → ∀ i, (natural (List.zipWith f l r)).testBit i =
      g ((natural l).testBit i) ((natural r).testBit i)
  | [], [], _, i => by simp [natural, hg]
  | [], _ :: _, h, _ => by cases h
  | _ :: _, [], h, _ => by cases h
  | x :: xs, y :: ys, h, i => by
    rw [List.zipWith_cons_cons, testBit_natural, testBit_natural, testBit_natural]
    split
    · exact hf x y i
    · exact natural_zipWith hg hf (by simpa using h) (i - 8)

theorem chain_logical {op : Opcode} {f : UInt8 → UInt8 → UInt8}
    (h : ∀ q r, (alu op q r).a = f q.a r) : ∀ (c : Bool) (l r : List UInt8),
      chain op c l r = List.zipWith f l r
  | _, [], _ => by simp [chain]
  | _, _ :: _, [] => by simp [chain]
  | c, l :: ls, r :: rs => by
    rw [chain, chain_logical h, h]
    rfl

theorem chain_and (c : Bool) (l r : List UInt8) : chain .and c l r = List.zipWith (· &&& ·) l r :=
  chain_logical (fun _ _ => rfl) c l r

theorem chain_ora (c : Bool) (l r : List UInt8) : chain .ora c l r = List.zipWith (· ||| ·) l r :=
  chain_logical (fun _ _ => rfl) c l r

theorem chain_eor (c : Bool) (l r : List UInt8) : chain .eor c l r = List.zipWith (· ^^^ ·) l r :=
  chain_logical (fun _ _ => rfl) c l r

/-- The bits of a number modulo a power of two. -/
theorem testBit_emod (z : ℤ) (w i : ℕ) :
    (z % 2 ^ w).toNat.testBit i = (decide (i < w) && z.testBit i) := by
  cases z with
  | ofNat n =>
    have hmod : (Int.ofNat n % 2 ^ w).toNat = n % 2 ^ w := by
      rw [show (2 : ℤ) ^ w = ((2 ^ w : ℕ) : ℤ) by push_cast; rfl]
      rfl
    rw [hmod, Nat.testBit_mod_two_pow]
    rfl
  | negSucc m =>
    have hmod : (Int.negSucc m % 2 ^ w).toNat = 2 ^ w - (m % 2 ^ w + 1) := by
      rw [show (2 : ℤ) ^ w = ((2 ^ w : ℕ) : ℤ) by push_cast; rfl, Int.negSucc_emod _ (by positivity)]
      omega
    rw [hmod, Nat.testBit_two_pow_sub_succ (Nat.mod_lt _ (by positivity)), Nat.testBit_mod_two_pow]
    by_cases hi : i < w <;> simp [hi, Int.testBit]

/-- Modulo the size of a type, a number with a sign is the one without. -/
theorem number_emod (signed : Bool) (bytes : List UInt8) :
    number signed bytes % 256 ^ bytes.length = natural bytes := by
  have hlt := natural_lt bytes
  have hcast : (256 : ℤ) ^ bytes.length = ((256 ^ bytes.length : ℕ) : ℤ) := by push_cast; rfl
  unfold number
  rw [hcast]
  split
  · rw [Int.sub_emod_right]
    exact Int.emod_eq_of_lt (by omega) (by omega)
  · exact Int.emod_eq_of_lt (by omega) (by omega)

/-- An operation on bits, on the numbers that bytes stand for. -/
theorem natural_bitwise {f : UInt8 → UInt8 → UInt8} {g : Bool → Bool → Bool} {h : ℤ → ℤ → ℤ}
    (hg : g false false = false)
    (hf : ∀ (x y : UInt8) (i : ℕ), (f x y).toNat.testBit i = g (x.toNat.testBit i) (y.toNat.testBit i))
    (hh : ∀ x y i, (h x y).testBit i = g (x.testBit i) (y.testBit i)) {l r : List UInt8}
    (hlength : l.length = r.length) (signed : Bool) :
    (natural (List.zipWith f l r) : ℤ) = h (number signed l) (number signed r) % 256 ^ l.length := by
  have hpow : ∀ n : ℕ, (256 : ℤ) ^ n = 2 ^ (8 * n) := fun n => by rw [pow_mul]; norm_num
  have hbits : ∀ (bytes : List UInt8) (i : ℕ), (natural bytes).testBit i =
      (decide (i < 8 * bytes.length) && (number signed bytes).testBit i) := fun bytes i => by
    rw [← testBit_emod, ← hpow, number_emod]
    rfl
  have hnat : natural (List.zipWith f l r) =
      (h (number signed l) (number signed r) % 2 ^ (8 * l.length)).toNat := by
    refine Nat.eq_of_testBit_eq fun i => ?_
    rw [natural_zipWith hg hf hlength, testBit_emod, hh, hbits, hbits, ← hlength]
    by_cases hi : i < 8 * l.length <;> simp [hi, hg]
  rw [hnat, hpow, Int.toNat_of_nonneg (Int.emod_nonneg _ (by positivity))]

/-! ### Exact results -/

/-- The exact result of an operation on two numbers. -/
def exact (op : BinaryOp) (l r : ℤ) : ℤ :=
  match op with
  | .add => l + r
  | .sub => l - r
  | .and => Int.land l r
  | .or => Int.lor l r
  | .xor => Int.xor l r
  | _ => 0

/-- The operations that go byte by byte. -/
def isByteWise : BinaryOp → Bool
  | .add | .sub | .and | .or | .xor => true
  | _ => false

/-- The instruction of an operation that goes byte by byte. -/
def opcodeOf : BinaryOp → Opcode
  | .add => .adc
  | .sub => .sbc
  | .and => .and
  | .or => .ora
  | .xor => .eor
  | _ => .nop

/-- **A chain leaves the exact result**, modulo the size of the type. -/
theorem natural_chain {op : BinaryOp} (hop : isByteWise op = true) {c : Bool}
    (hadd : op = .add → c = false) (hsub : op = .sub → c = true) {l r : List UInt8}
    (hlength : l.length = r.length) (signed : Bool) :
    (natural (chain (opcodeOf op) c l r) : ℤ) =
      exact op (number signed l) (number signed r) % 256 ^ l.length := by
  have hl := number_emod signed l
  have hr := number_emod signed r
  have hlt := natural_lt r
  rw [← hlength] at hr hlt
  have hcast : (256 : ℤ) ^ l.length = ((256 ^ l.length : ℕ) : ℤ) := by push_cast; rfl
  cases op with
  | add =>
    rw [hadd rfl, opcodeOf, natural_add hlength, exact, Int.add_emod, hl, hr, hcast]
    push_cast
    simp
  | sub =>
    rw [hsub rfl, opcodeOf, natural_subtract hlength, exact, Int.sub_emod, hl, hr, hcast]
    push_cast [Nat.cast_sub hlt.le]
    rw [← Int.add_sub_assoc, Int.add_comm, Int.add_sub_assoc, Int.add_emod_left]
  | and =>
    rw [opcodeOf, chain_and]
    exact natural_bitwise rfl (fun x y i => by rw [UInt8.toNat_and, Nat.testBit_and]) Int.testBit_land
      hlength signed
  | or =>
    rw [opcodeOf, chain_ora]
    exact natural_bitwise rfl (fun x y i => by rw [UInt8.toNat_or, Nat.testBit_or]) Int.testBit_lor
      hlength signed
  | xor =>
    rw [opcodeOf, chain_eor]
    exact natural_bitwise rfl (fun x y i => by rw [UInt8.toNat_xor, Nat.testBit_xor]) Int.testBit_lxor
      hlength signed
  | _ => cases hop

/-- Where the carry does not matter, any carry will do. -/
theorem chain_carry {op : BinaryOp} (hop : isByteWise op = true) {c : Bool}
    (hadd : op = .add → c = false) (hsub : op = .sub → c = true) (l r : List UInt8) :
    chain (opcodeOf op) c l r = chain (opcodeOf op) (op = .sub) l r := by
  cases op with
  | add => rw [hadd rfl]; rfl
  | sub => rw [hsub rfl]; rfl
  | and => simp only [opcodeOf, chain_and]
  | or => simp only [opcodeOf, chain_ora]
  | xor => simp only [opcodeOf, chain_eor]
  | _ => cases hop

theorem chain_comm {op : BinaryOp} (hop : isByteWise op = true) (hcomm : op.isCommutative = true)
    (c : Bool) {l r : List UInt8} (hlength : l.length = r.length) :
    chain (opcodeOf op) c r l = chain (opcodeOf op) c l r := by
  cases op with
  | add =>
    refine natural_inj (by rw [length_chain hlength.symm, length_chain hlength, hlength]) ?_
    rw [opcodeOf, natural_add hlength, natural_add hlength.symm, hlength, Nat.add_comm (natural r)]
  | and => simp only [opcodeOf, chain_and, List.zipWith_comm_of_comm UInt8.and_comm]
  | or => simp only [opcodeOf, chain_ora, List.zipWith_comm_of_comm UInt8.or_comm]
  | xor => simp only [opcodeOf, chain_eor, List.zipWith_comm_of_comm UInt8.xor_comm]
  | mul => cases hop
  | _ => cases hcomm

end Codegen6502.Proofs.Processor.Chains
