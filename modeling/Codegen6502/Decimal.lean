/-!
# Decimals

A decimal is read into a significand of at most 64 bits and a power of ten.  In double precision it
is the product of the two, each of which is rounded to 53 bits before they are multiplied.
-/

namespace Codegen6502

/-- A number in scientific form: `(-1)^negative * digits * 10^exponent`. -/
structure Decimal where
  negative : Bool
  digits : Nat
  exponent : Int
  deriving DecidableEq

namespace Decimal

/-! ### Reading digits -/

/-- Significands are below this bound. -/
def digitBound : Nat := 0x10000000000000000

/-- Appends digits to a number for as long as it stays below the bound.  Gives the number and the
digits that are left over. -/
def gather (n : Nat) : List Char → Nat × List Char
  | [] => (n, [])
  | c :: rest =>
    let next := 10 * n + (c.toNat - 48)
    if next < digitBound then gather next rest else (n, c :: rest)

/-- The decimal with the given digits in front of its point and behind it.  A digit in front that
does not fit any more counts as a power of ten; one behind is dropped. -/
def ofDigits (negative : Bool) (whole fraction : List Char) (exponent : Int) : Decimal :=
  let front := gather 0 whole
  let all := gather front.1 fraction
  let behind := fraction.length - all.2.length
  ⟨negative, all.1, exponent + front.2.length - behind⟩

/-- The decimal that a plain integer stands for. -/
def ofInt (n : Int) : Decimal := ofDigits (n < 0) (Nat.toDigits 10 n.natAbs) [] 0

/-! ### Double precision -/

/-- The nearest number with at most 53 significant bits; halfway between two, the even one. -/
def roundToDouble (n : Nat) : Nat :=
  let unit := Nat.pow 2 (n.log2 + 1 - 53)
  let quotient := n / unit
  let doubled := 2 * (n % unit)
  if unit < doubled ∨ (unit = doubled ∧ quotient % 2 = 1) then (quotient + 1) * unit
  else quotient * unit

/-- The least magnitude that rounds to infinity. -/
def overflowBound : Nat := Nat.pow 2 1024 - Nat.pow 2 970

/-- The greatest power of ten with a finite value. -/
def maxExponent : Int := 308

/-- Whether the number has a finite value in double precision. -/
def isFinite (d : Decimal) : Bool :=
  if d.digits = 0 ∨ d.exponent ≤ 0 then true
  else if d.exponent > maxExponent then false
  else roundToDouble d.digits * roundToDouble (Nat.pow 10 d.exponent.toNat) < overflowBound

end Decimal

end Codegen6502
