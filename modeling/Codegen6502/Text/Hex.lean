/-!
# Hexadecimal text

Addresses and bytes are written in upper case and padded with zeros (`hexByte`, `hexWord`); byte
strings are written as two lower-case digits per byte (`hexOfBytes`) and read back by `bytesOfHex?`.
-/

namespace Codegen6502

/-- The digit `n` stands for in upper case; only the low four bits of `n` count. -/
def hexDigitUpper (n : Nat) : Char :=
  let d := n % 16
  if d < 10 then Char.ofNat (48 + d) else Char.ofNat (55 + d)

/-- The digit `n` stands for in lower case; only the low four bits of `n` count. -/
def hexDigitLower (n : Nat) : Char :=
  let d := n % 16
  if d < 10 then Char.ofNat (48 + d) else Char.ofNat (87 + d)

/-- The value of a hexadecimal digit of either case. -/
def hexValue? (c : Char) : Option Nat :=
  if '0' ≤ c ∧ c ≤ '9' then some (c.toNat - 48)
  else if 'a' ≤ c ∧ c ≤ 'f' then some (c.toNat - 87)
  else if 'A' ≤ c ∧ c ≤ 'F' then some (c.toNat - 55)
  else none

/-- The last `width` upper-case digits of `n`, most significant first. -/
def hexUpperDigits : Nat → Nat → List Char
  | 0, _ => []
  | width + 1, n => hexUpperDigits width (n / 16) ++ [hexDigitUpper n]

/-- A byte as two upper-case digits. -/
def hexByte (b : UInt8) : String :=
  String.ofList (hexUpperDigits 2 b.toNat)

/-- A 16-bit word as four upper-case digits. -/
def hexWord (w : UInt16) : String :=
  String.ofList (hexUpperDigits 4 w.toNat)

/-- A byte string as two lower-case digits per byte. -/
def hexOfBytes (bytes : List UInt8) : String :=
  String.ofList (bytes.flatMap fun b => [hexDigitLower (b.toNat / 16), hexDigitLower b.toNat])

/-- The bytes that a list of digit pairs stands for. -/
def bytesOfHexDigits? : List Char → Option (List UInt8)
  | [] => some []
  | [_] => none
  | hi :: lo :: rest => do
    let h ← hexValue? hi
    let l ← hexValue? lo
    let tail ← bytesOfHexDigits? rest
    return UInt8.ofNat (16 * h + l) :: tail

/-- The bytes that a text of digit pairs stands for. -/
def bytesOfHex? (text : String) : Option (List UInt8) :=
  bytesOfHexDigits? text.toList

end Codegen6502
