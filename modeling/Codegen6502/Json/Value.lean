import Codegen6502.Decimal

/-!
# JSON values

Programs, options and images travel as JSON.  A value keeps the order of an object's members and
every repetition of a key, so that a reader can refuse a repeated member.  Numbers are split by how
they are written: `int` for a plain run of digits, `decimal` for everything with a fraction, an
exponent or a negative zero.
-/

namespace Codegen6502

inductive Json where
  | null
  | bool (value : Bool)
  | int (value : Int)
  | decimal (value : Decimal)
  | str (text : String)
  /-- A string with an unpaired surrogate: well formed, but it stands for no text. -/
  | brokenStr
  | arr (elements : List Json)
  | obj (members : List (String × Json))
  /-- An object with a key that stands for no text: well formed, but no record. -/
  | brokenObj

end Codegen6502
