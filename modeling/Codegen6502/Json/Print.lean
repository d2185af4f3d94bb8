import Codegen6502.Json.Value
import Codegen6502.Text.Hex

/-!
# Writing JSON

`Json.compact` writes a value without blanks; `Json.pretty` puts each element and member on a line
of its own, indented by two spaces a level.
-/

namespace Codegen6502.Json

/-- A character inside a string.  Quotes, backslashes and control characters are escaped. -/
def escapeChar (c : Char) : List Char :=
  match c with
  | '"' => ['\\', '"']
  | '\\' => ['\\', '\\']
  | '\n' => ['\\', 'n']
  | '\r' => ['\\', 'r']
  | '\t' => ['\\', 't']
  | '\x08' => ['\\', 'b']
  | '\x0c' => ['\\', 'f']
  | _ =>
    if c.toNat < 32 then
      ['\\', 'u', '0', '0', hexDigitLower (c.toNat / 16), hexDigitLower c.toNat]
    else [c]

/-- A text between quotes. -/
def quote (s : String) : String :=
  "\"" ++ String.ofList (s.toList.flatMap escapeChar) ++ "\""

/-- A decimal as digits and an exponent. -/
def decimalText (d : Decimal) : String :=
  (if d.negative then "-" else "") ++ toString d.digits ++ "e" ++ toString d.exponent

mutual

/-- The value without any blanks. -/
def compact : Json → String
  | .null => "null"
  | .bool b => if b then "true" else "false"
  | .int n => toString n
  | .decimal d => decimalText d
  | .str s => quote s
  | .brokenStr => "\"\\ud800\""
  | .arr elements => compactElements "[" elements ++ "]"
  | .obj members => compactMembers "\x7b" members ++ "\x7d"
  | .brokenObj => "\x7b\"\\ud800\":null\x7d"

/-- The text so far, with the elements behind it. -/
def compactElements (written : String) : List Json → String
  | [] => written
  | [j] => written ++ compact j
  | j :: rest => compactElements (written ++ compact j ++ ",") rest

/-- The text so far, with the members behind it. -/
def compactMembers (written : String) : List (String × Json) → String
  | [] => written
  | [(k, j)] => written ++ quote k ++ ":" ++ compact j
  | (k, j) :: rest => compactMembers (written ++ quote k ++ ":" ++ compact j ++ ",") rest

end

/-- A line break followed by the indentation of a level. -/
def lineBreak (level : Nat) : String :=
  String.ofList ('\n' :: List.replicate (2 * level) ' ')

mutual

/-- The value laid out over lines, its own brackets standing at `level`. -/
def prettyAt (level : Nat) : Json → String
  | .arr [] => "[]"
  | .arr elements => prettyElements (level + 1) "[" elements ++ lineBreak level ++ "]"
  | .obj [] => "\x7b\x7d"
  | .obj members => prettyMembers (level + 1) "\x7b" members ++ lineBreak level ++ "\x7d"
  | .null => "null"
  | .bool b => if b then "true" else "false"
  | .int n => toString n
  | .decimal d => decimalText d
  | .str s => quote s
  | .brokenStr => "\"\\ud800\""
  | .brokenObj => "\x7b\"\\ud800\": null\x7d"

/-- The text so far, with the elements behind it, each on a line of its own. -/
def prettyElements (level : Nat) (written : String) : List Json → String
  | [] => written
  | [j] => written ++ lineBreak level ++ prettyAt level j
  | j :: rest =>
    prettyElements level (written ++ lineBreak level ++ prettyAt level j ++ ",") rest

/-- The text so far, with the members behind it, each on a line of its own. -/
def prettyMembers (level : Nat) (written : String) : List (String × Json) → String
  | [] => written
  | [(k, j)] => written ++ lineBreak level ++ quote k ++ ": " ++ prettyAt level j
  | (k, j) :: rest =>
    prettyMembers level (written ++ lineBreak level ++ quote k ++ ": " ++ prettyAt level j ++ ",")
      rest

end

/-- The value laid out over lines. -/
def pretty (j : Json) : String := prettyAt 0 j

end Codegen6502.Json
