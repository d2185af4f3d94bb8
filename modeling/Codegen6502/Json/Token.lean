import Codegen6502.Json.Value
import Codegen6502.Text.Hex

/-!
# JSON tokens

A text is cut into tokens by an automaton that looks at one character at a time (`Lexer.step`), so
that reading a text is a fold and reading a concatenation is reading its parts one after the other.
Words and numbers end at the first character that cannot extend them; whether the collected
characters are a word or a number of the format is decided there.
-/

namespace Codegen6502.Json

inductive Token where
  | openArr | closeArr | openObj | closeObj | comma | colon
  | null
  | bool (value : Bool)
  | int (value : Int)
  | decimal (value : Decimal)
  | str (text : String)
  | brokenStr

/-! ### Numbers -/

/-- The number that a run of digits stands for. -/
def digitsValue (digits : List Char) : Nat :=
  digits.foldl (fun n c => 10 * n + (c.toNat - 48)) 0

/-- The optional exponent: its value and whether it is written at all. -/
def exponent? : List Char → Option (Option Int)
  | [] => some none
  | e :: rest =>
    if e = 'e' ∨ e = 'E' then
      let (negative, digits) : Bool × List Char :=
        match rest with
        | '-' :: r => (true, r)
        | '+' :: r => (false, r)
        | r => (false, r)
      if digits ≠ [] ∧ digits.all Char.isDigit then
        let n : Int := digitsValue digits
        some (some (if negative then -n else n))
      else none
    else none

/-- The number after its sign: a run of digits without a leading zero, then an optional fraction
and an optional exponent. -/
def unsignedNumber? (negative : Bool) (cs : List Char) : Option Token :=
  let whole := cs.takeWhile Char.isDigit
  let rest := cs.dropWhile Char.isDigit
  if whole = [] ∨ (whole.head? = some '0' ∧ whole.length ≠ 1) then none
  else
    let fraction : Option (List Char × List Char) :=
      match rest with
      | '.' :: r =>
        let f := r.takeWhile Char.isDigit
        if f = [] then none else some (f, r.dropWhile Char.isDigit)
      | r => some ([], r)
    match fraction with
    | none => none
    | some (f, r) =>
      match exponent? r with
      | none => none
      | some e =>
        if f = [] ∧ e = none then
          let n := digitsValue whole
          if negative then
            if n = 0 then some (.decimal ⟨true, 0, 0⟩) else some (.int (-(n : Int)))
          else some (.int n)
        else some (.decimal (.ofDigits negative whole f (e.getD 0)))

/-- The number that a run of characters stands for. -/
def number? : List Char → Option Token
  | '-' :: cs => unsignedNumber? true cs
  | cs => unsignedNumber? false cs

/-- The three words of the format. -/
def word? (cs : List Char) : Option Token :=
  if cs = "true".toList then some (.bool true)
  else if cs = "false".toList then some (.bool false)
  else if cs = "null".toList then some .null
  else none

/-! ### Strings -/

/-- A character of a string, or one 16-bit unit given by an escape. -/
inductive Piece where
  | char (c : Char)
  | unit (n : Nat)

/-- Joins surrogate pairs.  An unpaired surrogate has no reading. -/
def joinPieces : List Piece → Option (List Char)
  | [] => some []
  | .char c :: rest => (joinPieces rest).map (c :: ·)
  | .unit n :: rest =>
    if 0xDC00 ≤ n ∧ n < 0xE000 then none
    else if 0xD800 ≤ n ∧ n < 0xDC00 then
      match rest with
      | .unit m :: rest' =>
        if 0xDC00 ≤ m ∧ m < 0xE000 then
          (joinPieces rest').map (Char.ofNat (0x10000 + (n - 0xD800) * 0x400 + (m - 0xDC00)) :: ·)
        else none
      | _ => none
    else (joinPieces rest).map (Char.ofNat n :: ·)

/-- The character that a one-letter escape stands for. -/
def escaped? (c : Char) : Option Char :=
  match c with
  | '"' => some '"'
  | '\\' => some '\\'
  | '/' => some '/'
  | 'b' => some '\x08'
  | 'f' => some '\x0c'
  | 'n' => some '\n'
  | 'r' => some '\r'
  | 't' => some '\t'
  | _ => none

/-- The token of a finished string, whose pieces come last first. -/
def stringToken (rev : List Piece) : Token :=
  match joinPieces rev.reverse with
  | some cs => .str (String.ofList cs)
  | none => .brokenStr

/-! ### The automaton -/

/-- What the automaton is in the middle of.  Collected characters are kept last first. -/
inductive Mode where
  | between
  | word (rev : List Char)
  | number (rev : List Char)
  | text (rev : List Piece)
  | escape (rev : List Piece)
  /-- A four-digit escape with `left` digits missing. -/
  | unicode (rev : List Piece) (value left : Nat)

/-- The tokens read so far, last first, and the token under way. -/
structure Lexer where
  tokens : List Token
  mode : Mode

namespace Lexer

def start : Lexer := ⟨[], .between⟩

def emit (tokens : List Token) (t : Token) : Lexer := ⟨t :: tokens, .between⟩

def isBlank (c : Char) : Bool :=
  c == ' ' || c == '\n' || c == '\t' || c == '\r'

def continuesNumber (c : Char) : Bool :=
  c.isDigit || c == '+' || c == '-' || c == '.' || c == 'e' || c == 'E'

/-- The first character of a token, a blank or a mark. -/
def stepBetween (tokens : List Token) (c : Char) : Option Lexer :=
  if isBlank c then some ⟨tokens, .between⟩
  else match c with
    | '[' => some (emit tokens .openArr)
    | ']' => some (emit tokens .closeArr)
    | '\x7b' => some (emit tokens .openObj)
    | '\x7d' => some (emit tokens .closeObj)
    | ',' => some (emit tokens .comma)
    | ':' => some (emit tokens .colon)
    | '"' => some ⟨tokens, .text []⟩
    | _ =>
      if c.isDigit || c == '-' then some ⟨tokens, .number [c]⟩
      else if c.isLower then some ⟨tokens, .word [c]⟩
      else none

def step (l : Lexer) (c : Char) : Option Lexer :=
  match l.mode with
  | .between => stepBetween l.tokens c
  | .word rev =>
    if c.isLower then some ⟨l.tokens, .word (c :: rev)⟩
    else (word? rev.reverse).bind fun t => stepBetween (t :: l.tokens) c
  | .number rev =>
    if continuesNumber c then some ⟨l.tokens, .number (c :: rev)⟩
    else (number? rev.reverse).bind fun t => stepBetween (t :: l.tokens) c
  | .text rev =>
    if c = '"' then some (emit l.tokens (stringToken rev))
    else if c = '\\' then some ⟨l.tokens, .escape rev⟩
    else if c.toNat < 32 then none
    else some ⟨l.tokens, .text (.char c :: rev)⟩
  | .escape rev =>
    if c = 'u' then some ⟨l.tokens, .unicode rev 0 4⟩
    else (escaped? c).map fun d => ⟨l.tokens, .text (.char d :: rev)⟩
  | .unicode rev value left =>
    (hexValue? c).map fun d =>
      if left ≤ 1 then ⟨l.tokens, .text (.unit (16 * value + d) :: rev)⟩
      else ⟨l.tokens, .unicode rev (16 * value + d) (left - 1)⟩

/-- The tokens of a whole text; the text must not end inside a string. -/
def finish? (l : Lexer) : Option (List Token) :=
  match l.mode with
  | .between => some l.tokens.reverse
  | .word rev => (word? rev.reverse).map fun t => (t :: l.tokens).reverse
  | .number rev => (number? rev.reverse).map fun t => (t :: l.tokens).reverse
  | _ => none

end Lexer

/-- The tokens of a text. -/
def tokens? (text : String) : Option (List Token) :=
  (text.toList.foldlM Lexer.step Lexer.start).bind Lexer.finish?

end Codegen6502.Json
