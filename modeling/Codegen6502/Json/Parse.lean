import Codegen6502.Json.Token

/-!
# Reading JSON

The tokens of a text are read by a stack machine, again one token at a time, so that reading the
tokens of a value in front of more tokens hands the value to the container around it.
-/

namespace Codegen6502.Json

/-- A member of an object.  Its key may stand for no text. -/
abbrev Member := Option String × Json

/-- The object with the given members. -/
def ofMembers (members : List Member) : Json :=
  match members.mapM fun m => m.1.map fun key => (key, m.2) with
  | some members => .obj members
  | none => .brokenObj

/-- A container that is still open; finished parts are kept last first. -/
inductive Open where
  | array (done : List Json)
  | object (done : List Member)
  /-- An object in which the value of `key` is under way. -/
  | member (done : List Member) (key : Option String)

/-- What may come next. -/
inductive Expect where
  | value
  | valueOrClose
  | keyOrClose
  | key
  | colon
  | separator

inductive Reader where
  | reading (stack : List Open) (expect : Expect)
  | finished (value : Json)

namespace Reader

def start : Reader := .reading [] .value

/-- Hands a complete value to the container around it. -/
def deliver (value : Json) : List Open → Option Reader
  | [] => some (.finished value)
  | .array done :: rest => some (.reading (.array (value :: done) :: rest) .separator)
  | .member done key :: rest => some (.reading (.object ((key, value) :: done) :: rest) .separator)
  | .object _ :: _ => none

/-- The first token of a value. -/
def stepValue (stack : List Open) : Token → Option Reader
  | .null => deliver .null stack
  | .bool b => deliver (.bool b) stack
  | .int n => deliver (.int n) stack
  | .decimal d => deliver (.decimal d) stack
  | .str s => deliver (.str s) stack
  | .brokenStr => deliver .brokenStr stack
  | .openArr => some (.reading (.array [] :: stack) .valueOrClose)
  | .openObj => some (.reading (.object [] :: stack) .keyOrClose)
  | _ => none

/-- Closes the innermost container. -/
def close : List Open → Token → Option Reader
  | .array done :: rest, .closeArr => deliver (.arr done.reverse) rest
  | .object done :: rest, .closeObj => deliver (ofMembers done.reverse) rest
  | _, _ => none

/-- The key of the next member. -/
def stepKey : List Open → Token → Option Reader
  | .object done :: rest, .str key => some (.reading (.member done (some key) :: rest) .colon)
  | .object done :: rest, .brokenStr => some (.reading (.member done none :: rest) .colon)
  | _, _ => none

def step : Reader → Token → Option Reader
  | .finished _, _ => none
  | .reading stack expect, t =>
    match expect with
    | .value => stepValue stack t
    | .valueOrClose => match t with
      | .closeArr => close stack t
      | _ => stepValue stack t
    | .keyOrClose => match t with
      | .closeObj => close stack t
      | _ => stepKey stack t
    | .key => stepKey stack t
    | .colon => match t with
      | .colon => some (.reading stack .value)
      | _ => none
    | .separator => match t, stack with
      | .comma, .array _ :: _ => some (.reading stack .value)
      | .comma, .object _ :: _ => some (.reading stack .key)
      | _, _ => close stack t

end Reader

/-- The value that a list of tokens stands for. -/
def ofTokens? (tokens : List Token) : Option Json :=
  match tokens.foldlM Reader.step Reader.start with
  | some (.finished value) => some value
  | _ => none

/-- The value that a text stands for: exactly one value, with blanks around its tokens. -/
def parse? (text : String) : Option Json :=
  (tokens? text).bind ofTokens?

end Codegen6502.Json
