/-!
# Command lines

What the arguments of the program ask for.  An option takes its value from the next argument or from
its own: `--target null`, `--target=null`, `-t null`, `-tnull` and `-t=null` all say the same.
Options and the input may come in any order, each at most once; after `--` every argument is an
input.
-/

namespace Codegen6502

/-- A file to be compiled. -/
structure CompileRequest where
  input : String
  target : String := "symbolic"
  /-- The file with the options. -/
  options : Option String := none
  output : Option String := none
  /-- Whether an image is written as a binary-load file. -/
  binaryLoad : Bool := false
  deriving DecidableEq

/-- What help is about. -/
inductive HelpTopic where
  | program
  | compile
  | targets
  | help
  deriving DecidableEq

inductive Command where
  | compile (request : CompileRequest)
  | targets
  | version
  | help (topic : HelpTopic)
  deriving DecidableEq

/-- Why reading arguments stops early. -/
inductive Interruption where
  | usage
  | help
  deriving DecidableEq

namespace Command

/-! ### Arguments of a compilation -/

/-- The arguments read so far. -/
structure Partial where
  input : Option String := none
  target : Option String := none
  options : Option String := none
  output : Option String := none
  binaryLoad : Bool := false
  deriving DecidableEq

/-- The options that take a value. -/
inductive ValueOption where
  | target
  | options
  | output
  deriving DecidableEq

def ValueOption.ofLong? : String → Option ValueOption
  | "target" => some .target
  | "options" => some .options
  | "output" => some .output
  | _ => none

def ValueOption.ofShort? : Char → Option ValueOption
  | 't' => some .target
  | 'o' => some .output
  | _ => none

/-- Sets what has not been set.  File names are not empty. -/
def setOnce (current : Option String) (value : String) (isFile : Bool) :
    Except Interruption (Option String) :=
  if current.isSome || (isFile && value.isEmpty) then .error .usage else .ok (some value)

def Partial.set (p : Partial) (option : ValueOption) (value : String) :
    Except Interruption Partial := do
  match option with
  | .target => return { p with target := ← setOnce p.target value false }
  | .options => return { p with options := ← setOnce p.options value true }
  | .output => return { p with output := ← setOnce p.output value true }

def Partial.setInput (p : Partial) (value : String) : Except Interruption Partial := do
  return { p with input := ← setOnce p.input value true }

/-- What an argument is, seen by itself. -/
inductive Argument where
  | input (value : String)
  /-- From here on every argument is an input. -/
  | inputsFollow
  /-- An option with its value. -/
  | valued (option : ValueOption) (value : String)
  /-- An option whose value is the next argument. -/
  | awaiting (option : ValueOption)
  | binaryLoad
  | help
  | unknown
  deriving DecidableEq

/-- Splits at the first `=`. -/
def splitValue (text : List Char) : String × Option String :=
  match text.dropWhile (· ≠ '=') with
  | [] => (String.ofList text, none)
  | _ :: value => (String.ofList (text.takeWhile (· ≠ '=')), some (String.ofList value))

/-- An argument after its two dashes. -/
def Argument.ofLong (text : List Char) : Argument :=
  match splitValue text with
  | ("xex", none) => .binaryLoad
  | ("help", none) => .help
  | (name, value?) =>
    match ValueOption.ofLong? name, value? with
    | some option, some value => .valued option value
    | some option, none => .awaiting option
    | none, _ => .unknown

/-- An argument after its dash. -/
def Argument.ofShort (letter : Char) (rest : List Char) : Argument :=
  if letter = 'h' then .help
  else match ValueOption.ofShort? letter, rest with
    | some option, [] => .awaiting option
    | some option, '=' :: value => .valued option (String.ofList value)
    | some option, value => .valued option (String.ofList value)
    | none, _ => .unknown

def Argument.ofText (text : String) : Argument :=
  match text.toList with
  | ['-', '-'] => .inputsFollow
  | '-' :: '-' :: rest => .ofLong rest
  | '-' :: letter :: rest => .ofShort letter rest
  | _ => .input text

/-- Whether an argument can be the value of the option before it. -/
def isValue (text : String) : Bool :=
  match Argument.ofText text with
  | .input _ => true
  | _ => false

/-- Reads the arguments of a compilation. -/
def readCompile (p : Partial) : List String → Except Interruption Partial
  | [] => .ok p
  | text :: rest =>
    match Argument.ofText text with
    | .input value => do readCompile (← p.setInput value) rest
    | .inputsFollow => rest.foldlM Partial.setInput p
    | .valued option value => do readCompile (← p.set option value) rest
    | .awaiting option =>
      match rest with
      | value :: rest =>
        if isValue value then do readCompile (← p.set option value) rest else .error .usage
      | [] => .error .usage
    | .binaryLoad =>
      if p.binaryLoad then .error .usage else readCompile { p with binaryLoad := true } rest
    | .help => .error .help
    | .unknown => .error .usage

/-- The request that arguments make. -/
def Partial.request? (p : Partial) : Option CompileRequest :=
  p.input.map fun input =>
    { input
      target := p.target.getD "symbolic"
      options := p.options
      output := p.output
      binaryLoad := p.binaryLoad }

/-! ### Whole command lines -/

/-- A command without arguments of its own: only the mark in front of inputs or help can follow. -/
def bare (command : Command) (topic : HelpTopic) : List String → Option Command
  | [] | ["--"] => some command
  | text :: _ => if Argument.ofText text = .help then some (.help topic) else none

/-- The command of a command line; none if it is not understood. -/
def ofArguments? : List String → Option Command
  | "compile" :: rest =>
    match readCompile {} rest with
    | .ok p => p.request?.map .compile
    | .error .help => some (.help .compile)
    | .error .usage => none
  | "targets" :: rest => bare .targets .targets rest
  | ["help"] => some (.help .program)
  | ["help", "compile"] => some (.help .compile)
  | ["help", "targets"] => some (.help .targets)
  | ["help", "help"] => some (.help .help)
  | text :: _ =>
    match text.toList with
    | '-' :: 'V' :: _ => some .version
    | _ =>
      if text = "--version" then some .version
      else if Argument.ofText text = .help then some (.help .program)
      else none
  | [] => none

end Command

end Codegen6502
