import Codegen6502.CommandLine.Arguments
import Codegen6502.CommandLine.Path
import Codegen6502.Compile

/-!
# Running commands

A command reads and writes files, prints, and ends with an exit code.  How files are read and
written is a parameter, so that commands can be run on the files of a system or on any model of
them.
-/

namespace Codegen6502

/-- Access to files.  A failure comes with its reason. -/
structure FileAccess (m : Type → Type) where
  read : String → m (Except String String)
  write : String → List UInt8 → m (Except String Unit)

/-- What a run prints and its exit code. -/
structure Outcome where
  code : UInt32
  stdout : String := ""
  stderr : String := ""

/-- Why a compilation of a file fails, and the exit code for it. -/
structure Failure where
  message : String
  cause : Option String := none
  code : UInt32 := 1

/-- The failure by a compilation error.  An overflow ends the program itself. -/
def Failure.ofError (error : CompileError) (failure : Failure) : Failure :=
  match error with
  | .overflow _ => { message := error.message, code := 101 }
  | _ => failure

def Failure.text (f : Failure) : String :=
  "Error: " ++ f.message ++ "\n" ++
    match f.cause with
    | some cause => "\nCaused by:\n    " ++ cause ++ "\n"
    | none => ""

namespace Command

/-! ### Texts -/

def versionText : String := "m65c 0.1.0\n"

def helpLines : HelpTopic → List String
  | .program =>
    ["M65 6502 Compiler", "", "Usage: m65c <COMMAND>", "", "Commands:",
      "  compile  Compile a JSON IR module",
      "  targets  List the valid target names",
      "  help     Print this message or the help of the given subcommand(s)", "",
      "Options:",
      "  -h, --help     Print help",
      "  -V, --version  Print version"]
  | .compile =>
    ["Compile a JSON IR module", "", "Usage: m65c compile [OPTIONS] <INPUT>", "", "Arguments:",
      "  <INPUT>  Input IR module (JSON)", "",
      "Options:",
      "  -t, --target <TARGET>    Backend interface to emit for [default: symbolic]",
      "      --options <OPTIONS>  Code generation options (JSON); missing fields take defaults",
      "  -o, --output <OUTPUT>    Output file; defaults to the input with a target extension",
      "      --xex                Write the mos6502 image as an Atari binary-load file instead of JSON",
      "  -h, --help               Print help"]
  | .targets =>
    ["List the valid target names", "", "Usage: m65c targets", "", "Options:",
      "  -h, --help  Print help"]
  | .help =>
    ["Print this message or the help of the given subcommand(s)", "",
      "Usage: m65c help [COMMAND]...", "", "Arguments:",
      "  [COMMAND]...  Print help for the subcommand(s)"]

def helpText (topic : HelpTopic) : String := Listing.joinLines (helpLines topic)

/-! ### Files -/

/-- The extension of a file with an artifact. -/
def extension (a : Artifact) (binaryLoad : Bool) : String :=
  match a with
  | .listing _ => "asm"
  | .container _ => "m65b"
  | .nothing => "stats.json"
  | .image _ => if binaryLoad then "xex" else "image.json"

def utf8 (text : String) : List UInt8 := text.toUTF8.data.toList

/-- The contents of the file with the output. -/
def contents (o : Output) (binaryLoad : Bool) : Compile (List UInt8) :=
  match o.artifact with
  | .listing text => .ok (utf8 text)
  | .container bytes => .ok bytes
  | .nothing => .ok (utf8 o.statistics.toJson.pretty)
  | .image image => if binaryLoad then image.binaryLoad else .ok (utf8 image.toJson.pretty)

/-- The contents of the file with the relocations. -/
def relocationContents (o : Output) : List UInt8 :=
  utf8 (Json.ofList Relocation.toJson o.relocations).pretty

/-! ### Compiling a file -/

section

variable {m : Type → Type} [Monad m]

/-- What the computation gives; a failure is explained by a message and keeps its reason as the
cause. -/
def explain (message : String) (action : m (Except String α)) : ExceptT Failure m α := do
  match ← action with
  | .ok a => return a
  | .error reason => throw { message, cause := reason }

def readOptions (files : FileAccess m) : Option String → ExceptT Failure m Options
  | none => return {}
  | some path => do
    let text ← explain ("reading options " ++ path) (files.read path)
    let some options := Options.parse? text
      | throw { message := (CompileError.configuration "the options are not readable").message }
    match options.validate with
    | .ok () => return options
    | .error e => throw { message := e.message }

/-- Compiles the program in the input file. -/
def compileInput (files : FileAccess m) (r : CompileRequest) : ExceptT Failure m Output := do
  let options ← readOptions files r.options
  let text ← explain ("reading " ++ r.input) (files.read r.input)
  let some program := Program.parse? text
    | throw { message := "parsing IR module " ++ r.input }
  match Codegen6502.compile r.target options program with
  | .ok output => return output
  | .error e =>
    throw (.ofError e
      { message := "compiling '" ++ program.name ++ "' for " ++ r.target, cause := e.message })

/-- Writes the output next to its relocations and gives the name of its file. -/
def writeOutput (files : FileAccess m) (r : CompileRequest) (o : Output) :
    ExceptT Failure m String := do
  let path := r.output.getD (Path.withExtension r.input (extension o.artifact r.binaryLoad))
  match contents o r.binaryLoad with
  | .error e => throw (.ofError e { message := e.message })
  | .ok bytes =>
    match ← files.write path bytes with
    | .error reason => throw { message := reason }
    | .ok () =>
      let relocations := path ++ ".reloc.json"
      explain ("writing " ++ relocations) (files.write relocations (relocationContents o))
      return path

/-! ### Commands -/

def runCompile (files : FileAccess m) (r : CompileRequest) : m Outcome := do
  let result ← (do writeOutput files r (← compileInput files r) : ExceptT Failure m String).run
  match result with
  | .ok path => return { code := 0, stdout := "Output written to: " ++ path ++ "\n" }
  | .error failure => return { code := failure.code, stderr := failure.text }

def run (files : FileAccess m) : Command → m Outcome
  | .compile request => runCompile files request
  | .targets => return { code := 0, stdout := Listing.joinLines (Target.all.map Target.name) }
  | .version => return { code := 0, stdout := versionText }
  | .help topic => return { code := 0, stdout := helpText topic }

/-- Runs a command line.  One that is not understood ends with code 2. -/
def runArguments (files : FileAccess m) (args : List String) : m Outcome :=
  match ofArguments? args with
  | some command => command.run files
  | none => return { code := 2, stderr := helpText .program }

end

end Command

end Codegen6502
