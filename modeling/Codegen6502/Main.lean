import Codegen6502.CommandLine.Run

/-!
# The program

Runs a command line on the files of the system.
-/

namespace Codegen6502

/-- The reason that a failed operation on a file is reported with: what went wrong and its number in
the operating system. -/
def ioReason : IO.Error → String
  | .alreadyExists _ code details | .interrupted _ code details
  | .noFileOrDirectory _ code details | .invalidArgument _ code details
  | .permissionDenied _ code details | .resourceExhausted _ code details
  | .inappropriateType _ code details | .noSuchThing _ code details
  | .otherError code details | .resourceBusy code details | .resourceVanished code details
  | .unsupportedOperation code details | .hardwareFault code details
  | .unsatisfiedConstraints code details | .illegalOperation code details
  | .protocolError code details | .timeExpired code details =>
    details ++ " (os error " ++ toString code ++ ")"
  | .unexpectedEof => "unexpected end of file"
  | .userError message => message

/-- The files of the system. -/
def systemFiles : FileAccess IO where
  read path := do
    match ← (IO.FS.readFile path).toBaseIO with
    | .ok text => return .ok text
    | .error error => return .error (ioReason error)
  write path bytes := do
    match ← (IO.FS.writeBinFile path ⟨bytes.toArray⟩).toBaseIO with
    | .ok () => return .ok ()
    | .error error => return .error (ioReason error)

end Codegen6502

open Codegen6502 in
def main (args : List String) : IO UInt32 := do
  let outcome ← Command.runArguments systemFiles args
  IO.print outcome.stdout
  IO.eprint outcome.stderr
  return outcome.code
