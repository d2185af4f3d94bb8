import Codegen6502.Convention.Entry
import Codegen6502.Emission.Basic

/-!
# Writing functions

A function is written in three steps: its entry sequence, its body, its exit sequence.  Both
sequences are made from the same frame size and saved set, and what the one pushes the other must
release.
-/

namespace Codegen6502

/-- How far a function has been written. -/
inductive WritingStage where
  | unstarted
  | entered
  | bodyWritten
  | left
  deriving DecidableEq

def WritingStage.text : WritingStage → String
  | .unstarted => "Unstarted"
  | .entered => "PrologueEmitted"
  | .bodyWritten => "BodyEmitted"
  | .left => "EpilogueEmitted"

structure FunctionWriter where
  binding : Binding
  stage : WritingStage := .unstarted
  frameBytes : UInt8 := 0
  saves : Clobbers := {}
  /-- What the entry sequence has pushed or reserved. -/
  pushed : Int := 0

/-- What an emission has to know of a bound function. -/
def Binding.header (b : Binding) : FunctionHeader :=
  { name := b.name
    declaredBank := b.bank
    placement := b.placement
    visible := b.visible
    entry := b.entry }

namespace FunctionWriter

/-- Refuses a step that is not the next one. -/
def expect (w : FunctionWriter) (stage : WritingStage) (action : String) : Compile Unit :=
  if w.stage = stage then .ok ()
  else .error (.invalidEmissionState w.binding.name w.stage.text action)

/-- Writes the entry sequence. -/
def enter (w : FunctionWriter) (frameBytes : UInt8) (saves : Clobbers) : Emit FunctionWriter := do
  MonadExcept.ofExcept (w.expect .unstarted "emit the prologue")
  let sequence := Convention.prologue w.binding frameBytes saves
  Emission.beginFunction w.binding.header sequence.code
  return { w with stage := .entered, frameBytes, saves, pushed := sequence.stackEffect }

/-- Writes the body. -/
def body (w : FunctionWriter) (code : List Line) : Emit FunctionWriter := do
  MonadExcept.ofExcept (w.expect .entered "emit the body")
  Emission.pushAll code
  return { w with stage := .bodyWritten }

/-- Writes the exit sequence. -/
def leave (w : FunctionWriter) : Emit FunctionWriter := do
  MonadExcept.ofExcept (w.expect .bodyWritten "emit the epilogue")
  let sequence := Convention.epilogue w.binding w.frameBytes w.saves
  if w.pushed + sequence.stackEffect ≠ 0 then
    let released := -sequence.stackEffect
    throw (.internal
      s!"'{w.binding.name}': prologue pushes {w.pushed} bytes but epilogue releases {released}")
  Emission.endFunction sequence.code
  return { w with stage := .left }

/-- Ends the writing. -/
def finish (w : FunctionWriter) : Compile Unit := w.expect .left "finish"

end FunctionWriter

/-- Writes a whole function. -/
def writeFunction (b : Binding) (frameBytes : UInt8) (saves : Clobbers) (code : List Line) :
    Emit Unit := do
  let w ← ({ binding := b } : FunctionWriter).enter frameBytes saves
  let w ← w.body code
  let w ← w.leave
  MonadExcept.ofExcept w.finish

end Codegen6502
