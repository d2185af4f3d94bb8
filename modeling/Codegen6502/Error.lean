/-!
# Compilation errors

Every way in which a compilation can fail.  The message of an error names the function, symbol or
target at fault.

Sums and differences of machine words are checked: where the result is no word, the compiler ends
with `overflow`, whatever else there is to report.
-/

namespace Codegen6502

inductive CompileError where
  | unknownTarget (name : String) (valid : List String)
  | unsupportedOperation (function node target : String)
  | bankOverflow (function bank : String) (size capacity : Nat)
  | invalidConvention (function reason : String)
  | unresolvedSymbol (symbol referencedFrom : String)
  | directCrossBankCall (caller callee : String)
  | crossBankReference (function target : String)
  | constantOutOfRange (function : String) (value : Int64) (type : String)
  | invalidEmissionState (function state action : String)
  | invalidProgram (function problem : String)
  | configuration (problem : String)
  | internal (problem : String)
  /-- An operation on words whose result is no word. -/
  | overflow (operation : String)
  deriving DecidableEq

namespace CompileError

def message : CompileError → String
  | .unknownTarget name valid =>
    "Unknown target '" ++ name ++ "' (valid targets: " ++ ", ".intercalate valid ++ ")"
  | .unsupportedOperation function node target =>
    "Unsupported operation in '" ++ function ++ "': no pattern for " ++ node ++ " on target '" ++
      target ++ "'"
  | .bankOverflow function bank size capacity =>
    "Bank overflow: function '" ++ function ++ "' does not fit in bank " ++ bank ++ " (" ++
      toString size ++ " bytes used, capacity " ++ toString capacity ++ ")"
  | .invalidConvention function reason =>
    "Invalid ABI combination for '" ++ function ++ "': " ++ reason
  | .unresolvedSymbol symbol referencedFrom =>
    "Unresolved symbol '" ++ symbol ++ "' (referenced from '" ++ referencedFrom ++ "')"
  | .directCrossBankCall caller callee =>
    "Direct call from '" ++ caller ++ "' to '" ++ callee ++
      "' crosses a bank boundary; it must go through a trampoline"
  | .crossBankReference function target =>
    "'" ++ function ++ "' references " ++ target ++ " in another bank"
  | .constantOutOfRange function value type =>
    "Constant " ++ toString value.toInt ++ " out of range for " ++ type ++ " in '" ++ function ++
      "'"
  | .invalidEmissionState function state action =>
    "Invalid emission order for '" ++ function ++ "': cannot " ++ action ++ " in state " ++ state
  | .invalidProgram function problem => "Invalid IR in '" ++ function ++ "': " ++ problem
  | .configuration problem => "Configuration error: " ++ problem
  | .internal problem => "Internal compiler error: " ++ problem
  | .overflow operation => "attempt to " ++ operation ++ " with overflow"

end CompileError

/-- A computation that may end in a compilation error. -/
abbrev Compile := Except CompileError

/-! ### Checked arithmetic -/

/-- The sum of two words of 16 bits. -/
def addWords (a b : UInt16) : Compile UInt16 :=
  if a.toNat + b.toNat < 0x10000 then .ok (a + b) else .error (.overflow "add")

theorem addWords_eq_ok_iff {a b sum : UInt16} :
    addWords a b = .ok sum ↔ sum.toNat = a.toNat + b.toNat := by
  have hsum := sum.toNat_lt
  unfold addWords
  split
  · rw [Except.ok.injEq, ← UInt16.toNat_inj, UInt16.toNat_add]
    omega
  · exact ⟨(nomatch ·), fun h => by omega⟩

theorem addWords_eq_error_iff {a b : UInt16} {e : CompileError} :
    addWords a b = .error e ↔ e = .overflow "add" ∧ 0x10000 ≤ a.toNat + b.toNat := by
  unfold addWords
  split
  · exact ⟨(nomatch ·), fun h => by omega⟩
  · rw [Except.error.injEq, eq_comm]
    exact ⟨fun h => ⟨h, by omega⟩, And.left⟩

/-- The sum of two words of 32 bits. -/
def addLongs (a b : UInt32) : Compile UInt32 :=
  if a.toNat + b.toNat < 0x100000000 then .ok (a + b) else .error (.overflow "add")

/-- The difference of two words of 32 bits. -/
def subtractLongs (a b : UInt32) : Compile UInt32 :=
  if b ≤ a then .ok (a - b) else .error (.overflow "subtract")

theorem addLongs_of_lt {a b : UInt32} (h : a.toNat + b.toNat < 0x100000000) :
    addLongs a b = .ok (a + b) := if_pos h

theorem subtractLongs_of_le {a b : UInt32} (h : b ≤ a) : subtractLongs a b = .ok (a - b) :=
  if_pos h

end Codegen6502
