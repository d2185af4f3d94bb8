import Codegen6502.Json.Value

/-!
# Reading typed data off JSON values

Numbers must be written as plain integers within the range of their type.  A case of a sum type is
a string (the case alone) or an object with one member (the case and its data).  A record is an
object, whose unknown members are ignored and whose known members occur once, or an array of the
fields in order.
-/

namespace Codegen6502.Json

/-! ### Scalars -/

def bool? : Json → Option Bool
  | .bool b => some b
  | _ => none

def string? : Json → Option String
  | .str s => some s
  | _ => none

/-- An integer between two bounds, both included. -/
def intBetween? (lo hi : Int) : Json → Option Int
  | .int n => if lo ≤ n ∧ n ≤ hi then some n else none
  | _ => none

def uint8? (j : Json) : Option UInt8 := (j.intBetween? 0 0xFF).map fun n => UInt8.ofNat n.toNat
def uint16? (j : Json) : Option UInt16 :=
  (j.intBetween? 0 0xFFFF).map fun n => UInt16.ofNat n.toNat
def uint32? (j : Json) : Option UInt32 :=
  (j.intBetween? 0 0xFFFFFFFF).map fun n => UInt32.ofNat n.toNat
def uint64? (j : Json) : Option UInt64 :=
  (j.intBetween? 0 0xFFFFFFFFFFFFFFFF).map fun n => UInt64.ofNat n.toNat
def int32? (j : Json) : Option Int32 :=
  (j.intBetween? (-0x80000000) 0x7FFFFFFF).map Int32.ofInt
def int64? (j : Json) : Option Int64 :=
  (j.intBetween? (-0x8000000000000000) 0x7FFFFFFFFFFFFFFF).map Int64.ofInt

/-- A number with a finite double-precision value. -/
def decimal? : Json → Option Decimal
  | .int n => if (Decimal.ofInt n).isFinite then some (Decimal.ofInt n) else none
  | .decimal d => if d.isFinite then some d else none
  | _ => none

/-! ### Lists and absent values -/

def list? (read : Json → Option α) : Json → Option (List α)
  | .arr elements => elements.mapM read
  | _ => none

/-- A value that may be `null`. -/
def nullable? (read : Json → Option α) : Json → Option (Option α)
  | .null => some none
  | j => (read j).map some

/-! ### Cases -/

/-- The name of a case and the data written with it, if any. -/
structure Case where
  tag : String
  data : Option Json

def case? : Json → Option Case
  | .str tag => some ⟨tag, none⟩
  | .obj [(tag, data)] => some ⟨tag, some data⟩
  | _ => none

namespace Case

/-- A case without data. -/
def bare (c : Case) (value : α) : Option α :=
  match c.data with
  | none => some value
  | some .null => some value
  | some _ => none

/-- A case with data. -/
def carrying (c : Case) (read : Json → Option α) : Option α :=
  c.data.bind read

end Case

/-! ### Records -/

/-- The fields of a record that are present. -/
structure Record where
  positional : Bool
  fields : List (String × Json)

/-- The record with the given field names. -/
def record? (names : List String) : Json → Option Record
  | .obj members =>
    let known := members.filter fun m => names.contains m.1
    if (known.map (·.1)).Nodup then some ⟨false, known⟩ else none
  | .arr elements =>
    if elements.length ≤ names.length then some ⟨true, names.zip elements⟩ else none
  | _ => none

namespace Record

def get? (r : Record) (name : String) : Option Json := r.fields.lookup name

/-- A field that must be present. -/
def required (r : Record) (name : String) (read : Json → Option α) : Option α :=
  (r.get? name).bind read

/-- A field that may be absent or `null`; in an array its place must be filled. -/
def optional (r : Record) (name : String) (read : Json → Option α) : Option (Option α) :=
  match r.get? name with
  | some j => nullable? read j
  | none => if r.positional then none else some none

/-- A field with a value of its own when absent. -/
def withDefault (r : Record) (name : String) (default : α) (read : Json → Option α) : Option α :=
  match r.get? name with
  | some j => read j
  | none => some default

end Record

/-! ### Writing -/

def ofUInt8 (b : UInt8) : Json := .int b.toNat
def ofUInt16 (w : UInt16) : Json := .int w.toNat
def ofUInt32 (n : UInt32) : Json := .int n.toNat
def ofNat (n : Nat) : Json := .int n

def ofOption (write : α → Json) : Option α → Json
  | none => .null
  | some a => write a

def ofList (write : α → Json) (as : List α) : Json := .arr (as.map write)

def ofBytes (bytes : List UInt8) : Json := ofList ofUInt8 bytes

/-- A case with its data. -/
def tagged (tag : String) (data : Json) : Json := .obj [(tag, data)]

end Codegen6502.Json
