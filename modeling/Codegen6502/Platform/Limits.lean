import Codegen6502.Json.Decode

/-!
# Numeric limits of the target

The ranges that constants are checked against.  The signed ranges are symmetric by default: the
least signed word is -32767.  The floating-point model is carried along and never computed with.
-/

namespace Codegen6502

structure IntegerLimits where
  charBit : UInt32 := 8
  scharMin : Int64 := -127
  scharMax : Int64 := 127
  ucharMax : UInt64 := 255
  shrtMin : Int64 := -32767
  shrtMax : Int64 := 32767
  ushrtMax : UInt64 := 65535
  intMin : Int64 := -32767
  intMax : Int64 := 32767
  uintMax : UInt64 := 65535
  longMin : Int64 := -2147483647
  longMax : Int64 := 2147483647
  ulongMax : UInt64 := 4294967295
  mbLenMax : UInt32 := 1
  deriving DecidableEq

structure FloatModel where
  rounds : Int32 := 1
  radix : UInt32 := 2
  fltMantDig : UInt32 := 24
  dblMantDig : UInt32 := 53
  fltDig : UInt32 := 6
  dblDig : UInt32 := 15
  fltMinExp : Int32 := -125
  dblMinExp : Int32 := -1021
  fltMin10Exp : Int32 := -37
  dblMin10Exp : Int32 := -307
  fltMaxExp : Int32 := 128
  dblMaxExp : Int32 := 1024
  fltMax10Exp : Int32 := 38
  dblMax10Exp : Int32 := 308
  fltMax : Decimal := ⟨false, 340282347, 30⟩
  dblMax : Decimal := ⟨false, 17976931348623157, 292⟩
  fltEpsilon : Decimal := ⟨false, 119209290, -15⟩
  dblEpsilon : Decimal := ⟨false, 22204460492503131, -32⟩
  fltMin : Decimal := ⟨false, 117549435, -46⟩
  dblMin : Decimal := ⟨false, 22250738585072016, -324⟩
  deriving DecidableEq

structure Limits where
  integers : IntegerLimits := {}
  floats : FloatModel := {}
  deriving DecidableEq

namespace Limits

/-- The range of an unsigned type.  It reaches below zero by half its size, because -1 is a common
spelling of the largest value. -/
def unsignedRange (max : UInt64) : Int64 × Int64 :=
  let hi := max.toInt64
  (-(hi + 1) / 2, hi)

/-- The inclusive range of a type of `bytes` bytes. -/
def range (l : Limits) (bytes : Nat) (signed : Bool) : Int64 × Int64 :=
  match bytes, signed with
  | 1, true => (l.integers.scharMin, l.integers.scharMax)
  | 1, false => unsignedRange l.integers.ucharMax
  | 2, true => (l.integers.intMin, l.integers.intMax)
  | 2, false => unsignedRange l.integers.uintMax
  | 4, true => (l.integers.longMin, l.integers.longMax)
  | _, _ => unsignedRange l.integers.ulongMax

/-- Whether a constant lies in the range of its type. -/
def fits (l : Limits) (value : Int64) (bytes : Nat) (signed : Bool) : Bool :=
  let (lo, hi) := l.range bytes signed
  lo ≤ value && value ≤ hi

end Limits

/-! ### JSON form -/

namespace IntegerLimits

def fieldNames : List String :=
  ["char_bit", "schar_min", "schar_max", "uchar_max", "shrt_min", "shrt_max", "ushrt_max",
    "int_min", "int_max", "uint_max", "long_min", "long_max", "ulong_max", "mb_len_max"]

def ofJson? (j : Json) : Option IntegerLimits := do
  let r ← j.record? fieldNames
  let d : IntegerLimits := {}
  return {
    charBit := ← r.withDefault "char_bit" d.charBit Json.uint32?
    scharMin := ← r.withDefault "schar_min" d.scharMin Json.int64?
    scharMax := ← r.withDefault "schar_max" d.scharMax Json.int64?
    ucharMax := ← r.withDefault "uchar_max" d.ucharMax Json.uint64?
    shrtMin := ← r.withDefault "shrt_min" d.shrtMin Json.int64?
    shrtMax := ← r.withDefault "shrt_max" d.shrtMax Json.int64?
    ushrtMax := ← r.withDefault "ushrt_max" d.ushrtMax Json.uint64?
    intMin := ← r.withDefault "int_min" d.intMin Json.int64?
    intMax := ← r.withDefault "int_max" d.intMax Json.int64?
    uintMax := ← r.withDefault "uint_max" d.uintMax Json.uint64?
    longMin := ← r.withDefault "long_min" d.longMin Json.int64?
    longMax := ← r.withDefault "long_max" d.longMax Json.int64?
    ulongMax := ← r.withDefault "ulong_max" d.ulongMax Json.uint64?
    mbLenMax := ← r.withDefault "mb_len_max" d.mbLenMax Json.uint32? }

def toJson (l : IntegerLimits) : Json :=
  .obj [("char_bit", .ofUInt32 l.charBit),
    ("schar_min", .int l.scharMin.toInt), ("schar_max", .int l.scharMax.toInt),
    ("uchar_max", .int l.ucharMax.toNat),
    ("shrt_min", .int l.shrtMin.toInt), ("shrt_max", .int l.shrtMax.toInt),
    ("ushrt_max", .int l.ushrtMax.toNat),
    ("int_min", .int l.intMin.toInt), ("int_max", .int l.intMax.toInt),
    ("uint_max", .int l.uintMax.toNat),
    ("long_min", .int l.longMin.toInt), ("long_max", .int l.longMax.toInt),
    ("ulong_max", .int l.ulongMax.toNat),
    ("mb_len_max", .ofUInt32 l.mbLenMax)]

end IntegerLimits

namespace FloatModel

def fieldNames : List String :=
  ["rounds", "radix", "flt_mant_dig", "dbl_mant_dig", "flt_dig", "dbl_dig", "flt_min_exp",
    "dbl_min_exp", "flt_min_10_exp", "dbl_min_10_exp", "flt_max_exp", "dbl_max_exp",
    "flt_max_10_exp", "dbl_max_10_exp", "flt_max", "dbl_max", "flt_epsilon", "dbl_epsilon",
    "flt_min", "dbl_min"]

def ofJson? (j : Json) : Option FloatModel := do
  let r ← j.record? fieldNames
  let d : FloatModel := {}
  return {
    rounds := ← r.withDefault "rounds" d.rounds Json.int32?
    radix := ← r.withDefault "radix" d.radix Json.uint32?
    fltMantDig := ← r.withDefault "flt_mant_dig" d.fltMantDig Json.uint32?
    dblMantDig := ← r.withDefault "dbl_mant_dig" d.dblMantDig Json.uint32?
    fltDig := ← r.withDefault "flt_dig" d.fltDig Json.uint32?
    dblDig := ← r.withDefault "dbl_dig" d.dblDig Json.uint32?
    fltMinExp := ← r.withDefault "flt_min_exp" d.fltMinExp Json.int32?
    dblMinExp := ← r.withDefault "dbl_min_exp" d.dblMinExp Json.int32?
    fltMin10Exp := ← r.withDefault "flt_min_10_exp" d.fltMin10Exp Json.int32?
    dblMin10Exp := ← r.withDefault "dbl_min_10_exp" d.dblMin10Exp Json.int32?
    fltMaxExp := ← r.withDefault "flt_max_exp" d.fltMaxExp Json.int32?
    dblMaxExp := ← r.withDefault "dbl_max_exp" d.dblMaxExp Json.int32?
    fltMax10Exp := ← r.withDefault "flt_max_10_exp" d.fltMax10Exp Json.int32?
    dblMax10Exp := ← r.withDefault "dbl_max_10_exp" d.dblMax10Exp Json.int32?
    fltMax := ← r.withDefault "flt_max" d.fltMax Json.decimal?
    dblMax := ← r.withDefault "dbl_max" d.dblMax Json.decimal?
    fltEpsilon := ← r.withDefault "flt_epsilon" d.fltEpsilon Json.decimal?
    dblEpsilon := ← r.withDefault "dbl_epsilon" d.dblEpsilon Json.decimal?
    fltMin := ← r.withDefault "flt_min" d.fltMin Json.decimal?
    dblMin := ← r.withDefault "dbl_min" d.dblMin Json.decimal? }

end FloatModel

def Limits.ofJson? (j : Json) : Option Limits := do
  let r ← j.record? ["integers", "floats"]
  return {
    integers := ← r.withDefault "integers" {} IntegerLimits.ofJson?
    floats := ← r.withDefault "floats" {} FloatModel.ofJson? }

end Codegen6502
