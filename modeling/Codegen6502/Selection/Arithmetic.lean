import Codegen6502.Selection.Context
import Codegen6502.Total

/-!
# Moves, arithmetic, shifts and bit-fields

Operations on words go byte by byte, the carry rippling upwards.  Where several sequences do the
job, the cheapest is taken.
-/

namespace Codegen6502.Selection

/-! ### Moves -/

def lowerCopy (node : Node) (result : Temp) (value : Value) (type : ValueType) : Lower Unit := do
  checkScalar type node
  if value ≠ .temp result then
    commitOnly do
      let src ← valueBytes value type
      copyBytes src (← destination result)

/-- Writes a value to a place. -/
def storeInto (node : Node) (value : Value) (dest : Place) (type : ValueType) : Lower Unit := do
  checkScalar type node
  let src ← valueBytes value type
  copyBytes src (← placeBytes dest type.size.toNat)

def lowerStore (node : Node) (value : Value) (dest : Place) (type : ValueType) : Lower Unit :=
  commitOnly (storeInto node value dest type)

/-! ### Constant folding -/

/-- Why two constants cannot be combined. -/
inductive FoldError where
  | negativeShift (count : Int64)
  | divisionByZero
  deriving DecidableEq

def FoldError.message : FoldError → String
  | .negativeShift count => "negative shift count " ++ toString count.toInt
  | .divisionByZero => "division by zero in a constant expression"

/-- The result of an operation on two constants, wrapped to the type. -/
def fold (op : BinaryOp) (lhs rhs : Int64) (type : ValueType) : Except FoldError Int64 :=
  let bits : Int64 := Int64.ofNat (bitsOf type)
  let l := wrap lhs type
  let r := wrap rhs type
  let exact : Except FoldError Int64 :=
    match op with
    | .add => .ok (l + r)
    | .sub => .ok (l - r)
    | .mul => .ok (l * r)
    | .div => if r = 0 then .error .divisionByZero else .ok (l / r)
    | .mod => if r = 0 then .error .divisionByZero else .ok (l % r)
    | .and => .ok (l &&& r)
    | .or => .ok (l ||| r)
    | .xor => .ok (l ^^^ r)
    | .shl =>
      if rhs < 0 then .error (.negativeShift rhs)
      else if rhs ≥ bits then .ok 0
      else .ok (l <<< rhs)
    | .shr =>
      if rhs < 0 then .error (.negativeShift rhs)
      else if rhs ≥ bits && !type.isSigned then .ok 0
      else .ok (l >>> (if rhs ≤ bits - 1 then rhs else bits - 1))
  exact.map fun value => wrap value type

/-! ### Byte-wise operations -/

/-- Whether a byte is read through a pointer that a destination overwrites. -/
def readsThrough (dst : List ByteLoc) : ByteLoc → Bool
  | .indirect (lo, hi) _ => dst.contains (.vreg lo) || dst.contains (.vreg hi)
  | .direct _ => false

/-- Combines bytes one after the other. -/
def computeBytes (opcode : Opcode) : List ByteLoc → List ByteLoc → List ByteLoc → Lower Unit
  | dst :: dsts, l :: ls, r :: rs => do
    loadA l
    compute opcode r
    storeA dst
    computeBytes opcode dsts ls rs
  | _, _, _ => pure ()

/-- Gives `result` the outcome of `lhs op rhs`. -/
def byteWise (op : BinaryOp) (lhs rhs : Value) (type : ValueType) (result : Temp) : Lower Unit := do
  let dst ← destination result
  let lb ← valueBytes lhs type
  let rb ← operandBytes rhs type
  let lb ← if lb.any (readsThrough dst) then lb.mapM materialize else pure lb
  let opcode : Opcode ←
    match op with
    | .add => do
      bare .clc
      pure .adc
    | .sub => do
      bare .sec
      pure .sbc
    | .and => pure .and
    | .or => pure .ora
    | .xor => pure .eor
    | _ => invalid (op.text ++ " is not a byte-wise operation")
  computeBytes opcode dst lb rb

/-! ### Steps by one -/

/-- The operand of a byte that is not behind a pointer. -/
def directOperand : ByteLoc → Lower Operand
  | .direct operand => pure operand
  | .indirect .. => internal "step through a pointer"

/-- Increments or decrements bytes in place. -/
def stepBytes (up : Bool) (bytes : List ByteLoc) : Lower Unit := do
  match ← bytes.mapM directOperand with
  | [byte] => op (if up then .inc else .dec) byte
  | [lo, hi] =>
    let skip ← newLabel
    if up then
      op .inc lo
      branch .bne skip
      op .inc hi
      label skip
    else
      op .lda lo
      branch .bne skip
      op .dec hi
      label skip
      op .dec lo
  | _ => internal "step of unexpected width"

/-- Whether the operation is `target + 1`, `1 + target` or `target - 1`. -/
def isUnitStep (op : BinaryOp) (lhs rhs target : Value) : Bool :=
  match op with
  | .add =>
    (lhs = target && rhs.constant? = some 1) || (rhs = target && lhs.constant? = some 1)
  | .sub => lhs = target && rhs.constant? = some 1
  | _ => false

/-- The candidate that steps the result temporary in place. -/
def stepInPlace (result : Temp) (op : BinaryOp) (lhs rhs : Value) (type : ValueType) :
    Lower (List Draft) := do
  if !isUnitStep op lhs rhs (.temp result) then return []
  if (← tempInfo result).type.size ≠ type.size then return []
  return [← candidate do stepBytes (op = .add) (← destination result)]

/-- The number of times that a node reads a temporary. -/
def usesIn (t : Temp) (node : Node) : Nat :=
  let inPlace (p : Place) : Nat := if p.baseTemp? = some t then 1 else 0
  let inValue : Value → Nat
    | .temp u => if u = t then 1 else 0
    | .memory p => inPlace p
    | .constant _ => 0
  let inOption : Option Value → Nat
    | some v => inValue v
    | none => 0
  match node with
  | .copy _ value _ => inValue value
  | .binary _ _ lhs rhs _ | .branch _ lhs rhs .. => inValue lhs + inValue rhs
  | .store value dest _ | .storeField value dest _ => inValue value + inPlace dest
  | .call _ _ args _ buffer =>
    totalOf (fun a => inValue a.value) args + (match buffer with
      | some place => inPlace place
      | none => 0)
  | .asmCall _ a x y .. => inOption a + inOption x + inOption y
  | .ret value => inOption value
  | .setJmp _ buffer => inPlace buffer
  | .longJmp buffer value => inPlace buffer + inValue value
  | .vaArg _ cursor _ => if cursor = t then 1 else 0
  | .loadField _ src _ => inPlace src
  | .jump _ | .label _ | .vaStart _ | .vaCount _ => 0

/-- The number of times that a function reads a temporary. -/
def usesOf (f : FunctionDef) (t : Temp) : Nat := totalOf (usesIn t) f.body

/-- The candidate that steps memory in place, for an operation whose result is only stored back. -/
def fusedStep (result : Temp) (op : BinaryOp) (lhs rhs : Value) (type : ValueType) (stored : Temp)
    (dest : Place) (storeType : ValueType) : Lower (Option Draft) := do
  if stored ≠ result || storeType ≠ type || usesOf (← read).function result ≠ 1 then return none
  if !isUnitStep op lhs rhs (.memory dest) then return none
  let bytes ← placeBytes dest type.size.toNat
  if bytes.any ByteLoc.isIndirect then return none
  return some (← candidate (stepBytes (op = .add) bytes))

/-- The candidates for a byte-wise operation by itself. -/
def byteWiseCandidates (generic : Draft) (result : Temp) (op : BinaryOp) (lhs rhs : Value)
    (type : ValueType) : Lower (List Draft) := do
  let swapped ←
    if op.isCommutative then pure [← candidate (byteWise op rhs lhs type result)] else pure []
  let stepped ← stepInPlace result op lhs rhs type
  return generic :: (swapped ++ stepped)

/-- Lowers a byte-wise operation, together with the store that follows it if the two are a step of
memory in place.  Tells whether the store was taken along. -/
def lowerByteWise (result : Temp) (op : BinaryOp) (lhs rhs : Value) (type : ValueType)
    (next : Option Node) : Lower Bool := do
  let generic ← candidate (byteWise op lhs rhs type result)
  let alone : Lower Bool := do
    commitCheapest (← byteWiseCandidates generic result op lhs rhs type)
    return false
  match next with
  | some (.store (.temp stored) dest storeType) =>
    match ← fusedStep result op lhs rhs type stored dest storeType with
    | some step =>
      let store := Node.store (.temp stored) dest storeType
      let stored ← continueCandidate generic (storeInto store (.temp result) dest type)
      commitCheapest [stored, step]
      return true
    | none => alone
  | _ => alone
where
  /-- Goes on building a candidate. -/
  continueCandidate (d : Draft) (build : Lower Unit) : Lower Draft := do
    let s ← get
    set { s with draft := d }
    build
    let t ← get
    set { t with draft := s.draft }
    return t.draft

/-! ### Shifts -/

/-- Shifts the accumulator by one bit. -/
def shiftA (left arithmetic : Bool) : Lower Unit := do
  if arithmetic then
    op .cmp (.byte 0x80)
    bare .ror
  else bare (if left then .asl else .lsr)

/-- Shifts a word in place by one bit. -/
def shiftPair (left arithmetic : Bool) (lo hi : Operand) : Lower Unit := do
  if left then
    op .asl lo
    op .rol hi
  else if arithmetic then
    op .lda hi
    op .cmp (.byte 0x80)
    bare .ror
    op .sta hi
    op .ror lo
  else
    op .lsr hi
    op .ror lo

/-- The candidates for a shift of a byte by `k` bits. -/
def shiftByte (result : Temp) (lhs : Value) (type : ValueType) (left arithmetic : Bool) (k : Nat)
    (dst : ByteLoc) : Lower (List Draft) := do
  let inA ← candidate do
    match ← valueBytes lhs type with
    | src :: _ =>
      loadA src
      times k (shiftA left arithmetic)
      storeA dst
    | [] => internal "value without bytes"
  if lhs = .temp result && !arithmetic then
    let inPlace ← candidate do
      match dst with
      | .direct byte => times k (op (if left then .asl else .lsr) byte)
      | .indirect .. => pure ()
    return [inA, inPlace]
  else return [inA]

/-- The candidate for a shift of a word by `k` bits.  A shift by a byte or more moves a whole byte
first, unless the sign has to be kept. -/
def shiftWord (lhs : Value) (type : ValueType) (left arithmetic : Bool) (k : Nat)
    (dstLo dstHi : ByteLoc) : Lower Draft :=
  candidate do
    match ← valueBytes lhs type with
    | [lo, hi] =>
      if k ≥ 8 && !arithmetic then
        loadA (if left then lo else hi)
        times (k - 8) (shiftA left false)
        storeA (if left then dstHi else dstLo)
        loadA (.byte 0)
        storeA (if left then dstLo else dstHi)
      else
        copyBytes [lo, hi] [dstLo, dstHi]
        match dstLo, dstHi with
        | .direct lo, .direct hi => times k (shiftPair left arithmetic lo hi)
        | _, _ => internal "shift destination is not direct"
    | _ => internal "value of unexpected width"

def lowerShift (node : Node) (result : Temp) (op : BinaryOp) (lhs rhs : Value) (type : ValueType) :
    Lower Unit := do
  let some count := rhs.constant? | unsupported node
  if count < 0 then invalid (FoldError.message (.negativeShift count))
  let bits : Int64 := Int64.ofNat (bitsOf type)
  let arithmetic := op = .shr && type.isSigned
  let count := if arithmetic && count > bits - 1 then bits - 1 else count
  let dst ← destination result
  if count ≥ bits then
    commitOnly (copyBytes (dst.map fun _ => .byte 0) dst)
  else
    let k := count.toInt.toNat
    let left := op = .shl
    match dst with
    | [byte] => commitCheapest (← shiftByte result lhs type left arithmetic k byte)
    | [lo, hi] => commitCheapest [← shiftWord lhs type left arithmetic k lo hi]
    | _ => internal "shift of unexpected width"

/-- Lowers a binary operation.  Tells whether the next node was taken along. -/
def lowerBinary (node : Node) (result : Temp) (op : BinaryOp) (lhs rhs : Value) (type : ValueType)
    (next : Option Node) : Lower Bool := do
  checkScalar type node
  match lhs.constant?, rhs.constant? with
  | some l, some r =>
    checkConstant l type
    checkConstant r type
    match fold op l r type with
    | .ok folded =>
      let dst ← destination result
      commitOnly (copyBytes (constBytes folded dst.length) dst)
      return false
    | .error e => invalid e.message
  | _, _ =>
    match op with
    | .mul | .div | .mod => unsupported node
    | .shl | .shr =>
      lowerShift node result op lhs rhs type
      return false
    | .add | .sub | .and | .or | .xor => lowerByteWise result op lhs rhs type next

/-! ### Bit-fields -/

def fieldText (f : BitField) : String :=
  s!"BitField \x7b byte_offset: {f.byteOffset.toNat}, bit_offset: {f.bitOffset.toNat}, " ++
    s!"width: {f.width.toNat} \x7d"

/-- Refuses an empty field and one that reaches past its byte. -/
def checkField (node : Node) (f : BitField) : Lower Unit := do
  if f.width = 0 || f.bitOffset.toNat + f.width.toNat > 8 then
    invalid ("bit-field " ++ fieldText f ++ " does not fit in one byte (" ++ node.text ++ ")")

def lowerLoadField (node : Node) (result : Temp) (src : Place) (f : BitField) : Lower Unit := do
  checkField node f
  commitOnly do
    let byte ← placeLoc (src.displaced f.byteOffset)
    match ← destination result with
    | dst :: _ =>
      loadA byte
      times f.bitOffset.toNat (bare .lsr)
      if f.bitOffset.toNat + f.width.toNat < 8 then op .and (.byte f.mask)
      storeA dst
    | [] => internal "temporary without registers"

def lowerStoreField (node : Node) (value : Value) (dest : Place) (f : BitField) : Lower Unit := do
  checkField node f
  commitOnly do
    let byte ← placeLoc (dest.displaced f.byteOffset)
    let keep := ~~~f.maskInPlace
    match value.constant? with
    | some c =>
      checkConstant c .u8
      let bits := (constByte c 0 &&& f.mask) <<< f.bitOffset
      loadA byte
      op .and (.byte keep)
      if bits ≠ 0 then op .ora (.byte bits)
      storeA byte
    | none =>
      match ← operandBytes value .u8 with
      | v :: _ =>
        let shifted ← newVReg
        loadA v
        times f.bitOffset.toNat (bare .asl)
        op .and (.byte f.maskInPlace)
        storeA (.vreg shifted)
        loadA byte
        op .and (.byte keep)
        op .ora (.virtual shifted)
        storeA byte
      | [] => internal "value without bytes"

end Codegen6502.Selection
