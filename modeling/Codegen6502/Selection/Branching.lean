import Codegen6502.Selection.Context

/-!
# Conditional branches

A branch to the label that follows is left out; a branch whose true label follows is inverted.  The
comparison itself has separate forms for constants at the ends of the range, for zero and for the
successor of a constant.
-/

namespace Codegen6502

namespace CompareOp

/-- The comparison that holds exactly when this one does not. -/
def negated : CompareOp → CompareOp
  | .eq => .ne
  | .ne => .eq
  | .lt => .ge
  | .ge => .lt
  | .gt => .le
  | .le => .gt

def holds (op : CompareOp) (l r : Int64) : Bool :=
  match op with
  | .eq => l = r
  | .ne => l ≠ r
  | .lt => l < r
  | .le => l ≤ r
  | .gt => l > r
  | .ge => l ≥ r

end CompareOp

namespace Selection

/-- Jumps to a label node unless it comes next. -/
def jumpTo (target : LabelId) (next : Option Node) : Lower Unit := do
  if next ≠ some (.label target) then
    jmp (Naming.nodeLabel (← read).function.name target)

/-- Goes to the label if the two values are equal, or unequal. -/
def equality (equal : Bool) (lhs rhs : Value) (type : ValueType) (target : String) : Lower Draft :=
  candidate do
    let lb ← valueBytes lhs type
    let rb ← operandBytes rhs type
    match lb, rb with
    | [l], [r] =>
      loadA l
      compute .cmp r
      branch (if equal then .beq else .bne) target
    | [l0, l1], [r0, r1] =>
      if equal then
        let skip ← newLabel
        loadA l0
        compute .cmp r0
        branch .bne skip
        loadA l1
        compute .cmp r1
        branch .beq target
        label skip
      else
        loadA l0
        compute .cmp r0
        branch .bne target
        loadA l1
        compute .cmp r1
        branch .bne target
    | _, _ => internal "comparison of unexpected width"

/-- Goes to the label if the left value is less, or not less, by subtraction.  The sign of a signed
difference is corrected for overflow. -/
def ordering (less : Bool) (lhs rhs : Value) (type : ValueType) (target : String) : Lower Draft :=
  candidate do
    let lb ← valueBytes lhs type
    let rb ← operandBytes rhs type
    if type.isSigned then
      match lb, rb with
      | [l], [r] =>
        loadA l
        bare .sec
        compute .sbc r
      | [l0, l1], [r0, r1] =>
        loadA l0
        compute .cmp r0
        loadA l1
        compute .sbc r1
      | _, _ => internal "comparison of unexpected width"
      let ok ← newLabel
      branch .bvc ok
      op .eor (.byte 0x80)
      label ok
      branch (if less then .bmi else .bpl) target
    else
      match lb, rb with
      | [l], [r] =>
        loadA l
        compute .cmp r
      | [l0, l1], [r0, r1] =>
        loadA l0
        compute .cmp r0
        loadA l1
        compute .sbc r1
      | _, _ => internal "comparison of unexpected width"
      branch (if less then .bcc else .bcs) target

/-- Goes to the label if the value is zero, or not zero. -/
def zeroTest (isZero : Bool) (value : Value) (type : ValueType) (target : String) :
    Lower (List Draft) := do
  let opcode : Opcode := if isZero then .beq else .bne
  -- The bytes are made once; each candidate goes on from there.
  let s ← get
  set { s with draft := s.draft.fork }
  let bytes ← valueBytes value type
  let base := (← get).draft
  let candidates ← build base opcode bytes
  set { (← get) with draft := s.draft }
  return candidates
where
  build (base : Draft) (opcode : Opcode) : List ByteLoc → Lower (List Draft)
    | [byte] => return [(base.test byte).branch opcode target]
    | [lo, hi] => do
      let first ← combine base opcode lo hi
      let second ← combine base opcode hi lo
      return [first, second]
    | _ => internal "comparison of unexpected width"
  /-- Combines the two bytes and branches. -/
  combine (base : Draft) (opcode : Opcode) (first second : ByteLoc) : Lower Draft := do
    let d ← ((base.fork.loadA first).compute .ora second : Compile Draft)
    return base.commit (d.branch opcode target)

/-- Goes to the label if a signed value is negative, or not negative. -/
def signTest (negative : Bool) (value : Value) (type : ValueType) (target : String) :
    Lower Draft :=
  candidate do
    match (← valueBytes value type).getLast? with
    | some top =>
      test top
      branch (if negative then .bmi else .bpl) target
    | none => internal "value without bytes"

/-- Goes to the label if a signed value is positive, or not positive. -/
def positiveTest (positive : Bool) (value : Value) (type : ValueType) (target : String) :
    Lower Draft :=
  candidate do
    let bytes ← valueBytes value type
    match bytes.getLast? with
    | some top =>
      test top
      let skip ← newLabel
      branch .bmi (if positive then skip else target)
      match bytes with
      | [lo, hi] =>
        loadA lo
        compute .ora hi
      | _ => pure ()
      branch (if positive then .bne else .beq) target
      if positive then label skip
    | none => internal "value without bytes"

/-- The candidates for a comparison with zero.  Whether an unsigned value is below zero has been
settled before. -/
def zeroCandidates (op : CompareOp) (value : Value) (type : ValueType) (target : String) :
    Lower (List Draft) := do
  if !type.isSigned then zeroTest (op = .eq || op = .le) value type target
  else match op with
    | .eq => zeroTest true value type target
    | .ne => zeroTest false value type target
    | .lt => return [← signTest true value type target]
    | .ge => return [← signTest false value type target]
    | .gt => return [← positiveTest true value type target]
    | .le => return [← positiveTest false value type target]

/-- The candidates for a comparison of two values as they are. -/
def plainCandidates (op : CompareOp) (lhs rhs : Value) (type : ValueType) (target : String) :
    Lower (List Draft) := do
  match op with
  | .eq | .ne =>
    let straight ← equality (op = .eq) lhs rhs type target
    if rhs.constant?.isNone then
      return [straight, ← equality (op = .eq) rhs lhs type target]
    else return [straight]
  | .lt => return [← ordering true lhs rhs type target]
  | .ge => return [← ordering false lhs rhs type target]
  | .gt => return [← ordering true rhs lhs type target]
  | .le => return [← ordering false rhs lhs type target]

/-- The candidates for a comparison with a constant. -/
def constantCandidates (op : CompareOp) (lhs : Value) (constant : Int64) (type : ValueType)
    (target : String) : Lower (List Draft) := do
  checkConstant constant type
  let c := wrap constant type
  let (least, greatest) := typeBounds type
  let never := (op = .gt && c = greatest) || (op = .lt && c = least)
  let always := (op = .le && c = greatest) || (op = .ge && c = least)
  if never then return [← candidate (pure ())]
  else if always then return [← candidate (jmp target)]
  else if c = 0 then zeroCandidates op lhs type target
  else
    let successor := Value.constant (c + 1)
    let shifted ←
      match op with
      | .gt => pure [← ordering false lhs successor type target]
      | .le => pure [← ordering true lhs successor type target]
      | _ => pure []
    return shifted ++ (← plainCandidates op lhs (.constant constant) type target)

/-- Every sequence that goes to the label if the comparison holds and falls through otherwise. -/
def branchCandidates (op : CompareOp) (lhs rhs : Value) (type : ValueType) (target : String) :
    Lower (List Draft) :=
  let (op, lhs, rhs) := if lhs.constant?.isSome then (op.swapped, rhs, lhs) else (op, lhs, rhs)
  match rhs.constant? with
  | some c => constantCandidates op lhs c type target
  | none => plainCandidates op lhs rhs type target

def lowerBranch (node : Node) (op : CompareOp) (lhs rhs : Value) (type : ValueType)
    (ifTrue ifFalse : LabelId) (next : Option Node) : Lower Unit := do
  checkScalar type node
  match lhs.constant?, rhs.constant? with
  | some l, some r =>
    checkConstant l type
    checkConstant r type
    jumpTo (if op.holds (wrap l type) (wrap r type) then ifTrue else ifFalse) next
  | _, _ =>
    let name := Naming.nodeLabel (← read).function.name
    if next = some (.label ifFalse) then
      commitCheapest (← branchCandidates op lhs rhs type (name ifTrue))
    else if next = some (.label ifTrue) then
      commitCheapest (← branchCandidates op.negated lhs rhs type (name ifFalse))
    else
      let candidates ← branchCandidates op lhs rhs type (name ifTrue)
      commitCheapest (candidates.map (·.jmp (name ifFalse)))

end Selection

end Codegen6502
