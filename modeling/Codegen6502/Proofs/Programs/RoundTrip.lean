import Codegen6502.Program.Basic
import Codegen6502.Proofs.Programs.Pruning

/-!
# Programs read back from their JSON

For each part of a program, the form of its JSON: which members have to be there, and what the
absence of the others stands for.
-/

namespace Codegen6502.Proofs.Programs.RoundTrip

open Pruning

/-! ### Scalars -/

theorem intBetween?_int {lo hi n : Int} (hlo : lo ≤ n) (hhi : n ≤ hi) :
    Json.intBetween? lo hi (.int n) = some n := by
  rw [Json.intBetween?, if_pos ⟨hlo, hhi⟩]

theorem bool_agrees : Agrees scalar Json.bool? .bool := fun b =>
  scalar_recovers (fun h => by cases h) rfl

theorem string_agrees : Agrees scalar Json.string? .str := fun s =>
  scalar_recovers (fun h => by cases h) rfl

theorem uint8_agrees : Agrees scalar Json.uint8? .ofUInt8 := fun b =>
  scalar_recovers (fun h => by cases h) (by
    have := b.toNat_lt
    rw [Json.uint8?, Json.ofUInt8, intBetween?_int (by omega) (by omega)]
    simp)

theorem uint16_agrees : Agrees scalar Json.uint16? .ofUInt16 := fun w =>
  scalar_recovers (fun h => by cases h) (by
    have := w.toNat_lt
    rw [Json.uint16?, Json.ofUInt16, intBetween?_int (by omega) (by omega)]
    simp)

theorem uint32_agrees : Agrees scalar Json.uint32? .ofUInt32 := fun n =>
  scalar_recovers (fun h => by cases h) (by
    have := n.toNat_lt
    rw [Json.uint32?, Json.ofUInt32, intBetween?_int (by omega) (by omega)]
    simp)

theorem int64_agrees : Agrees scalar Json.int64? fun n => .int n.toInt := fun n =>
  scalar_recovers (fun h => by cases h) (by
    have hlo := n.le_toInt
    have hhi := n.toInt_lt
    rw [Json.int64?, intBetween?_int (by omega) (by omega)]
    simp)

theorem bytes_agree : Agrees (listOf scalar) (Json.list? Json.uint8?) .ofBytes :=
  listOf_agrees uint8_agrees

/-! ### Types, banks and bit-fields -/

def typeForm : Form := oneOf
  [("Void", none), ("U8", none), ("I8", none), ("U16", none), ("I16", none), ("Ptr", none),
    ("U32", none), ("I32", none), ("Struct", some (record [needed "size" scalar]))]

theorem type_agrees : Agrees typeForm ValueType.ofJson? ValueType.toJson
  | .void | .u8 | .i8 | .u16 | .i16 | .ptr | .u32 | .i32 => bare_recovers rfl rfl
  | .struct size => fields_recover rfl
      (.field (reads_required (uint16_agrees size)) <| .done (ValueType.struct size))
      (by decide) (fun _ => rfl) rfl

def bankForm : Form := oneOf [("Common", none), ("Bank", some scalar)]

theorem bank_agrees : Agrees bankForm Bank.ofJson? Bank.toJson
  | .common => bare_recovers rfl rfl
  | .paged n => carrying_recovers rfl ((uint8_agrees n).map Bank.paged) (fun _ => rfl) rfl

def entryForm : Form := oneOf [("None", none), ("NonRecursive", none), ("Recursive", none)]

theorem entry_agrees : Agrees entryForm EntryKind.ofJson? EntryKind.toJson
  | .subroutine | .interrupt | .nestedInterrupt => bare_recovers rfl rfl

def iocbForm : Form := oneOf
  [("HandlerId", none), ("DeviceNumber", none), ("Command", none), ("Status", none),
    ("BufferAddress", none), ("PutAddress", none), ("BufferLength", none), ("Aux", some scalar)]

theorem iocb_agrees : Agrees iocbForm IocbField.ofJson? IocbField.toJson
  | .handlerId | .deviceNumber | .command | .status | .bufferAddress | .putAddress
  | .bufferLength => bare_recovers rfl rfl
  | .aux i => carrying_recovers rfl ((uint8_agrees i).map IocbField.aux) (fun _ => rfl) rfl

def bitFieldForm : Form := record
  [needed "byte_offset" scalar, needed "bit_offset" scalar, needed "width" scalar]

theorem bitField_agrees : Agrees bitFieldForm BitField.ofJson? BitField.toJson := fun f =>
  record_recovers
    (.field (reads_required (uint16_agrees f.byteOffset)) <|
      .field (reads_required (uint8_agrees f.bitOffset)) <|
      .field (reads_required (uint8_agrees f.width)) <| .done f)
    (by decide)

/-! ### Places and values -/

def placeForm : Form := oneOf
  [("Absolute", some scalar),
    ("Global", some (record [needed "name" scalar, needed "offset" scalar])),
    ("Local", some (record [needed "offset" scalar])),
    ("Indirect", some (record [needed "base" scalar, needed "offset" scalar])),
    ("Banked", some (record [needed "bank" bankForm, needed "offset" scalar])),
    ("Iocb", some (record [needed "channel" scalar, needed "field" iocbForm])),
    ("ReturnSlot", some (record [needed "offset" scalar]))]

theorem place_agrees : Agrees placeForm Place.ofJson? Place.toJson
  | .absolute address =>
    carrying_recovers rfl ((uint16_agrees address).map Place.absolute) (fun _ => rfl) rfl
  | .global name offset => fields_recover rfl
      (.field (reads_required (string_agrees name)) <|
        .field (reads_required (uint16_agrees offset)) <| .done (Place.global name offset))
      (by decide) (fun _ => rfl) rfl
  | .frameByte offset => fields_recover rfl
      (.field (reads_required (uint8_agrees offset)) <| .done (Place.frameByte offset))
      (by decide) (fun _ => rfl) rfl
  | .indirect base offset => fields_recover rfl
      (.field (reads_required (uint32_agrees base)) <|
        .field (reads_required (uint8_agrees offset)) <| .done (Place.indirect base offset))
      (by decide) (fun _ => rfl) rfl
  | .banked bank offset => fields_recover rfl
      (.field (reads_required (bank_agrees bank)) <|
        .field (reads_required (uint16_agrees offset)) <| .done (Place.banked bank offset))
      (by decide) (fun _ => rfl) rfl
  | .iocb channel field => fields_recover rfl
      (.field (reads_required (uint8_agrees channel)) <|
        .field (reads_required (iocb_agrees field)) <| .done (Place.iocb channel field))
      (by decide) (fun _ => rfl) rfl
  | .returnSlot offset => fields_recover rfl
      (.field (reads_required (uint8_agrees offset)) <| .done (Place.returnSlot offset))
      (by decide) (fun _ => rfl) rfl

def valueForm : Form := oneOf
  [("Constant", some scalar), ("Temp", some scalar), ("Memory", some placeForm)]

theorem value_agrees : Agrees valueForm Value.ofJson? Value.toJson
  | .constant c => carrying_recovers rfl ((int64_agrees c).map Value.constant) (fun _ => rfl) rfl
  | .temp t => carrying_recovers rfl ((uint32_agrees t).map Value.temp) (fun _ => rfl) rfl
  | .memory p => carrying_recovers rfl ((place_agrees p).map Value.memory) (fun _ => rfl) rfl

def argumentForm : Form := record [needed "value" valueForm, needed "ty" typeForm]

theorem argument_agrees : Agrees argumentForm Argument.ofJson? Argument.toJson := fun a =>
  record_recovers
    (.field (reads_required (value_agrees a.value)) <|
      .field (reads_required (type_agrees a.type)) <| .done a)
    (by decide)

/-! ### Nodes -/

def binaryOpForm : Form := oneOf
  [("Add", none), ("Sub", none), ("Mul", none), ("Div", none), ("Mod", none), ("And", none),
    ("Or", none), ("Xor", none), ("Shl", none), ("Shr", none)]

theorem binaryOp_agrees : Agrees binaryOpForm BinaryOp.ofJson? BinaryOp.toJson
  | .add | .sub | .mul | .div | .mod | .and | .or | .xor | .shl | .shr => bare_recovers rfl rfl

def compareOpForm : Form := oneOf
  [("Eq", none), ("Ne", none), ("Lt", none), ("Le", none), ("Gt", none), ("Ge", none)]

theorem compareOp_agrees : Agrees compareOpForm CompareOp.ofJson? CompareOp.toJson
  | .eq | .ne | .lt | .le | .gt | .ge => bare_recovers rfl rfl

/-- Every member of a record of clobbers may be absent. -/
def clobbersForm : Form := record
  [defaulted "a" (.bool false) scalar, defaulted "x" (.bool false) scalar,
    defaulted "y" (.bool false) scalar, defaulted "zero_page" (.arr []) (listOf scalar)]

theorem clobbers_agree : Agrees clobbersForm DeclaredClobbers.ofJson? DeclaredClobbers.toJson :=
  fun d => record_recovers
    (.field (reads_withDefault bool_agrees rfl) <| .field (reads_withDefault bool_agrees rfl) <|
      .field (reads_withDefault bool_agrees rfl) <|
      .field (reads_withDefault bytes_agree rfl) <| .done d)
    (by decide)

def copyForm : Form := record
  [needed "result" scalar, needed "value" valueForm, needed "ty" typeForm]

def binaryForm : Form := record
  [needed "result" scalar, needed "op" binaryOpForm, needed "lhs" valueForm,
    needed "rhs" valueForm, needed "ty" typeForm]

def storeForm : Form := record
  [needed "value" valueForm, needed "dest" placeForm, needed "ty" typeForm]

/-- The result and the buffer of a call may be absent. -/
def callForm : Form := record
  [optional "result" scalar, needed "callee" scalar, needed "args" (listOf argumentForm),
    needed "ty" typeForm, optional "sret" placeForm]

/-- The registers and the result of a call of a fixed address may be absent. -/
def asmCallForm : Form := record
  [needed "address" scalar, optional "a" valueForm, optional "x" valueForm,
    optional "y" valueForm, needed "clobbers" clobbersForm, optional "result" scalar]

def branchForm : Form := record
  [needed "op" compareOpForm, needed "lhs" valueForm, needed "rhs" valueForm,
    needed "ty" typeForm, needed "true_label" scalar, needed "false_label" scalar]

def nodeForm : Form := oneOf
  [("Copy", some copyForm), ("Binary", some binaryForm), ("Store", some storeForm),
    ("Call", some callForm), ("AsmCall", some asmCallForm), ("Branch", some branchForm),
    ("Jump", some scalar), ("Label", some scalar), ("Return", some (nullable valueForm)),
    ("SetJmp", some (record [needed "result" scalar, needed "buffer" placeForm])),
    ("LongJmp", some (record [needed "buffer" placeForm, needed "value" valueForm])),
    ("VaStart", some (record [needed "cursor" scalar])),
    ("VaArg", some (record [needed "result" scalar, needed "cursor" scalar, needed "ty" typeForm])),
    ("VaCount", some (record [needed "result" scalar])),
    ("LoadField", some (record
      [needed "result" scalar, needed "src" placeForm, needed "field" bitFieldForm])),
    ("StoreField", some (record
      [needed "value" valueForm, needed "dest" placeForm, needed "field" bitFieldForm]))]

theorem value_optional {name : String} (v : Option Value) :
    Reads (optional name valueForm) (fun r => r.optional name Value.ofJson?)
      (.ofOption Value.toJson v) v :=
  reads_optional value_agrees (oneOf_neverNull _)

theorem temp_optional {name : String} (t : Option Temp) :
    Reads (optional name scalar) (fun r => r.optional name Json.uint32?)
      (.ofOption .ofUInt32 t) t :=
  reads_optional uint32_agrees scalar_neverNull

theorem call_recovers (result : Option Temp) (callee : String) (args : List Argument)
    (type : ValueType) (buffer : Option Place) :
    Recovers nodeForm Node.ofJson? (Node.call result callee args type buffer).toJson
      (.call result callee args type buffer) :=
  fields_recover rfl
    (.field (temp_optional result) <| .field (reads_required (string_agrees callee)) <|
      .field (reads_required (listOf_agrees argument_agrees args)) <|
      .field (reads_required (type_agrees type)) <|
      .field (reads_optional place_agrees (oneOf_neverNull _)) <|
      .done (Node.call result callee args type buffer))
    (by decide) (fun _ => rfl) rfl

theorem asmCall_recovers (address : UInt16) (a x y : Option Value) (clobbers : DeclaredClobbers)
    (result : Option Temp) :
    Recovers nodeForm Node.ofJson? (Node.asmCall address a x y clobbers result).toJson
      (.asmCall address a x y clobbers result) :=
  fields_recover rfl
    (.field (reads_required (uint16_agrees address)) <| .field (value_optional a) <|
      .field (value_optional x) <| .field (value_optional y) <|
      .field (reads_required (clobbers_agree clobbers)) <| .field (temp_optional result) <|
      .done (Node.asmCall address a x y clobbers result))
    (by decide) (fun _ => rfl) rfl

theorem branch_recovers (op : CompareOp) (lhs rhs : Value) (type : ValueType)
    (ifTrue ifFalse : LabelId) :
    Recovers nodeForm Node.ofJson? (Node.branch op lhs rhs type ifTrue ifFalse).toJson
      (.branch op lhs rhs type ifTrue ifFalse) :=
  fields_recover rfl
    (.field (reads_required (compareOp_agrees op)) <|
      .field (reads_required (value_agrees lhs)) <|
      .field (reads_required (value_agrees rhs)) <|
      .field (reads_required (type_agrees type)) <|
      .field (reads_required (uint32_agrees ifTrue)) <|
      .field (reads_required (uint32_agrees ifFalse)) <|
      .done (Node.branch op lhs rhs type ifTrue ifFalse))
    (by decide) (fun _ => rfl) rfl

theorem node_agrees : Agrees nodeForm Node.ofJson? Node.toJson
  | .copy result value type => fields_recover rfl
      (.field (reads_required (uint32_agrees result)) <|
        .field (reads_required (value_agrees value)) <|
        .field (reads_required (type_agrees type)) <| .done (Node.copy result value type))
      (by decide) (fun _ => rfl) rfl
  | .binary result op lhs rhs type => fields_recover rfl
      (.field (reads_required (uint32_agrees result)) <|
        .field (reads_required (binaryOp_agrees op)) <|
        .field (reads_required (value_agrees lhs)) <|
        .field (reads_required (value_agrees rhs)) <|
        .field (reads_required (type_agrees type)) <| .done (Node.binary result op lhs rhs type))
      (by decide) (fun _ => rfl) rfl
  | .store value dest type => fields_recover rfl
      (.field (reads_required (value_agrees value)) <|
        .field (reads_required (place_agrees dest)) <|
        .field (reads_required (type_agrees type)) <| .done (Node.store value dest type))
      (by decide) (fun _ => rfl) rfl
  | .call result callee args type buffer => call_recovers result callee args type buffer
  | .asmCall address a x y clobbers result => asmCall_recovers address a x y clobbers result
  | .branch op lhs rhs type ifTrue ifFalse => branch_recovers op lhs rhs type ifTrue ifFalse
  | .jump target => carrying_recovers rfl ((uint32_agrees target).map Node.jump) (fun _ => rfl) rfl
  | .label id => carrying_recovers rfl ((uint32_agrees id).map Node.label) (fun _ => rfl) rfl
  | .ret value => carrying_recovers rfl
      ((nullable_agrees value_agrees (oneOf_neverNull _) value).map Node.ret) (fun _ => rfl) rfl
  | .setJmp result buffer => fields_recover rfl
      (.field (reads_required (uint32_agrees result)) <|
        .field (reads_required (place_agrees buffer)) <| .done (Node.setJmp result buffer))
      (by decide) (fun _ => rfl) rfl
  | .longJmp buffer value => fields_recover rfl
      (.field (reads_required (place_agrees buffer)) <|
        .field (reads_required (value_agrees value)) <| .done (Node.longJmp buffer value))
      (by decide) (fun _ => rfl) rfl
  | .vaStart cursor => fields_recover rfl
      (.field (reads_required (uint32_agrees cursor)) <| .done (Node.vaStart cursor))
      (by decide) (fun _ => rfl) rfl
  | .vaArg result cursor type => fields_recover rfl
      (.field (reads_required (uint32_agrees result)) <|
        .field (reads_required (uint32_agrees cursor)) <|
        .field (reads_required (type_agrees type)) <| .done (Node.vaArg result cursor type))
      (by decide) (fun _ => rfl) rfl
  | .vaCount result => fields_recover rfl
      (.field (reads_required (uint32_agrees result)) <| .done (Node.vaCount result))
      (by decide) (fun _ => rfl) rfl
  | .loadField result src field => fields_recover rfl
      (.field (reads_required (uint32_agrees result)) <|
        .field (reads_required (place_agrees src)) <|
        .field (reads_required (bitField_agrees field)) <| .done (Node.loadField result src field))
      (by decide) (fun _ => rfl) rfl
  | .storeField value dest field => fields_recover rfl
      (.field (reads_required (value_agrees value)) <|
        .field (reads_required (place_agrees dest)) <|
        .field (reads_required (bitField_agrees field)) <| .done (Node.storeField value dest field))
      (by decide) (fun _ => rfl) rfl

/-! ### Functions, globals and programs -/

/-- Everything of a signature but its name, parameters and result may be absent. -/
def signatureForm : Form := record
  [needed "name" scalar, needed "params" (listOf typeForm), needed "return_type" typeForm,
    defaulted "variadic" (.bool false) scalar, defaulted "interrupt" (.str "None") entryForm,
    defaulted "bank" (.str "Common") bankForm, defaulted "externally_visible" (.bool true) scalar,
    optional "clobbers" clobbersForm]

theorem signature_agrees : Agrees signatureForm Signature.ofJson? Signature.toJson := fun s =>
  record_recovers
    (.field (reads_required (string_agrees s.name)) <|
      .field (reads_required (listOf_agrees type_agrees s.params)) <|
      .field (reads_required (type_agrees s.returnType)) <|
      .field (reads_withDefault bool_agrees rfl) <| .field (reads_withDefault entry_agrees rfl) <|
      .field (reads_withDefault bank_agrees rfl) <| .field (reads_withDefault bool_agrees rfl) <|
      .field (reads_withDefault (nullable_agrees clobbers_agree (record_neverNull _)) rfl) <|
      .done s)
    (by decide)

/-- A function may be without a word on whether it is external, and at which address. -/
def functionForm : Form := record
  [needed "signature" signatureForm, needed "params" (listOf scalar),
    needed "body" (listOf nodeForm), defaulted "is_external" (.bool false) scalar,
    optional "address" scalar]

theorem function_agrees : Agrees functionForm FunctionDef.ofJson? FunctionDef.toJson := fun f =>
  record_recovers
    (.field (reads_required (signature_agrees f.signature)) <|
      .field (reads_required (listOf_agrees uint32_agrees f.params)) <|
      .field (reads_required (listOf_agrees node_agrees f.body)) <|
      .field (reads_withDefault bool_agrees rfl) <|
      .field (reads_withDefault (nullable_agrees uint16_agrees scalar_neverNull) rfl) <| .done f)
    (by decide)

/-- A global may be without initial bytes and without a bank. -/
def globalForm : Form := record
  [needed "name" scalar, needed "size" scalar, optional "init" (listOf scalar),
    defaulted "bank" (.str "Common") bankForm]

theorem global_agrees : Agrees globalForm GlobalVar.ofJson? GlobalVar.toJson := fun g =>
  record_recovers
    (.field (reads_required (string_agrees g.name)) <|
      .field (reads_required (uint16_agrees g.size)) <|
      .field (reads_withDefault (nullable_agrees bytes_agree (listOf_neverNull _)) rfl) <|
      .field (reads_withDefault bank_agrees rfl) <| .done g)
    (by decide)

/-- A program may be without globals. -/
def programForm : Form := record
  [needed "name" scalar, needed "functions" (listOf functionForm),
    defaulted "globals" (.arr []) (listOf globalForm)]

theorem program_agrees : Agrees programForm Program.ofJson? Program.toJson := fun p =>
  record_recovers
    (.field (reads_required (string_agrees p.name)) <|
      .field (reads_required (listOf_agrees function_agrees p.functions)) <|
      .field (reads_withDefault (listOf_agrees global_agrees) rfl) <| .done p)
    (by decide)

/-- **Programs read back from their JSON**, also when members that stand for their defaults are left
out; with a member missing that has no default there is no program. -/
theorem program_round_trip (p : Program) :
    Program.ofJson? p.toJson = some p ∧
      (∀ j, programForm false p.toJson j → Program.ofJson? j = some p) ∧
      ∀ j, programForm true p.toJson j → Program.ofJson? j = none :=
  have h := program_agrees p
  ⟨h.reads h.whole, fun _ hj => h.reads hj, fun _ hj => h.reads hj⟩

/-- A signature with nothing that is not at its default. -/
def smallSignature : Signature := { name := "f", params := [], returnType := .u8 }

def smallProgram : Program where
  name := "p"
  functions := [{ signature := smallSignature, body := [.ret (some (.constant 1))] }]

/-- The JSON of the program without the members that have a default. -/
def smallJson (signature : Json) : Json :=
  .obj [("name", .str "p"), ("functions", .arr [.obj [("signature", signature), ("params", .arr []),
    ("body", .arr [.tagged "Return" (.tagged "Constant" (.int 1))])]])]

theorem smallJson_prunes {b : Bool} {signature : Json}
    (h : signatureForm b smallSignature.toJson signature) :
    programForm b smallProgram.toJson (smallJson signature) := by
  have hbody := (listOf_agrees node_agrees [.ret (some (.constant 1))]).whole
  have hmembers : Members [needed "params" (listOf scalar), needed "body" (listOf nodeForm),
      defaulted "is_external" (.bool false) scalar, optional "address" scalar] false _ _ :=
    .keep (listOf_agrees uint32_agrees []).whole <| .keep hbody <| .leave rfl <| .leave rfl .nil
  have hfunction : functionForm (b || false) _ _ :=
    .intro (.cons (o := some signature) (.kept h) hmembers)
  have hfunctions : listOf functionForm ((b || false) || false) _ _ := .intro (.cons hfunction .nil)
  rw [Bool.or_false, Bool.or_false] at hfunctions
  have hrest : Members [needed "functions" (listOf functionForm),
      defaulted "globals" (.arr []) (listOf globalForm)] (b || false) _ _ :=
    .cons (o := some _) (.kept hfunctions) <| .leave rfl .nil
  rw [Bool.or_false] at hrest
  exact .intro (.keep (string_agrees "p").whole hrest)

/-- The small program is read from its name, its function, and the name, parameters and result of
the signature, and not without the result. -/
theorem smallProgram_round_trip :
    Program.ofJson? (smallJson (.obj
        [("name", .str "f"), ("params", .arr []), ("return_type", .str "U8")])) = some smallProgram ∧
      Program.ofJson? (smallJson (.obj [("name", .str "f"), ("params", .arr [])])) = none :=
  have hname := (string_agrees "f").whole
  have hparams := (listOf_agrees type_agrees []).whole
  ⟨(program_round_trip smallProgram).2.1 _ <| smallJson_prunes <| .intro <| .keep hname <|
      .keep hparams <| .keep (type_agrees .u8).whole <| .leave rfl <| .leave rfl <| .leave rfl <|
      .leave rfl <| .leave rfl .nil,
    (program_round_trip smallProgram).2.2 _ <| smallJson_prunes <| .intro <| .keep hname <|
      .keep hparams <| .lose rfl <| .leave rfl <| .leave rfl <| .leave rfl <| .leave rfl <|
      .leave rfl .nil⟩

end Codegen6502.Proofs.Programs.RoundTrip
