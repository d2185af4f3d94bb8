import Codegen6502.Proofs.Calls.Pipeline
import Codegen6502.Proofs.Selecting.Bodies

/-!
# The frame bytes that the code names

The size of the frame is computed from the program before any code is selected (`frameTop`): the end
of the furthest access, by the offset of each place and the size that its node accesses.
`frameNeed` is that end itself; `frameTop_eq` says that the computation gives it, or stops where it
is no word.

The code names frame bytes by another way, by displacing the places.  `named_outside_iff` says when
the two agree: exactly when the bytes that the first computation does not see (`looseBytes`) lie in
the frame all the same.
-/

namespace Codegen6502.Proofs.Selecting.FrameReach

open Selection Places Growth Shapes Nodes Bodies

variable {c : Context} {r : Rules}

/-! ### Labels -/

theorem append_ne (name : String) {s t : String} (h : s ≠ t) : name ++ s ≠ name ++ t := by
  intro heq
  have hlist := congrArg String.toList heq
  rw [String.toList_append, String.toList_append] at hlist
  exact h (String.toList_inj.mp (List.append_cancel_left hlist))

/-- A name that begins with an underscore and another letter than that of the exit. -/
theorem exitLabel_ne {name rest : String} {letter : Char} (h : letter ≠ 'e') :
    name ++ String.ofList ('_' :: letter :: rest.toList) ≠ Naming.exitLabel name := by
  refine append_ne name fun heq => ?_
  have hlist := congrArg String.toList heq
  rw [String.toList_ofList] at hlist
  have hexit : "_exit".toList = ['_', 'e', 'x', 'i', 't'] := rfl
  rw [hexit] at hlist
  injection hlist with _ htail
  injection htail with hletter _
  exact h hletter

theorem nodeLabel_ne_exitLabel (name : String) (id : LabelId) :
    Naming.nodeLabel name id ≠ Naming.exitLabel name := by
  have hlabel : Naming.nodeLabel name id =
      name ++ String.ofList ('_' :: 'L' :: (toString id.toNat).toList) := by
    refine String.toList_inj.mp ?_
    simp [Naming.nodeLabel]
  rw [hlabel]
  exact exitLabel_ne (by decide)

theorem innerLabel_ne_exitLabel (name : String) (n : ℕ) :
    Naming.innerLabel name n ≠ Naming.exitLabel name := by
  have hlabel : Naming.innerLabel name n =
      name ++ String.ofList ('_' :: 's' :: (toString n).toList) := by
    refine String.toList_inj.mp ?_
    simp [Naming.innerLabel]
  rw [hlabel]
  exact exitLabel_ne (by decide)

/-- X is needed at the exit of a function that returns a word, and at no other label. -/
def xAtExit (name : String) (b : Binding) (l : String) : Bool :=
  decide (l = Naming.exitLabel name) && exitsWithX b

/-! ### The size of the frame -/

/-- The frame byte of a place. -/
def frameByte? : Place → Option UInt8
  | .frameByte offset => some offset
  | _ => none

/-- The frame bytes that the size of the frame does not account for: those of bit-fields, which are
taken to start at their place. -/
def looseBytes : Node → List UInt8
  | .loadField _ place field | .storeField _ place field =>
    (frameByte? (place.displaced field.byteOffset)).toList
  | _ => []

/-- Where the accesses of a node to the frame end. -/
def frameEnds (node : Node) : List ℕ :=
  (placesIn node).filterMap fun place =>
    (frameByte? place).map fun offset => offset.toNat + (accessSize node).toNat

/-- The bytes of the frame that a body needs: the end of its furthest access. -/
def frameNeed (body : List Node) : ℕ := (body.flatMap frameEnds).foldl max 0

theorem foldl_max_le_iff {n : ℕ} : ∀ (stops : List ℕ) (top : ℕ),
    stops.foldl max top ≤ n ↔ top ≤ n ∧ ∀ stop ∈ stops, stop ≤ n
  | [], top => by simp
  | stop :: rest, top => by
    rw [List.foldl_cons, foldl_max_le_iff rest, max_le_iff, List.forall_mem_cons, and_assoc]

theorem frameNeed_le_iff {body : List Node} {n : ℕ} :
    frameNeed body ≤ n ↔ ∀ stop ∈ body.flatMap frameEnds, stop ≤ n := by
  rw [frameNeed, foldl_max_le_iff, and_iff_right (Nat.zero_le n)]

/-- A number as a word of 16 bits, if it is one. -/
def wordOf (n : ℕ) : Compile UInt16 :=
  if n < 0x10000 then .ok (UInt16.ofNat n) else .error (.overflow "add")

theorem addWords_eq (a b : UInt16) : addWords a b = wordOf (a.toNat + b.toNat) := by
  unfold addWords wordOf
  rw [UInt16.ofNat_add, UInt16.ofNat_toNat, UInt16.ofNat_toNat]

/-- What goes on from a number that is no word, and reaches no smaller one, is no word either. -/
theorem wordOf_bind {n m : ℕ} {g : UInt16 → Compile UInt16} (hle : n ≤ m)
    (h : ∀ top : UInt16, top.toNat = n → g top = wordOf m) : (wordOf n >>= g) = wordOf m := by
  by_cases hn : n < 0x10000
  · rw [wordOf, if_pos hn]
    exact h _ (UInt16.toNat_ofNat_of_lt' hn)
  · rw [wordOf, wordOf, if_neg hn, if_neg (by omega)]
    rfl

theorem placeTop_eq (size top : UInt16) (place : Place) : placeTop size top place =
    wordOf (((frameByte? place).map fun offset => offset.toNat + size.toNat).toList.foldl max
      top.toNat) := by
  cases place with
  | frameByte offset =>
    change (addWords offset.toUInt16 size >>= fun stop => pure (max top stop)) =
      wordOf (max top.toNat (offset.toNat + size.toNat))
    rw [addWords_eq, UInt8.toNat_toUInt16]
    refine wordOf_bind (le_max_right ..) fun stop hstop => ?_
    rw [← hstop, ← UInt16.toNat_max, wordOf, if_pos (max top stop).toNat_lt, UInt16.ofNat_toNat]
    rfl
  | _ =>
    change .ok top = wordOf top.toNat
    rw [wordOf, if_pos top.toNat_lt, UInt16.ofNat_toNat]

/-- The greatest of some ends, if it is a word, along a list of what has ends. -/
theorem foldlM_eq {α : Type} {step : UInt16 → α → Compile UInt16} {stops : α → List ℕ}
    (hstep : ∀ top a, step top a = wordOf ((stops a).foldl max top.toNat)) :
    ∀ (as : List α) (top : UInt16),
      as.foldlM step top = wordOf ((as.flatMap stops).foldl max top.toNat)
  | [], top => by
    change .ok top = wordOf top.toNat
    rw [wordOf, if_pos top.toNat_lt, UInt16.ofNat_toNat]
  | a :: rest, top => by
    rw [List.foldlM_cons, hstep, List.flatMap_cons, List.foldl_append]
    refine wordOf_bind ((foldl_max_le_iff _ _).mp le_rfl).1 fun next hnext => ?_
    rw [foldlM_eq hstep rest, hnext]

theorem nodeTop_eq (top : UInt16) (node : Node) :
    nodeTop top node = wordOf ((frameEnds node).foldl max top.toNat) := by
  rw [nodeTop, foldlM_eq (placeTop_eq (accessSize node)), frameEnds, List.filterMap_eq_flatMap_toList]

/-- **The counter of the frame** is the need, if that is a word. -/
theorem frameTop_eq (body : List Node) : frameTop body = wordOf (frameNeed body) :=
  foldlM_eq nodeTop_eq body 0

section Sizes

variable {f : FunctionDef} {locals : UInt8} {node : Node}

/-- **The size of the frame** is the need of a function. -/
theorem locals_eq_need (h : frameLocals f = .ok locals) : locals.toNat = frameNeed f.body := by
  unfold frameLocals at h
  rw [frameTop_eq, wordOf] at h
  split at h
  · rename_i hword
    change (if UInt16.ofNat (frameNeed f.body) ≤ 0xFF then _ else _) = _ at h
    split at h
    · rename_i hle
      cases h
      have hneed : (UInt16.ofNat (frameNeed f.body)).toNat = frameNeed f.body :=
        UInt16.toNat_ofNat_of_lt' hword
      have hle' : (UInt16.ofNat (frameNeed f.body)).toNat ≤ 0xFF := hle
      rw [UInt16.toNat_toUInt8, hneed]
      omega
    · cases h
  · cases h

/-- The end of an access is in the frame. -/
theorem end_le_locals (h : frameLocals f = .ok locals) (hnode : node ∈ f.body) {offset : UInt8}
    (hoffset : .frameByte offset ∈ placesIn node) :
    offset.toNat + (accessSize node).toNat ≤ locals.toNat := by
  refine frameNeed_le_iff.mp (locals_eq_need h).ge _ (List.mem_flatMap.mpr ⟨node, hnode, ?_⟩)
  exact List.mem_filterMap.mpr ⟨_, hoffset, rfl⟩

theorem displaced_frameByte {place : Place} {delta : UInt16} {offset : UInt8}
    (h : place.displaced delta = .frameByte offset) :
    ∃ first, place = .frameByte first ∧ offset = first + delta.toUInt8 := by
  cases place with
  | frameByte first =>
    injection h with h
    exact ⟨first, rfl, h.symm⟩
  | iocb channel field =>
    simp only [Place.displaced] at h
    split at h <;> cases h
  | _ => cases h

/-- The bytes of a place that a node accesses by its size. -/
theorem reaches_sized (h : frameLocals f = .ok locals) (hnode : node ∈ f.body) {place : Place}
    (hplace : place ∈ placesIn node) {n : ℕ} (hn : n ≤ (accessSize node).toNat) :
    Reaches (· < locals) place n := by
  intro i hi offset hoffset
  obtain ⟨first, rfl, rfl⟩ := displaced_frameByte hoffset
  have hend := end_le_locals h hnode hplace
  have hlocals := locals.toNat_lt
  have hi' : i < UInt16.size := by rw [UInt16.size]; omega
  rw [UInt8.lt_iff_toNat_lt, UInt8.toNat_add, UInt16.toNat_toUInt8, UInt16.toNat_ofNat_of_lt' hi']
  omega

theorem size_le_foldl_max : ∀ (sizes : List UInt16) (init : UInt16),
    init.toNat ≤ (sizes.foldl max init).toNat ∧
    ∀ size ∈ sizes, size.toNat ≤ (sizes.foldl max init).toNat
  | [], init => ⟨le_rfl, fun _ h => (List.not_mem_nil h).elim⟩
  | first :: rest, init => by
    rw [List.foldl_cons]
    obtain ⟨hle, hmem⟩ := size_le_foldl_max rest (max init first)
    rw [UInt16.toNat_max] at hle
    refine ⟨(le_max_left ..).trans hle, fun size hsize => ?_⟩
    rcases List.mem_cons.mp hsize with rfl | hrest
    · exact (le_max_right ..).trans hle
    · exact hmem size hrest

/-- The size of a type that can be computed with, as an access. -/
theorem scalar_access {type : ValueType} (h : type.isScalar = true) :
    type.size.toNat ≤ (max type.size 1).toNat := by
  cases type <;> first | decide | cases h

/-- **Every frame byte that a node names** is in the frame or is a loose one. -/
theorem reached_of_loose {reach : UInt8 → Prop} {b : Binding}
    (h : frameLocals f = .ok locals) (hnode : node ∈ f.body)
    (hkind : Convention.returnKind? b.returnType = some b.returnKind)
    (hreach : ∀ offset, offset < locals → reach offset)
    (hloose : ∀ offset ∈ looseBytes node, reach offset) : Reached reach b node := by
  have hplace : ∀ place ∈ placesIn node, ∀ n ≤ (accessSize node).toNat, Reaches reach place n :=
    fun place hmem n hn i hi o ho => hreach o (reaches_sized h hnode hmem hn i hi o ho)
  have hvalue : ∀ value : Value, (∀ place ∈ placeOf value, place ∈ placesIn node) →
      ∀ n ≤ (accessSize node).toNat, ReachesValue reach value n := by
    rintro value hmem n hn place rfl
    exact hplace place (hmem place (List.mem_singleton.mpr rfl)) n hn
  have hone : 1 ≤ (1 : UInt16).toNat := by decide
  have htwo : 1 ≤ (2 : UInt16).toNat := by decide
  cases node with
  | copy result value type => exact fun ht => hvalue value (fun p hp => hp) _ (scalar_access ht)
  | binary result op lhs rhs type =>
    intro ht
    exact ⟨hvalue lhs (fun p hp => List.mem_append_left _ hp) _ (scalar_access ht),
      hvalue rhs (fun p hp => List.mem_append_right _ hp) _ (scalar_access ht)⟩
  | branch op lhs rhs type ifTrue ifFalse =>
    intro ht
    exact ⟨hvalue lhs (fun p hp => List.mem_append_left _ hp) _ (scalar_access ht),
      hvalue rhs (fun p hp => List.mem_append_right _ hp) _ (scalar_access ht)⟩
  | store value dest type =>
    intro ht
    exact ⟨hvalue value (fun p hp => List.mem_append_left _ hp) _ (scalar_access ht),
      hplace dest (List.mem_append_right _ (List.mem_singleton.mpr rfl)) _ (scalar_access ht)⟩
  | call result callee args type buffer =>
    intro a ha
    refine hvalue a.value (fun p hp => ?_) _ ?_
    · exact List.mem_append_left _ (List.mem_flatMap.mpr ⟨a, ha, hp⟩)
    · exact (size_le_foldl_max _ _).2 _ (List.mem_map.mpr ⟨a, ha, rfl⟩)
  | asmCall address a x y clobbers result =>
    intro v hv
    refine hvalue v (fun p hp => ?_) 1 hone
    simp only [placesIn, List.mem_append]
    rcases hv with rfl | rfl | rfl
    · exact Or.inl (Or.inl hp)
    · exact Or.inl (Or.inr hp)
    · exact Or.inr hp
  | ret value =>
    rintro hregister v rfl
    refine hvalue v (fun p hp => hp) _ ?_
    revert hkind hregister
    cases b.returnType <;> simp [Convention.returnKind?, accessSize, ValueType.size]
    grind
  | longJmp buffer value => exact hvalue value (fun p hp => List.mem_cons_of_mem _ hp) 1 htwo
  | loadField result src field =>
    intro offset hoffset
    exact hloose offset (by simp [looseBytes, hoffset, frameByte?])
  | storeField value dest field =>
    refine ⟨hvalue value (fun p hp => List.mem_append_left _ hp) 1 hone, ?_⟩
    intro offset hoffset
    exact hloose offset (by simp [looseBytes, hoffset, frameByte?])
  | _ => trivial

end Sizes

/-! ### The code stays inside -/

/-- The rules under which only the frame bytes are of interest. -/
def reachRules (reach : UInt8 → Prop) (bindings : Std.TreeMap String Binding) (f : FunctionDef)
    (b : Binding) : Rules where
  reach
  names _ := True
  places _ := True
  deepest := pushDepth bindings f.body
  strict := False
  xAt := xAtExit f.name b
  resumes := True

theorem fits_reachRules {reach : UInt8 → Prop} {bindings : Std.TreeMap String Binding}
    {f : FunctionDef} {b : Binding} (h : ∀ node ∈ f.body, Reached reach b node) :
    Fits (reachRules reach bindings f b) bindings f b where
  inner n := ⟨by simp [reachRules, xAtExit, innerLabel_ne_exitLabel], trivial⟩
  label _ _ := trivial
  target node _ id _ := ⟨trivial, by simp [reachRules, xAtExit, nodeLabel_ne_exitLabel]⟩
  exit := trivial
  placed := trivial
  exitX := by simp [reachRules, xAtExit]
  reached := h
  deep _ hnode := le_pushDepth hnode
  x node _ := by cases node <;> simp [RespectsX, reachRules]

/-- The frame bytes along a walk are those that may be named. -/
theorem Walk.reach {known : String → Prop} {p q : Point} {es : List Entry}
    (h : Walk r known p q es) : ∀ opcode offset, .op opcode (.frame offset) ∈ es.map Prod.fst →
      r.reach offset := by
  induction h with
  | nil p => exact fun _ _ h => (List.not_mem_nil h).elim
  | cons step rest ih =>
    intro opcode offset hmem
    rw [List.map_cons] at hmem
    rcases List.mem_cons.mp hmem with hline | hrest
    · cases step with
      | plain hop hwithin haccess hdeep hx =>
        injection hline with _ hoperand
        rw [← hoperand] at hwithin
        exact hwithin
      | call d x x' hoperand hx hresumes =>
        injection hline with _ heq
        rw [← heq] at hoperand
        cases hoperand
      | setX d x x' hset hdeep =>
        obtain rfl | rfl | ⟨i, rfl⟩ := hset <;> cases hline
      | useX d x x' huse hx =>
        obtain rfl | rfl | ⟨z, rfl⟩ := huse <;> cases hline
      | _ => cases hline
    · exact ih opcode offset hrest

/-! ### Loose bytes are named -/

/-- Everything may be named. -/
def everywhere : UInt8 → Prop := fun _ => True

/-- Some line names the frame byte. -/
def Names (offset : UInt8) (es : List Entry) : Prop :=
  ∃ opcode, .op opcode (.frame offset) ∈ es.map Prod.fst

section Naming

variable {α β : Type} {m : Lower α} {f : α → Lower β} {Q : α → Prop} {Q' : β → Prop}
  {offset : UInt8}

theorem names_before (h : Lowers Extends c (Names offset) m Q)
    (h' : ∀ a, Q a → Lowers Extends c (fun _ => True) (f a) Q') :
    Lowers Extends c (Names offset) (m >>= f) Q' :=
  h.bind h' fun es es' ⟨opcode, hes⟩ _ => ⟨opcode, by
    rw [List.map_append]
    exact List.mem_append_left _ hes⟩

theorem names_behind (h : Lowers Extends c (fun _ => True) m Q)
    (h' : ∀ a, Q a → Lowers Extends c (Names offset) (f a) Q') :
    Lowers Extends c (Names offset) (m >>= f) Q' :=
  h.bind h' fun es es' _ ⟨opcode, hes'⟩ => ⟨opcode, by
    rw [List.map_append]
    exact List.mem_append_right _ hes'⟩

/-- A step of which only the result matters. -/
theorem any {P : List Entry → Prop} (h : Lowers Extends c P m Q) :
    Lowers Extends c (fun _ => True) m Q := h.imp (fun _ _ => trivial) fun _ hq => hq

theorem lowers_any (h : Lays c (Growth.Plain everywhere) m Q) :
    Lowers Extends c (fun _ => True) m Q := any h.toExtends

/-- A load of a frame byte is never left out: A is not known to hold it. -/
theorem names_loadA : Lowers Extends c (Names offset) (loadA (.direct (.frame offset)))
    fun _ => True := by
  intro st u st' hok htracks
  cases hok
  have hheld : st.draft.known.aHolds (.frame offset) = false := by
    by_contra hne
    have hmem : Operand.frame offset ∈ st.draft.known.a := by
      simpa [Knowledge.aHolds] using hne
    cases htracks _ hmem
  have hload : st.draft.loadA (.direct (.frame offset)) = st.draft.op .lda (.frame offset) := by
    simp [Draft.loadA, Draft.loadOperand, hheld]
  have hgrown := Grown.op st.draft .lda (.frame offset)
  rw [← hload] at hgrown
  exact ⟨⟨_, ⟨hgrown.code, hgrown.calls, le_rfl, hgrown.tracks⟩, .lda, by simp⟩, trivial⟩

end Naming

section Loose

variable {offset : UInt8}

theorem reaches_everywhere (value : Value) (n : ℕ) : ReachesValue everywhere value n :=
  fun _ _ _ _ _ _ => trivial

/-- The byte of a bit-field that is read. -/
theorem names_lowerLoadField {node : Node} {result : Temp} {src : Place} {field : BitField}
    (h : src.displaced field.byteOffset = .frameByte offset) :
    Lowers Extends c (Names offset) (lowerLoadField node result src field) fun _ => True := by
  refine quiet_checkField.next fun _ _ => lowers_commitOnly ?_
  rw [h]
  refine names_behind (Q := (· = .direct (.frame offset))) (.pure rfl trivial) fun byte hbyte => ?_
  rw [hbyte]
  refine names_behind (lowers_any (lays_destination everywhere result)) fun dst hdst => ?_
  split
  · rename_i first rest
    have hstore : Lays c (Growth.Plain everywhere) (storeA first) fun _ => True :=
      (lays_storeA (hdst _ (List.mem_cons_self ..))).plain
    refine names_before names_loadA fun _ _ => lowers_any ?_
    refine (Lowers.times _ (lays_bare (by rfl))).next fun _ _ => ?_
    simp only
    split
    · exact (lays_op (by rfl) (by trivial) (by rfl)).next fun _ _ => hstore
    · exact hstore
  · exact lays_internal _

/-- The byte of a bit-field that is written is read first. -/
theorem names_lowerStoreField {node : Node} {value : Value} {dest : Place} {field : BitField}
    (h : dest.displaced field.byteOffset = .frameByte offset) :
    Lowers Extends c (Names offset) (lowerStoreField node value dest field) fun _ => True := by
  refine quiet_checkField.next fun _ _ => lowers_commitOnly ?_
  rw [h]
  refine names_behind (Q := (· = .direct (.frame offset))) (.pure rfl trivial) fun byte hbyte => ?_
  rw [hbyte]
  have hstore : Lays c (Growth.Plain everywhere) (storeA (.direct (.frame offset)))
      fun _ => True :=
    (lays_storeA (show Sited everywhere (.direct (.frame offset)) from trivial)).plain
  simp only
  split
  · refine names_behind (Q := fun _ => True) (lowers_any (.still (fun st u st' hok => ?_) each_nil))
      fun _ _ => ?_
    · exact ⟨(checkConstant_ok hok).1, trivial⟩
    refine names_before names_loadA fun _ _ => lowers_any ?_
    refine (lays_op (by rfl) (by trivial) (by rfl)).next fun _ _ => ?_
    split
    · exact (lays_op (by rfl) (by trivial) (by rfl)).next fun _ _ => hstore
    · exact hstore
  · refine names_behind (lowers_any (lays_operandBytes (reaches_everywhere value _)))
      fun bytes hbytes => ?_
    split
    · refine names_behind (lowers_any lays_newVReg) fun shifted _ => ?_
      have hloadA := (lays_loadA (c := c) (hbytes _ (List.mem_cons_self ..))).plain
      refine names_behind (lowers_any hloadA) fun _ _ => ?_
      refine names_behind (lowers_any (Lowers.times _ (lays_bare (by rfl)))) fun _ _ => ?_
      refine names_behind (lowers_any (lays_op (by rfl) (by trivial) (by rfl))) fun _ _ => ?_
      refine names_behind (lowers_any (lays_storeA (sited_vreg shifted)).plain) fun _ _ => ?_
      refine names_before names_loadA fun _ _ => lowers_any ?_
      refine (lays_op (by rfl) (by trivial) (by rfl)).next fun _ _ => ?_
      exact (lays_op (by rfl) (by trivial) (by rfl)).next fun _ _ => hstore
    · exact lays_internal _

/-! ### Whole bodies -/

/-- **Every loose byte of a node is named.** -/
theorem names_lowerNode {node : Node} {next : Option Node} (h : offset ∈ looseBytes node) :
    Lowers Extends c (Names offset) (lowerNode node next) (TakesStore next) := by
  have hdone : ∀ {m : Lower Unit}, Lowers Extends c (Names offset) m (fun _ => True) →
      Lowers Extends c (Names offset) (do m; return false) (TakesStore next) := fun h =>
    names_before h fun _ _ => .pure (fun hf => by cases hf) trivial
  have hfield : ∀ {place : Place} {field : BitField},
      offset ∈ (frameByte? (place.displaced field.byteOffset)).toList →
      place.displaced field.byteOffset = .frameByte offset := by
    intro place field hmem
    rw [Option.mem_toList] at hmem
    cases hplace : place.displaced field.byteOffset with
    | frameByte first =>
      rw [hplace] at hmem
      exact congrArg _ (Option.some.inj hmem)
    | _ =>
      rw [hplace] at hmem
      cases hmem
  cases node with
  | loadField result src field => exact hdone (names_lowerLoadField (hfield h))
  | storeField value dest field => exact hdone (names_lowerStoreField (hfield h))
  | _ => exact (List.not_mem_nil h).elim

/-- The frame bytes of a node are among all. -/
theorem reached_everywhere (b : Binding) (node : Node) : Reached everywhere b node := by
  cases node <;> simp [Reached, ReachesResult, ReachesValue, Reaches, ReachesField, everywhere]

/-- The rules under which everything may be named. -/
def anyRules (c : Context) : Rules := reachRules everywhere c.bindings c.function c.binding

theorem fits_anyRules : Fits (anyRules c) c.bindings c.function c.binding :=
  fits_reachRules fun node _ => reached_everywhere _ node

/-- **Every loose byte of a body is named.** -/
theorem names_lowerBody (hbound : Bound c.convention c.bindings) : ∀ nodes : List Node,
    (∀ node ∈ nodes, node ∈ c.function.body) → (∃ node ∈ nodes, offset ∈ looseBytes node) →
      Lowers Extends c (Names offset) (lowerBody nodes) fun _ => True
  | [], _, ⟨_, h, _⟩ => (List.not_mem_nil h).elim
  | [node], hnodes, ⟨_, hmem, h⟩ => by
    obtain rfl := List.mem_singleton.mp hmem
    exact names_before (names_lowerNode h) fun _ _ => .pure trivial trivial
  | node :: next :: rest, hnodes, ⟨found, hmem, h⟩ => by
    have hnext := fun n hn => hnodes n (List.mem_cons_of_mem _ hn)
    have hrest := fun n hn => hnext n (List.mem_cons_of_mem _ hn)
    have hbody : ∀ nodes : List Node, (∀ node ∈ nodes, node ∈ c.function.body) →
        Lowers Extends c (fun _ => True) (lowerBody nodes) fun _ => True := fun nodes hnodes =>
      any (forms_lowerBody hbound fits_anyRules nodes hnodes)
    unfold lowerBody
    rcases List.mem_cons.mp hmem with rfl | hlater
    · refine names_before (names_lowerNode h) fun taken _ => ?_
      split
      · exact hbody rest hrest
      · exact hbody (next :: rest) hnext
    · refine names_behind (any (forms_lowerNode hbound
        (fits_anyRules.node (hnodes node (List.mem_cons_self ..))))) fun taken htaken => ?_
      split
      · -- The node that is left out is a store, and a store has no loose byte.
        rename_i htrue
        obtain ⟨value, dest, type, hstore⟩ := htaken htrue
        obtain rfl := Option.some.inj hstore
        rcases List.mem_cons.mp hlater with rfl | hfound
        · exact (List.not_mem_nil h).elim
        · exact names_lowerBody hbound rest hrest ⟨found, hfound, h⟩
      · exact names_lowerBody hbound (next :: rest) hnext ⟨found, hlater, h⟩

theorem names_function (hbound : Bound c.convention c.bindings)
    (h : ∃ node ∈ c.function.body, offset ∈ looseBytes node) :
    Lowers Extends c (Names offset) (do
      lowerBody c.function.body
      label (Naming.exitLabel c.function.name)) fun _ => True := by
  have hexit : Walks c (anyRules c) (fun _ => True) idle idle
      (label (Naming.exitLabel c.function.name)) fun _ => True :=
    walks_push (.label false trivial fun hstrict => hstrict.elim)
  exact names_before (names_lowerBody hbound _ (fun _ hn => hn) h) fun _ _ => any hexit

end Loose

/-! ### Whole functions -/

section Functions

variable {conv : Convention} {bindings : Std.TreeMap String Binding} {limits : Limits}
  {f : FunctionDef} {s : SelectedCode}

/-- A function that is selected has been bound. -/
theorem bound_of_selected (h : selectFunction conv bindings limits f = .ok s)
    (hbound : Bound conv bindings) : ∃ b, bindings[f.name]? = some b ∧
      Convention.returnKind? b.returnType = some b.returnKind := by
  cases hb : bindings[f.name]? with
  | some b =>
    obtain ⟨g, hg⟩ := hbound f.name b hb
    exact ⟨b, rfl, (bind_slots hg).2⟩
  | none =>
    unfold selectFunction at h
    simp only [hb] at h
    cases h

/-- The frame bytes that the code of a function names are in the frame or loose. -/
theorem named_within (h : selectFunction conv bindings limits f = .ok s)
    (hbound : Bound conv bindings) {opcode : Opcode} {offset : UInt8}
    (hmem : .op opcode (.frame offset) ∈ s.code) :
    offset < s.locals ∨ ∃ node ∈ f.body, offset ∈ looseBytes node := by
  obtain ⟨b, hb, hkind⟩ := bound_of_selected h hbound
  obtain ⟨-, -, -, -, -, -, -, hlocals, -, -, -⟩ := selectFunction_ok h hb
  have hfits : Fits (reachRules (fun o => o < s.locals ∨ ∃ node ∈ f.body, o ∈ looseBytes node)
      bindings f b) bindings f b := fits_reachRules fun node hnode =>
    reached_of_loose hlocals hnode hkind (fun _ => Or.inl) fun o ho => Or.inr ⟨node, hnode, ho⟩
  obtain ⟨es, hes⟩ := selected_outline h hb hbound hfits
  rw [hes.code] at hmem
  exact Walk.reach hes.walk opcode offset hmem

/-- The loose bytes of a function are named. -/
theorem names_loose (h : selectFunction conv bindings limits f = .ok s)
    (hbound : Bound conv bindings) {offset : UInt8}
    (hloose : ∃ node ∈ f.body, offset ∈ looseBytes node) :
    ∃ opcode, .op opcode (.frame offset) ∈ s.code := by
  obtain ⟨b, hb, -⟩ := bound_of_selected h hbound
  obtain ⟨temps, next, hidden, st₁, st₂, hincoming, hbody, -, -, hcode, -⟩ := selectFunction_ok h hb
  have htracks : TracksA (.create conv.zeroPage.pointerLo next) := fun o ho =>
    (List.not_mem_nil ho).elim
  obtain ⟨⟨es₁, hes₁, -⟩, -⟩ := lays_copyIncoming everywhere _ _ _ hincoming htracks
  obtain ⟨⟨es₂, hes₂, opcode, hmem⟩, -⟩ := names_function
    (c := { convention := conv, bindings, limits, function := f, binding := b, temps, hidden })
    hbound hloose _ _ _ hbody (hes₁.draft.tracks htracks)
  refine ⟨opcode, ?_⟩
  rw [hcode, hes₂.code]
  exact List.mem_append_right _ hmem

/-- **The frame bytes outside of the frame that the code names** are exactly the loose bytes that
lie outside of it.  So every access stays inside the frame unless a bit-field lies behind its
place. -/
theorem named_outside_iff (h : selectFunction conv bindings limits f = .ok s)
    (hbound : Bound conv bindings) (offset : UInt8) :
    (∃ opcode, .op opcode (.frame offset) ∈ s.code) ∧ ¬offset < s.locals ↔
      (∃ node ∈ f.body, offset ∈ looseBytes node) ∧ ¬offset < s.locals := by
  constructor
  · rintro ⟨⟨opcode, hmem⟩, houtside⟩
    exact ⟨(named_within h hbound hmem).resolve_left houtside, houtside⟩
  · rintro ⟨hloose, houtside⟩
    exact ⟨names_loose h hbound hloose, houtside⟩

/-- The bindings of a program come from its signatures. -/
theorem bound_bindAll {p : Program} (h : Compilation.bindAll conv p = .ok bindings) :
    Bound conv bindings := by
  intro name b hb
  obtain ⟨f, -, -, hf⟩ := (Calls.Pipeline.bindAll_spec h).mem_of_get name b hb
  exact ⟨f, hf⟩

end Functions

/-! ### A bit-field behind its place -/

def plainConvention : Convention where
  zeroPage := {}
  banking := false
  target := "null"
  bankSelect := 0xD301

/-- A function that reads a bit-field three bytes behind the start of its frame. -/
def fieldFunction : FunctionDef where
  signature := { name := "f", params := [], returnType := .void }
  body := [.loadField 0 (.frameByte 0) ⟨3, 0, 4⟩, .ret none]

/-- The program of this function alone. -/
def fieldProgram : Program := { name := "m", functions := [fieldFunction] }

/-- Its frame has one byte, and its code reads the fourth. -/
theorem field_outside : ∃ bindings s, Compilation.bindAll plainConvention fieldProgram = .ok bindings ∧
    selectFunction plainConvention bindings {} fieldFunction = .ok s ∧
      (∃ opcode, .op opcode (.frame 3) ∈ s.code) ∧ ¬3 < s.locals := by
  have hcheck : (Compilation.bindAll plainConvention fieldProgram >>= fun bindings =>
      selectFunction plainConvention bindings {} fieldFunction).toOption.any (·.locals = 1) = true := by
    decide +kernel
  obtain ⟨s, hs, hlocals⟩ := Computations.ok_of_any hcheck
  obtain ⟨bindings, hbind, hselect⟩ := Computations.bind_eq_ok.mp hs
  have houtside : ¬3 < s.locals := by
    rw [of_decide_eq_true hlocals]
    decide
  have hloose : ∃ node ∈ fieldFunction.body, 3 ∈ looseBytes node :=
    ⟨_, List.mem_cons_self .., by decide⟩
  exact ⟨bindings, s, hbind, hselect,
    (named_outside_iff hselect (bound_bindAll hbind) 3).mpr ⟨hloose, houtside⟩⟩

end Codegen6502.Proofs.Selecting.FrameReach
