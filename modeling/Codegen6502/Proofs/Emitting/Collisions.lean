import Codegen6502.Proofs.Emitting.Symbols
import Codegen6502.Proofs.Selecting.Branches

/-!
# Names that collide

The labels of a function are its name, an underscore and something without one, so labels of
different functions are different (`owner_unique`), and none is a name of the support code
(`IsMade.ne_support`).  Nothing keeps the program from giving such a name to a function or a
variable, though: `f_exit` is the exit of `f` and a name like any other.

* `areMade_of_selected`: what the labels of one function are, and that they are all different;
* `nodup_invented`: so are all names that are made up;
* `collision_iff`: a symbol is defined twice if and only if the program gives the name of a label.
-/

namespace Codegen6502.Proofs.Emitting.Collisions

open Compilation Computations Calls.Pipeline Calls.Table Calls.Emitted Calls.Components Symbols
open Selecting Selecting.Labelling Selecting.FrameReach
open Courses (labelsIn)

/-! ### Labels and their functions -/

/-- A label that belongs to a function: its name, an underscore and something without one. -/
def Owns (name : String) (rest : List Char) (label : String) : Prop :=
  '_' ∉ rest ∧ label.toList = name.toList ++ '_' :: rest

/-- Lists that are the same are divided by their last underscore in the same way. -/
theorem split_unique {front front' back back' : List Char} (hback : '_' ∉ back) (hback' : '_' ∉ back')
    (h : front ++ '_' :: back = front' ++ '_' :: back') : front = front' ∧ back = back' := by
  rcases List.append_eq_append_iff.mp h with ⟨mid, rfl, hmid⟩ | ⟨mid, rfl, hmid⟩ <;>
    cases mid with
    | nil => exact ⟨by simp, by simpa [eq_comm] using hmid⟩
    | cons c mid =>
      injection hmid with _ hmid
      simp [hmid] at hback hback'

/-- **A label belongs to one function.** -/
theorem owner_unique {name name' label : String} {rest rest' : List Char} (h : Owns name rest label)
    (h' : Owns name' rest' label) : name = name' := by
  have := (split_unique h.1 h'.1 (h.2.symm.trans h'.2)).1
  exact String.toList_inj.mp this

/-- A reserved label of a function whose name is not reserved is one of the function `_`. -/
theorem tail_of_reserved {name label : String} {rest tail : List Char} (h : Owns name rest label)
    (hname : Naming.isReserved name = false) (hlabel : label.toList = '_' :: '_' :: tail) :
    rest = tail := by
  have hsplit := h.2.symm.trans hlabel
  rcases hchars : name.toList with _ | ⟨c, _ | ⟨d, chars⟩⟩ <;> rw [hchars] at hsplit
  · injection hsplit with _ hrest
    exact absurd (hrest ▸ List.mem_cons_self ..) h.1
  · injection hsplit with _ hrest
    injection hrest
  · injection hsplit with hc hrest
    injection hrest with hd _
    have hreserved : Naming.isReserved name = true := by
      unfold Naming.isReserved
      rw [hchars, hc, hd]
      rfl
    rw [hname] at hreserved
    cases hreserved

/-- A label that is made for a function. -/
inductive IsMade (name : String) : String → Prop where
  | exit : IsMade name (Naming.exitLabel name)
  | node (id : LabelId) : IsMade name (Naming.nodeLabel name id)
  | inner (number : ℕ) : IsMade name (Naming.innerLabel name number)

/-- What is behind the last underscore of a label. -/
def IsSuffix (rest : List Char) : Prop :=
  rest = "exit".toList ∨ ∃ letter digits, rest = letter :: digits ∧ (letter = 'L' ∨ letter = 's') ∧
    ∀ c ∈ digits, c.isDigit = true

/-- Something other than the exit whose second character is not a digit. -/
theorem not_suffix {first second : Char} {rest : List Char}
    (hexit : first :: second :: rest ≠ "exit".toList) (hsecond : second.isDigit = false) :
    ¬IsSuffix (first :: second :: rest) := by
  rintro (h | ⟨letter, digits, h, -, hdigits⟩)
  · exact hexit h
  · injection h with _ hrest
    have := hdigits second (hrest ▸ List.mem_cons_self ..)
    rw [hsecond] at this
    cases this

theorem IsMade.owns {name label : String} (h : IsMade name label) :
    ∃ rest, Owns name rest label ∧ IsSuffix rest := by
  have hdigits : ∀ (letter : Char) (n : ℕ), letter = 'L' ∨ letter = 's' →
      '_' ∉ letter :: n.repr.toList ∧ IsSuffix (letter :: n.repr.toList) := by
    intro letter n hletter
    rw [Nat.toList_repr]
    refine ⟨?_, Or.inr ⟨letter, _, rfl, hletter, fun c hc =>
      Nat.isDigit_of_mem_toDigits (by decide) (by decide) hc⟩⟩
    rw [List.mem_cons, not_or]
    exact ⟨by rintro rfl; simp at hletter, Nat.underscore_not_in_toDigits⟩
  cases h with
  | exit => exact ⟨"exit".toList, ⟨by decide, by simp [Naming.exitLabel]⟩, Or.inl rfl⟩
  | node id =>
    obtain ⟨hnone, hsuffix⟩ := hdigits 'L' id.toNat (Or.inl rfl)
    exact ⟨_, ⟨hnone, by simp [Naming.nodeLabel, toString]⟩, hsuffix⟩
  | inner number =>
    obtain ⟨hnone, hsuffix⟩ := hdigits 's' number (Or.inr rfl)
    exact ⟨_, ⟨hnone, by simp [Naming.innerLabel, toString]⟩, hsuffix⟩

/-- Where two functions have a label in common. -/
theorem IsMade.name_eq {name name' label : String} (h : IsMade name label) (h' : IsMade name' label) :
    name = name' := by
  obtain ⟨rest, howns, -⟩ := h.owns
  obtain ⟨rest', howns', -⟩ := h'.owns
  exact owner_unique howns howns'

/-! ### Names of the support code -/

/-- A name of the support code: that of a routine or of a label in it, or that of a save area. -/
def IsSupport (label : String) : Prop :=
  (∃ r, label ∈ routineLabels r) ∨ ∃ function, label = Naming.saveArea function

theorem IsSupport.reserved {label : String} (h : IsSupport label) :
    ∃ tail, label.toList = '_' :: '_' :: tail ∧ ('_' ∈ tail ∨ ¬IsSuffix tail) := by
  rcases h with ⟨r, hr⟩ | ⟨function, rfl⟩
  · cases r with
    | trampoline bank =>
      obtain rfl := List.mem_singleton.mp hr
      exact ⟨"bank_tramp_".toList ++ (toString bank.toNat).toList,
        by simp [Routine.name, Naming.trampoline], Or.inl (by simp)⟩
    | trampolineReturn =>
      obtain rfl := List.mem_singleton.mp hr
      exact ⟨"tramp_return".toList, rfl, Or.inl (by decide)⟩
    | setJmp =>
      obtain rfl := List.mem_singleton.mp hr
      exact ⟨'s' :: 'e' :: "tjmp".toList, rfl, Or.inr (not_suffix (by decide) (by decide))⟩
    | longJmp =>
      obtain rfl | hr := List.mem_cons.mp hr
      · exact ⟨'l' :: 'o' :: "ngjmp".toList, rfl, Or.inr (not_suffix (by decide) (by decide))⟩
      · obtain rfl := List.mem_singleton.mp hr
        exact ⟨"longjmp_nz".toList, rfl, Or.inl (by decide)⟩
  · exact ⟨"isr_save_".toList ++ function.toList, by simp [Naming.saveArea], Or.inl (by simp)⟩

theorem IsSupport.isReserved {label : String} (h : IsSupport label) :
    Naming.isReserved label = true := by
  obtain ⟨tail, htail, -⟩ := h.reserved
  rw [Naming.isReserved, htail]
  rfl

/-- **No label of a function is a name of the support code**, unless the function has a reserved
name. -/
theorem IsMade.ne_support {name label : String} (h : IsMade name label)
    (hname : Naming.isReserved name = false) : ¬IsSupport label := by
  intro hsupport
  obtain ⟨rest, howns, hsuffix⟩ := h.owns
  obtain ⟨tail, hlabel, htail⟩ := hsupport.reserved
  obtain rfl := tail_of_reserved howns hname hlabel
  exact htail.elim howns.1 fun hnot => hnot hsuffix

/-! ### Labels of a function -/

theorem nodeLabel_injective {name : String} : Function.Injective (Naming.nodeLabel name) :=
  fun _ _ h => UInt32.toNat_inj.mp (Nat.repr_injective ((String.append_right_inj _).mp h))

/-- Label nodes that stand once each have labels of their own. -/
theorem nodup_ownLabels (name : String) : ∀ body : List Node,
    (∀ id, body.count (.label id) ≤ 1) → (body.flatMap (ownLabels name)).Nodup
  | [], _ => List.nodup_nil
  | node :: rest, honce => by
    have hrest := nodup_ownLabels name rest fun id => (List.count_le_count_cons ..).trans (honce id)
    rw [List.flatMap_cons, List.nodup_append']
    refine ⟨?_, hrest, ?_⟩
    · unfold ownLabels
      split <;> simp
    · intro label hlabel hmem
      obtain ⟨node', hnode', hlabel'⟩ := List.mem_flatMap.mp hmem
      cases node with
      | label id =>
        obtain rfl := List.mem_singleton.mp hlabel
        cases node' with
        | label id' =>
          obtain rfl := nodeLabel_injective (List.mem_singleton.mp hlabel')
          have hcount := honce id
          rw [List.count_cons_self] at hcount
          have := List.count_pos_iff.mpr hnode'
          omega
        | _ => exact absurd hlabel' List.not_mem_nil
      | _ => exact absurd hlabel List.not_mem_nil

variable {conv : Convention} {bindings : Std.TreeMap String Binding} {limits : Limits}
  {f : FunctionDef} {code : SelectedCode} {b : Binding}

theorem mem_ownLabels {name label : String} {body : List Node}
    (h : label ∈ body.flatMap (ownLabels name)) : ∃ id, label = Naming.nodeLabel name id := by
  obtain ⟨node, -, hlabel⟩ := List.mem_flatMap.mp h
  cases node with
  | label id => exact ⟨id, List.mem_singleton.mp hlabel⟩
  | _ => exact absurd hlabel List.not_mem_nil

theorem nodeLabel_mem_ownLabels {name : String} {id : LabelId} {body : List Node} :
    Naming.nodeLabel name id ∈ body.flatMap (ownLabels name) ↔ .label id ∈ body := by
  constructor
  · intro h
    obtain ⟨node, hnode, hlabel⟩ := List.mem_flatMap.mp h
    cases node with
    | label id' =>
      obtain rfl := nodeLabel_injective (List.mem_singleton.mp hlabel)
      exact hnode
    | _ => exact absurd hlabel List.not_mem_nil
  · exact fun h => List.mem_flatMap.mpr ⟨_, h, List.mem_singleton_self _⟩

/-- What is known of the labels of a function: they are different, the exit is one of them, a label
node has one if and only if it is placed, and the others are numbered. -/
structure AreMade (f : FunctionDef) (labels : List String) : Prop where
  nodup : labels.Nodup
  exit : Naming.exitLabel f.name ∈ labels
  node : ∀ id, Naming.nodeLabel f.name id ∈ labels ↔ .label id ∈ f.body
  all : ∀ label ∈ labels, IsMade f.name label

/-- **The labels of a function** whose label nodes stand once each. -/
theorem areMade_of_selected (h : selectFunction conv bindings limits f = .ok code)
    (hb : bindings[f.name]? = some b) (hbound : Bodies.Bound conv bindings)
    (honce : ∀ id, f.body.count (.label id) ≤ 1) : AreMade f (labelsIn code.code) := by
  obtain ⟨numbers, hnumbers, hperm⟩ := labels_of_selected h hb hbound
  have hmem : ∀ label, label ∈ labelsIn code.code ↔ label = Naming.exitLabel f.name ∨
      label ∈ f.body.flatMap (ownLabels f.name) ∨
        ∃ n ∈ numbers, Naming.innerLabel f.name n = label := fun label => by
    rw [hperm.mem_iff, List.mem_cons, List.mem_append, List.mem_map]
  refine ⟨?_, (hmem _).mpr (Or.inl rfl), fun id => ?_, fun label hlabel => ?_⟩
  · rw [hperm.nodup_iff, List.nodup_cons, List.nodup_append']
    refine ⟨fun hmem => ?_, nodup_ownLabels f.name f.body honce,
      hnumbers.map innerLabel_injective, fun label hlabel hmem => ?_⟩
    · rcases List.mem_append.mp hmem with hlabel | hlabel
      · obtain ⟨id, hid⟩ := mem_ownLabels hlabel
        exact nodeLabel_ne_exitLabel f.name id hid.symm
      · obtain ⟨n, -, hn⟩ := List.mem_map.mp hlabel
        exact innerLabel_ne_exitLabel f.name n hn
    · obtain ⟨id, rfl⟩ := mem_ownLabels hlabel
      obtain ⟨n, -, hn⟩ := List.mem_map.mp hmem
      exact Branches.nodeLabel_ne_innerLabel f.name id n hn.symm
  · rw [hmem, nodeLabel_mem_ownLabels]
    refine ⟨fun h => ?_, fun h => Or.inr (Or.inl h)⟩
    rcases h with hexit | hnode | ⟨n, -, hn⟩
    · exact absurd hexit (nodeLabel_ne_exitLabel f.name id)
    · exact hnode
    · exact absurd hn.symm (Branches.nodeLabel_ne_innerLabel f.name id n)
  · rcases (hmem label).mp hlabel with rfl | hlabel | ⟨n, -, rfl⟩
    · exact .exit
    · obtain ⟨id, rfl⟩ := mem_ownLabels hlabel
      exact .node id
    · exact .inner n

/-! ### Names of a program -/

/-- A program whose names are different and not reserved, and in which no function places a label
twice. -/
structure Distinct (p : Program) : Prop where
  names : (p.functions.map (·.name) ++ p.globals.map (·.name)).Nodup
  free : ∀ name ∈ p.functions.map (·.name) ++ p.globals.map (·.name), Naming.isReserved name = false
  placed : ∀ f ∈ p.functions, ∀ id, f.body.count (.label id) ≤ 1

variable {target : Target} {options : Options} {p : Program} {s : Stages} {x : Compilation}

theorem Distinct.of_defined (h : Distinct p) {f : FunctionDef} (hf : f ∈ defined p) :
    Naming.isReserved f.name = false :=
  h.free _ (List.mem_append_left _ (List.mem_map_of_mem (List.mem_filter.mp hf).1))

/-- No function of such a program has the name of a support routine. -/
theorem Distinct.apart (h : Distinct p)
    (hstart : Started (conventionOf target options) options.limits p x) : Apart x := by
  intro r _
  cases hcode : x.selected[r.name]? with
  | none => rfl
  | some code =>
    obtain ⟨f, hf, hname, -⟩ := hstart.selected.mem_of_get _ code hcode
    have hsupport : IsSupport r.name := Or.inl ⟨r, List.mem_cons_self ..⟩
    have hreserved := hsupport.isReserved
    rw [← hname, h.of_defined hf] at hreserved
    cases hreserved

/-- The names that such a program gives are different and not reserved. -/
theorem given_spec (h : Distinct p) :
    (given p).Nodup ∧ ∀ name ∈ given p, Naming.isReserved name = false := by
  have hperm : (given p).Perm ((defined p).map (·.name) ++
      ((declared p).filter (·.address.isSome)).map (·.name) ++ p.globals.map (·.name)) := by
    unfold given
    rw [List.append_assoc, List.append_assoc]
    exact List.perm_append_comm.append_left _
  have hsub : ((defined p).map (·.name) ++ ((declared p).filter (·.address.isSome)).map (·.name) ++
      p.globals.map (·.name)).Sublist
        ((defined p ++ declared p).map (·.name) ++ p.globals.map (·.name)) := by
    rw [List.map_append]
    exact ((List.Sublist.refl _).append (List.filter_sublist.map _)).append (List.Sublist.refl _)
  have hsplit : (defined p ++ declared p).Perm p.functions := by
    have := List.filter_append_perm (fun f : FunctionDef => !f.isExternal) p.functions
    simpa only [defined, declared, Bool.not_not] using this
  have hall := (hsplit.map (·.name)).append_right (p.globals.map (·.name))
  exact ⟨hperm.nodup_iff.mpr ((hall.nodup_iff.mpr h.names).sublist hsub), fun name hname =>
    h.free name (hall.mem_iff.mp (hsub.subset (hperm.mem_iff.mp hname)))⟩

theorem areMade_made (h : Distinct p)
    (hstart : Started (conventionOf target options) options.limits p x) {f : FunctionDef}
    (hf : f ∈ defined p) : AreMade f (made x f) := by
  obtain ⟨code, hselect, hcode⟩ := hstart.selected.get_of_mem f hf
  obtain ⟨hmem, -⟩ := List.mem_filter.mp hf
  obtain ⟨b, -, hb⟩ := hstart.bindings.get_of_mem f hmem
  have hbound : Bodies.Bound (conventionOf target options) x.bindings := fun name b hb => by
    obtain ⟨f, -, -, hbind⟩ := hstart.bindings.mem_of_get name b hb
    exact ⟨f, hbind⟩
  rw [show made x f = labelsIn code.code by rw [made, hcode]]
  exact areMade_of_selected hselect hb hbound (h.placed f hmem)

theorem routine_unique {r r' : Routine} {label : String} (h : label ∈ routineLabels r)
    (h' : label ∈ routineLabels r') : r = r' := by
  have hlist : ∃ l ∈ (routineLabels r).map String.toList, l ∈ (routineLabels r').map String.toList :=
    ⟨_, List.mem_map_of_mem h, List.mem_map_of_mem h'⟩
  cases r <;> cases r' <;> simp [routineLabels, Routine.name, Naming.trampoline,
    Naming.trampolineReturn, Naming.setJmp, Naming.longJmp] at hlist ⊢
  exact UInt8.toNat_inj.mp (Nat.repr_injective (String.toList_inj.mp (by
    rwa [Nat.toList_repr, Nat.toList_repr])))

theorem rank_injective : Function.Injective Routine.rank := by
  intro r r' h
  cases r with
  | trampoline bank =>
    have := bank.toNat_lt
    cases r' with
    | trampoline bank' => exact congrArg _ (UInt8.toNat_inj.mp h)
    | _ => simp only [Routine.rank] at h; omega
  | _ =>
    cases r' with
    | trampoline bank' =>
      have := bank'.toNat_lt
      simp only [Routine.rank] at h
      omega
    | _ => first | rfl | simp [Routine.rank] at h

/-- The labels of the support routines are all different. -/
theorem nodup_routineLabels (hstart : Started (conventionOf target options) options.limits p x) :
    (x.routines.flatMap routineLabels).Nodup := by
  have hsorted : ∀ routines : List Routine, (Routine.sorted routines).Nodup := fun routines => by
    have hranks := @List.pairwise_mergeSort Routine (fun r r' => decide (r.rank ≤ r'.rank))
      (fun r r' r'' hle hle' =>
        decide_eq_true (Nat.le_trans (of_decide_eq_true hle) (of_decide_eq_true hle')))
      (fun r r' => by simp [Nat.le_total]) routines
    exact nodup_eraseReps_of_sorted (fun r r' hle hge => rank_injective
      (Nat.le_antisymm (of_decide_eq_true hle) (of_decide_eq_true hge))) hranks
  have hroutines : x.routines.Nodup := hstart.routines_eq ▸ hsorted _
  refine List.nodup_flatMap.mpr ⟨fun r _ => ?_, hroutines.imp fun hne label hlabel hlabel' =>
    hne (routine_unique hlabel hlabel')⟩
  cases r <;> simp [routineLabels, Routine.name, Naming.longJmp]

theorem saveArea_ne {r : Routine} {label function : String} (h : label ∈ routineLabels r) :
    label ≠ Naming.saveArea function := by
  rintro rfl
  have hlist := List.mem_map_of_mem (f := String.toList) h
  cases r <;> simp [routineLabels, Routine.name, Naming.trampoline, Naming.saveArea,
    Naming.trampolineReturn, Naming.setJmp, Naming.longJmp] at hlist

/-- **All names that are made up are different.** -/
theorem nodup_invented (h : stages target options p = .ok s) (hdistinct : Distinct p) :
    (invented p s).Nodup := by
  have hstart := start_spec (passed h).started
  obtain ⟨hobjects, hareas⟩ := saveAreas_spec h
  have hsupport : ∀ name ∈ (saveAreas p s).map (·.name),
      ∃ function, name = Naming.saveArea function := by
    intro name hname
    obtain ⟨o, ho, rfl⟩ := List.mem_map.mp hname
    exact hareas o ho
  have hmade : ∀ {label}, label ∈ (defined p).flatMap (made s.compilation) → ¬IsSupport label := by
    intro label hlabel
    obtain ⟨f, hf, hlabel⟩ := List.mem_flatMap.mp hlabel
    exact ((areMade_made hdistinct hstart hf).all label hlabel).ne_support (hdistinct.of_defined hf)
  unfold invented
  rw [List.nodup_append', List.nodup_append']
  refine ⟨⟨nodup_routineLabels hstart, ?_, fun label hlabel hmem => ?_⟩, ?_,
    fun label hlabel hmem => ?_⟩
  · refine List.nodup_flatMap.mpr ⟨fun f hf => (areMade_made hdistinct hstart hf).nodup, ?_⟩
    refine (List.pairwise_map.mp hstart.selected.nodup).imp_of_mem ?_
    intro f g hf hg hne label hlabel hlabel'
    exact hne (((areMade_made hdistinct hstart hf).all label hlabel).name_eq
      ((areMade_made hdistinct hstart hg).all label hlabel'))
  · obtain ⟨r, -, hr⟩ := List.mem_flatMap.mp hlabel
    exact hmade hmem (Or.inl ⟨r, hr⟩)
  · exact (hobjects ▸ (Contents.data_stages h).nodup).of_append_right
  · obtain ⟨function, rfl⟩ := hsupport label hmem
    rcases List.mem_append.mp hlabel with hlabel | hlabel
    · obtain ⟨r, -, hr⟩ := List.mem_flatMap.mp hlabel
      exact saveArea_ne hr rfl
    · exact hmade hlabel (Or.inr ⟨function, rfl⟩)

theorem mem_invented (h : stages target options p = .ok s) {name : String}
    (hname : name ∈ invented p s) :
    IsSupport name ∨ ∃ f ∈ defined p, name ∈ made s.compilation f := by
  rcases List.mem_append.mp hname with hname | hname
  · rcases List.mem_append.mp hname with hname | hname
    · obtain ⟨r, -, hr⟩ := List.mem_flatMap.mp hname
      exact Or.inl (Or.inl ⟨r, hr⟩)
    · exact Or.inr (List.mem_flatMap.mp hname)
  · obtain ⟨o, ho, rfl⟩ := List.mem_map.mp hname
    exact Or.inl (Or.inr ((saveAreas_spec h).2 o ho))

/-- **When names collide**: all that is made up is different, and a symbol is defined twice if and
only if the program gives the name of a label of a function. -/
theorem collision_iff (h : stages target options p = .ok s) (hvalid : options.validate = .ok ())
    (hdistinct : Distinct p) :
    (symbols s.emission).Perm (given p ++ invented p s) ∧ (invented p s).Nodup ∧
    (∀ f ∈ defined p, AreMade f (made s.compilation f)) ∧
    ((∃ name, compile target.name options p = .error (definedAgain name)) ↔
      ∃ f ∈ defined p, ∃ name ∈ given p, name ∈ made s.compilation f) := by
  have hpassed := passed h
  have hstart := start_spec hpassed.started
  have hsymbols := symbols_emitted h (hdistinct.apart hstart)
  have hinvented := nodup_invented h hdistinct
  refine ⟨hsymbols, hinvented, fun f hf => areMade_made hdistinct hstart hf, ?_⟩
  have hcompile : compile target.name options p = s.emission.output target options.map := by
    have htarget : Target.ofName target.name = .ok target := by cases target <;> rfl
    unfold compile
    rw [hvalid, htarget]
    change (emitProgram target options p >>= _) = _
    rw [emitProgram_eq, h]
    rfl
  rw [hcompile, output_definedAgain_iff target options.map (Contents.closed_emitted hpassed),
    hsymbols.nodup_iff]
  obtain ⟨hgiven, hfree⟩ := given_spec hdistinct
  constructor
  · intro hnot
    by_contra hnone
    refine hnot (List.nodup_append'.mpr ⟨hgiven, hinvented, fun name hname hmem => ?_⟩)
    -- A name that the program gives is not reserved, so of what is made up it can only be a label.
    rcases mem_invented h hmem with hsupport | ⟨f, hf, hmade⟩
    · have hreserved := hsupport.isReserved
      rw [hfree name hname] at hreserved
      cases hreserved
    · exact hnone ⟨f, hf, name, hname, hmade⟩
  · rintro ⟨f, hf, name, hname, hmade⟩ hnodup
    exact (List.nodup_append'.mp hnodup).2.2 hname (List.mem_append_left _
      (List.mem_append_right _ (List.mem_flatMap.mpr ⟨f, hf, hmade⟩)))

/-- A function, and one with the name of its exit. -/
def collidingProgram : Program where
  name := "m"
  functions := [
    { signature := { name := "f", params := [], returnType := .void }, body := [.ret none] },
    { signature := { name := "f_exit", params := [], returnType := .void }, body := [.ret none] }]

/-- **A function with the name of an exit** collides with it. -/
theorem exit_collides : ({} : Options).validate = .ok () ∧ Distinct collidingProgram ∧
    ∃ s, stages .nothing {} collidingProgram = .ok s ∧ (invented collidingProgram s).Nodup ∧
      ∃ name, compile "null" {} collidingProgram = .error (definedAgain name) := by
  have hvalid : ({} : Options).validate = .ok () := by decide
  have hdistinct : Distinct collidingProgram := by
    have hbody : ∀ f ∈ collidingProgram.functions, f.body = [.ret none] := by decide
    refine ⟨by decide, by decide, fun f hf id => ?_⟩
    rw [hbody f hf, List.count_eq_zero.mpr (by simp)]
    exact Nat.zero_le 1
  have hok : (stages .nothing {} collidingProgram).toOption.any (fun _ => true) = true := by
    decide +kernel
  obtain ⟨s, hs, -⟩ := ok_of_any hok
  obtain ⟨-, hnodup, hmade, hiff⟩ := collision_iff hs hvalid hdistinct
  have hf : collidingProgram.functions[0] ∈ defined collidingProgram := by decide
  exact ⟨hvalid, hdistinct, s, hs, hnodup,
    hiff.mpr ⟨_, hf, "f_exit", by decide, (hmade _ hf).exit⟩⟩

end Codegen6502.Proofs.Emitting.Collisions
