import Codegen6502.Json.Decode
import Mathlib.Data.List.Lookmap

/-!
# JSON with members left out

A form says which members of a kind of value may be left out, and what their absence stands for.
Where a value is read through a form (`Recovers`), it comes back from its JSON with any members left
out that stand for what they held, and not at all once a member is missing that has to be there.

* `Form`: leaving out members of a value and of its parts; `record`, `oneOf`, `listOf`, `nullable`;
* `Recovers`, `Agrees`: a reader against a form and a writer;
* `Rows`, `Rows.field`, `record_recovers`: a record is read field by field;
* `bare_recovers`, `carrying_recovers`: a sum type is read case by case.
-/

namespace Codegen6502.Proofs.Programs.Pruning

open Json

variable {α β : Type}

/-! ### Forms -/

/-- `form broken j j'`: `j'` is `j` with members left out.  `broken` says that one of them has to be
there. -/
abbrev Form := Bool → Json → Json → Prop

/-- A value without members, which is not `null`. -/
inductive scalar : Form
  | intro {j : Json} : j ≠ .null → scalar false j j

/-- A list, whose elements may be pruned. -/
inductive Elements (form : Form) : Bool → List Json → List Json → Prop
  | nil : Elements form false [] []
  | cons {b c : Bool} {j j' : Json} {js js' : List Json} : form b j j' → Elements form c js js' →
      Elements form (b || c) (j :: js) (j' :: js')

inductive listOf (form : Form) : Form
  | intro {b : Bool} {js js' : List Json} : Elements form b js js' →
      listOf form b (.arr js) (.arr js')

/-- A value that may be `null`. -/
inductive nullable (form : Form) : Form
  | null : nullable form false .null .null
  | value {b : Bool} {j j' : Json} : j ≠ .null → form b j j' → nullable form b j j'

/-- A member of a record: the value that its absence stands for, if it may be absent, and the form
of its values. -/
structure Field where
  name : String
  absent : Option Json
  form : Form

/-- A member that has to be there. -/
def needed (name : String) (form : Form) : Field := ⟨name, none, form⟩

/-- A member that stands for a value of its own when absent. -/
def defaulted (name : String) (absent : Json) (form : Form) : Field := ⟨name, some absent, form⟩

/-- A member that may be `null` or absent. -/
def optional (name : String) (form : Form) : Field := defaulted name .null (nullable form)

/-- What is left of one member. -/
inductive Member (f : Field) : Bool → Json → Option Json → Prop
  | kept {b : Bool} {j j' : Json} : f.form b j j' → Member f b j (some j')
  | defaulted {j : Json} : f.absent = some j → Member f false j none
  | missing {j : Json} : f.absent = none → Member f true j none

/-- A member that is there or not. -/
def entry (name : String) (left : Option Json) : List (String × Json) :=
  match left with
  | some j => [(name, j)]
  | none => []

/-- What is left of the members of a record. -/
inductive Members : List Field → Bool → List (String × Json) → List (String × Json) → Prop
  | nil : Members [] false [] []
  | cons {f : Field} {fs : List Field} {b c : Bool} {j : Json} {o : Option Json}
      {ms ms' : List (String × Json)} : Member f b j o → Members fs c ms ms' →
      Members (f :: fs) (b || c) ((f.name, j) :: ms) (entry f.name o ++ ms')

inductive record (fields : List Field) : Form
  | intro {b : Bool} {ms ms' : List (String × Json)} : Members fields b ms ms' →
      record fields b (.obj ms) (.obj ms')

/-- A case with or without data.  The member that carries the data has to be there. -/
inductive oneOf (tags : List (String × Option Form)) : Form
  | bare {tag : String} : tags.lookup tag = some none → oneOf tags false (.str tag) (.str tag)
  | carrying {tag : String} {form : Form} {b : Bool} {d d' : Json} :
      tags.lookup tag = some (some form) → form b d d' →
      oneOf tags b (tagged tag d) (tagged tag d')
  | emptied {tag : String} {d : Json} : oneOf tags true (tagged tag d) (.obj [])

/-! ### Reading what is left -/

/-- What a reader makes of a value that is whole, or of one that is broken. -/
def intact (broken : Bool) (a : α) : Option α := if broken then none else some a

@[simp] theorem intact_false (a : α) : intact false a = some a := rfl

@[simp] theorem intact_true (a : α) : intact true a = none := rfl

theorem intact_bind (b c : Bool) (a : α) {f : α → Option β} {x : β} (h : f a = intact c x) :
    (intact b a).bind f = intact (b || c) x := by
  cases b with
  | false => exact h
  | true => rfl

theorem intact_map (b : Bool) (a : α) (f : α → β) : (intact b a).map f = intact b (f a) := by
  cases b <;> rfl

/-- **A value is recovered** from its JSON, whole or pruned. -/
structure Recovers (form : Form) (read : Json → Option α) (j : Json) (a : α) : Prop where
  whole : form false j j
  reads : ∀ {b j'}, form b j j' → read j' = intact b a

/-- Everything that is written is recovered. -/
def Agrees (form : Form) (read : Json → Option α) (write : α → Json) : Prop :=
  ∀ a, Recovers form read (write a) a

/-- Nothing of the form turns into `null`. -/
def NeverNull (form : Form) : Prop := ∀ {b j}, ¬form b j .null

theorem scalar_neverNull : NeverNull scalar := fun h => by
  cases h with
  | intro hne => exact hne rfl

theorem listOf_neverNull (form : Form) : NeverNull (listOf form) := fun h => by cases h

theorem record_neverNull (fields : List Field) : NeverNull (record fields) := fun h => by cases h

theorem oneOf_neverNull (tags : List (String × Option Form)) : NeverNull (oneOf tags) :=
  fun h => by cases h

theorem scalar_recovers {read : Json → Option α} {j : Json} {a : α} (hne : j ≠ .null)
    (hread : read j = some a) : Recovers scalar read j a where
  whole := .intro hne
  reads h := by
    cases h
    exact hread

/-- A value that is read from another one. -/
theorem Recovers.map {form : Form} {read : Json → Option α} {j : Json} {a : α}
    (h : Recovers form read j a) (f : α → β) :
    Recovers form (fun j => (read j).map f) j (f a) where
  whole := h.whole
  reads hform := by rw [h.reads hform, intact_map]

/-! ### Lists and absent values -/

theorem elements_recover {form : Form} {read : Json → Option α} {write : α → Json}
    (h : Agrees form read write) {b : Bool} {as : List α} {js : List Json}
    (hjs : Elements form b (as.map write) js) : js.mapM read = intact b as := by
  induction as generalizing b js with
  | nil => cases hjs; rfl
  | cons a as ih =>
    cases hjs with
    | cons hfirst hrest =>
      rw [List.mapM_cons, (h a).reads hfirst]
      exact intact_bind _ _ _ (by rw [ih hrest]; cases ‹Bool› <;> rfl)

theorem elements_whole {form : Form} {read : Json → Option α} {write : α → Json}
    (h : Agrees form read write) : ∀ as : List α, Elements form false (as.map write) (as.map write)
  | [] => .nil
  | a :: as => .cons (b := false) (h a).whole (elements_whole h as)

theorem listOf_agrees {form : Form} {read : Json → Option α} {write : α → Json}
    (h : Agrees form read write) : Agrees (listOf form) (list? read) (ofList write) := fun as =>
  { whole := .intro (elements_whole h as)
    reads := fun hform => by
      cases hform with
      | intro hjs => exact elements_recover h hjs }

theorem nullable?_of_ne {read : Json → Option α} {j : Json} (h : j ≠ .null) :
    nullable? read j = (read j).map some := by
  cases j <;> first | rfl | exact absurd rfl h

theorem nullable_agrees {form : Form} {read : Json → Option α} {write : α → Json}
    (h : Agrees form read write) (hnull : NeverNull form) :
    Agrees (nullable form) (nullable? read) (ofOption write)
  | none =>
    { whole := .null
      reads := fun hform => by
        cases hform with
        | null => rfl
        | value hne => exact absurd rfl hne }
  | some a =>
    have hne : write a ≠ .null := fun heq => by
      have hwhole := (h a).whole
      rw [heq] at hwhole
      exact hnull hwhole
    { whole := .value hne (h a).whole
      reads := fun {b j'} hform => by
        replace hform : nullable form b (write a) j' := hform
        generalize hj : write a = j at hform
        cases hform with
        | null => exact absurd hj hne
        | value _ hvalue =>
          subst hj
          have hne' : j' ≠ .null := fun heq => by
            rw [heq] at hvalue
            exact hnull hvalue
          rw [nullable?_of_ne hne', (h a).reads hvalue, intact_map] }

/-! ### Records -/

theorem lookup_entry {name key : String} {left : Option Json} {ms : List (String × Json)} :
    (entry name left ++ ms).lookup key =
      if key = name then left.or (ms.lookup key) else ms.lookup key := by
  unfold entry
  cases left with
  | none => simp
  | some j =>
    rw [List.singleton_append, List.lookup_cons]
    by_cases h : key = name
    · simp [h]
    · simp [h, beq_false_of_ne h]

/-- The members that are left are some of the fields, in order. -/
theorem members_sublist {fs : List Field} {b : Bool} {ms ms' : List (String × Json)}
    (h : Members fs b ms ms') : (ms'.map (·.1)).Sublist (fs.map Field.name) := by
  induction h with
  | nil => exact .slnil
  | @cons f _ _ _ _ left _ _ _ _ ih =>
    cases left with
    | none => exact ih.cons _
    | some j => exact ih.cons_cons _

theorem Members.keep {f : Field} {fs : List Field} {b : Bool} {j j' : Json}
    {ms ms' : List (String × Json)} (h : f.form false j j') (hrest : Members fs b ms ms') :
    Members (f :: fs) b ((f.name, j) :: ms) ((f.name, j') :: ms') :=
  .cons (b := false) (o := some j') (.kept h) hrest

theorem Members.leave {f : Field} {fs : List Field} {b : Bool} {j : Json}
    {ms ms' : List (String × Json)} (h : f.absent = some j) (hrest : Members fs b ms ms') :
    Members (f :: fs) b ((f.name, j) :: ms) ms' :=
  .cons (b := false) (o := none) (.defaulted h) hrest

theorem Members.lose {f : Field} {fs : List Field} {b : Bool} {j : Json}
    {ms ms' : List (String × Json)} (h : f.absent = none) (hrest : Members fs b ms ms') :
    Members (f :: fs) true ((f.name, j) :: ms) ms' :=
  .cons (b := true) (o := none) (.missing h) hrest

theorem record?_members {fs : List Field} {b : Bool} {ms ms' : List (String × Json)}
    (hnames : (fs.map Field.name).Nodup) (h : Members fs b ms ms') :
    Json.record? (fs.map Field.name) (.obj ms') = some ⟨false, ms'⟩ := by
  have hsub := members_sublist h
  have hall : (ms'.filter fun m => (fs.map Field.name).contains m.1) = ms' :=
    List.filter_eq_self.mpr fun m hm =>
      List.contains_iff_mem.mpr (hsub.subset (List.mem_map_of_mem hm))
  simp only [Json.record?]
  rw [hall, if_pos (hnames.sublist hsub)]

/-- One field of a record is read whole or broken, as it is left. -/
def Reads (f : Field) (get : Record → Option α) (j : Json) (a : α) : Prop :=
  f.form false j j ∧ ∀ {b left} {r : Record}, r.positional = false → r.get? f.name = left →
    Member f b j left → get r = intact b a

/-- **Fields are read one after the other.**  `get` reads them off a record, `ms` are the members
that hold them. -/
structure Rows (fs : List Field) (get : Record → Option α) (ms : List (String × Json)) (a : α) :
    Prop where
  whole : Members fs false ms ms
  reads : ∀ {b ms'} {r : Record}, r.positional = false → (fs.map Field.name).Nodup →
    (∀ f ∈ fs, r.get? f.name = ms'.lookup f.name) → Members fs b ms ms' → get r = intact b a

theorem Rows.done (a : α) : Rows [] (fun _ => some a) [] a where
  whole := .nil
  reads _ _ _ h := by
    cases h
    rfl

theorem Rows.field {f : Field} {fs : List Field} {get : Record → Option α}
    {next : α → Record → Option β} {j : Json} {ms : List (String × Json)} {a : α} {x : β}
    (hfirst : Reads f get j a) (hrest : Rows fs (next a) ms x) :
    Rows (f :: fs) (fun r => get r >>= fun a => next a r) ((f.name, j) :: ms) x where
  whole := .keep hfirst.1 hrest.whole
  reads {b ms' r} hpos hnames hget h := by
    cases h with
    | @cons _ _ b c _ left _ rest hmember hmembers =>
      rw [List.map_cons, List.nodup_cons] at hnames
      have hlater : rest.lookup f.name = none := by
        rw [List.lookup_eq_none_iff]
        intro m hm
        have : m.1 ∈ fs.map Field.name :=
          (members_sublist hmembers).subset (List.mem_map_of_mem hm)
        exact bne_iff_ne.mpr fun heq => hnames.1 (heq ▸ this)
      have hhere : r.get? f.name = left := by
        rw [hget f List.mem_cons_self, lookup_entry, if_pos rfl, hlater, Option.or_none]
      have hthere : ∀ f' ∈ fs, r.get? f'.name = rest.lookup f'.name := fun f' hf' => by
        have hne : f'.name ≠ f.name := fun heq => hnames.1 (heq ▸ List.mem_map_of_mem hf')
        rw [hget f' (List.mem_cons_of_mem _ hf'), lookup_entry, if_neg hne]
      show (get r).bind _ = _
      rw [hfirst.2 hpos hhere hmember]
      exact intact_bind _ _ _ (hrest.reads hpos hnames.2 hthere hmembers)

/-- A field that has to be there. -/
theorem reads_required {form : Form} {read : Json → Option α} {j : Json} {a : α} {name : String}
    (h : Recovers form read j a) :
    Reads (needed name form) (fun r => r.required name read) j a :=
  ⟨h.whole, fun {b left r} _ hget hmember => by
    replace hget : r.get? name = left := hget
    simp only [Record.required, hget]
    cases hmember with
    | kept hform => exact h.reads hform
    | defaulted habsent => cases habsent
    | missing => rfl⟩

/-- A field with a value of its own when absent. -/
theorem reads_withDefault {form : Form} {read : Json → Option α} {write : α → Json}
    {a default : α} {name : String} {absent : Json} (h : Agrees form read write)
    (hdefault : absent = write default) :
    Reads (defaulted name absent form) (fun r => r.withDefault name default read) (write a) a :=
  ⟨(h a).whole, fun {b left r} _ hget hmember => by
    replace hget : r.get? name = left := hget
    simp only [Record.withDefault, hget]
    cases hmember with
    | kept hform => exact (h a).reads hform
    | defaulted habsent =>
      -- The value left out is the default: both read back from the same JSON.
      have hsame : write default = write a := hdefault ▸ Option.some.inj habsent
      have hread := (h default).reads (h default).whole
      rw [hsame, (h a).reads (h a).whole] at hread
      exact hread.symm
    | missing habsent => cases habsent⟩

/-- A field that may be absent. -/
theorem reads_optional {form : Form} {read : Json → Option α} {write : α → Json} {a : Option α}
    {name : String} (h : Agrees form read write) (hnull : NeverNull form) :
    Reads (optional name form) (fun r => r.optional name read) (ofOption write a) a :=
  ⟨(nullable_agrees h hnull a).whole, fun {b left r} hpos hget hmember => by
    have hagrees := nullable_agrees h hnull
    replace hget : r.get? name = left := hget
    simp only [Record.optional, hget]
    cases hmember with
    | kept hform => exact (hagrees a).reads hform
    | defaulted habsent =>
      have hdefault := (hagrees none).reads (hagrees none).whole
      rw [show ofOption write none = ofOption write a from Option.some.inj habsent,
        (hagrees a).reads (hagrees a).whole] at hdefault
      show (if r.positional = true then none else some none) = _
      rw [hpos]
      exact hdefault.symm
    | missing habsent => cases habsent⟩

/-- **A record is recovered** when its fields are read one after the other. -/
theorem record_recovers {fs : List Field} {get : Record → Option α} {ms : List (String × Json)}
    {a : α} (h : Rows fs get ms a) (hnames : (fs.map Field.name).Nodup) :
    Recovers (record fs) (fun j => j.record? (fs.map Field.name) >>= get) (.obj ms) a where
  whole := .intro h.whole
  reads hform := by
    cases hform with
    | intro hmembers =>
      show (Json.record? _ _).bind _ = _
      rw [record?_members hnames hmembers]
      exact h.reads rfl hnames (fun _ _ => rfl) hmembers

/-! ### Cases -/

theorem bare_recovers {tags : List (String × Option Form)} {read : Json → Option α} {tag : String}
    {a : α} (htag : tags.lookup tag = some none) (hread : read (.str tag) = some a) :
    Recovers (oneOf tags) read (.str tag) a where
  whole := .bare htag
  reads h := by
    cases h
    exact hread

/-- **A case with data is recovered** when its data is. -/
theorem carrying_recovers {tags : List (String × Option Form)} {form : Form}
    {read readData : Json → Option α} {tag : String} {d : Json} {a : α}
    (htag : tags.lookup tag = some (some form)) (hdata : Recovers form readData d a)
    (hread : ∀ d, read (tagged tag d) = readData d) (hempty : read (.obj []) = none) :
    Recovers (oneOf tags) read (tagged tag d) a where
  whole := .carrying htag hdata.whole
  reads {b j'} h := by
    generalize hj : tagged tag d = j at h
    cases h with
    | bare => cases hj
    | emptied => exact hempty
    | @carrying tag' form' b d₀ d' htag' hform =>
      have hpair := Json.obj.inj hj
      obtain ⟨rfl, rfl⟩ : tag = tag' ∧ d = d₀ := by simpa using hpair
      obtain rfl : form = form' := Option.some.inj (Option.some.inj (htag.symm.trans htag'))
      rw [hread]
      exact hdata.reads hform

/-- A case whose data is a record. -/
theorem fields_recover {tags : List (String × Option Form)} {fs : List Field}
    {read : Json → Option α} {get : Record → Option α} {tag : String} {ms : List (String × Json)}
    {a : α}
    (htag : tags.lookup tag = some (some (record fs))) (h : Rows fs get ms a)
    (hnames : (fs.map Field.name).Nodup)
    (hread : ∀ d, read (tagged tag d) = d.record? (fs.map Field.name) >>= get)
    (hempty : read (.obj []) = none) :
    Recovers (oneOf tags) read (tagged tag (.obj ms)) a :=
  carrying_recovers htag (record_recovers h hnames) hread hempty

end Codegen6502.Proofs.Programs.Pruning
