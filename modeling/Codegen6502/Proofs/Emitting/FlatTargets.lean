import Codegen6502.Proofs.Emitting.Acceptance
import Codegen6502.Proofs.Emitting.Contents
import Codegen6502.Proofs.Selecting.Targets

/-!
# Targets that do not switch banks

The listing, the container and the statistics alone are made from the same emission: a compilation
looks at its target for whether it switches banks, for the texts of errors, and for the output at
its end.

* `stages_flat`, `emitProgram_flat`: the stages of a compilation are the same for any two of these
  targets, up to the name of the target in the conventions;
* `sizes_emitted`: an object is never larger than a container can say;
* `flat_targets_agree`: what compiles for statistics compiles for a listing, and it compiles for a
  container exactly if its addends are small; relocations and statistics are equal.
-/

namespace Codegen6502.Proofs.Emitting.FlatTargets

open Compilation Computations Container Calls.Pipeline Acceptance Selecting.Targets

variable {c : Convention} {limits : Limits} {options : Options} {p : Program} {x : Compilation}
  {s : Stages} {e : Emission} {out : Output} {target target' : Target}

/-! ### Stages -/

/-- A compilation under the conventions for a target of another name. -/
def retitled (x : Compilation) (name : String) : Compilation :=
  { x with convention := renamed x.convention name }

theorem start_renamed (name : String) (h : Compilation.start c limits p = .ok x) :
    Compilation.start (renamed c name) limits p = .ok (retitled x name) := by
  obtain ⟨bindings, hbind, h⟩ := bind_eq_ok.mp h
  obtain ⟨selected, hselect, h⟩ := bind_eq_ok.mp h
  cases h
  have hbind' : bindAll (renamed c name) p = .ok bindings :=
    SameOutcome.ok (.foldlM (fun t f => (bind_outcome c name f).next fun b => .refl _) _ _) hbind
  have hselect' : selectAll (renamed c name) bindings limits p = .ok selected :=
    SameOutcome.ok (.foldlM (fun t f =>
      (selectFunction_outcome c name bindings limits f).next fun code => .refl _) _ _) hselect
  unfold Compilation.start
  exact bind_eq_ok.mpr ⟨bindings, hbind', bind_eq_ok.mpr ⟨selected, hselect', rfl⟩⟩

/-- The conventions of two targets that do not switch banks differ in the name. -/
theorem conventionOf_flat (h : target.switchesBanks = false) (h' : target'.switchesBanks = false) :
    conventionOf target' options = renamed (conventionOf target options) target'.name := by
  unfold conventionOf renamed
  rw [h, h']

/-- **The stages of a compilation** for a target that does not switch banks are those for any other,
up to the conventions. -/
theorem stages_flat (h : target.switchesBanks = false) (h' : target'.switchesBanks = false)
    (hs : stages target options p = .ok s) :
    stages target' options p = .ok { s with compilation := retitled s.compilation target'.name } := by
  unfold stages at hs ⊢
  obtain ⟨data, hdata, hs⟩ := bind_eq_ok.mp hs
  obtain ⟨x, hx, hs⟩ := bind_eq_ok.mp hs
  obtain ⟨progress, hprogress, hs⟩ := bind_eq_ok.mp hs
  obtain ⟨saving, hsaving, hs⟩ := bind_eq_ok.mp hs
  obtain ⟨⟨u, e⟩, he, hs⟩ := bind_eq_ok.mp hs
  cases hs
  refine bind_eq_ok.mpr ⟨data, hdata, bind_eq_ok.mpr ⟨retitled x target'.name, ?_, ?_⟩⟩
  · rw [conventionOf_flat h h']
    exact start_renamed _ hx
  -- The later stages read the zero page and the selecting address of the conventions.
  refine bind_eq_ok.mpr ⟨progress, hprogress, bind_eq_ok.mpr ⟨saving, hsaving, ?_⟩⟩
  exact bind_eq_ok.mpr ⟨(u, e), he, rfl⟩

theorem emitProgram_eq_ok : emitProgram target options p = .ok e ↔
    ∃ s, stages target options p = .ok s ∧ s.emission = e := by
  rw [emitProgram_eq, map_eq_pure_bind, bind_eq_ok]
  exact exists_congr fun s => and_congr_right fun _ => ⟨Except.ok.inj, congrArg Except.ok⟩

/-- Targets that do not switch banks make their output of one emission. -/
theorem emitProgram_flat (h : target.switchesBanks = false) (h' : target'.switchesBanks = false)
    (he : emitProgram target options p = .ok e) : emitProgram target' options p = .ok e := by
  obtain ⟨s, hs, rfl⟩ := emitProgram_eq_ok.mp he
  exact emitProgram_eq_ok.mpr ⟨_, stages_flat h h' hs, rfl⟩

/-! ### Objects -/

theorem length_bytes_global (g : GlobalVar) : g.bytes.length = g.size.toNat := by
  unfold GlobalVar.bytes
  simp only [List.length_append, List.length_take, List.length_replicate]
  omega

/-- The sizes of objects are words. -/
theorem sizes_emitted (h : stages target options p = .ok s) :
    ∀ o ∈ s.emission.data, o.size < 0x10000 := by
  intro o ho
  rw [Contents.data_emitted (passed h)] at ho
  obtain ⟨areas, hobjects, hareas⟩ := (Contents.data_stages h).areas
  rw [hobjects] at ho
  rcases List.mem_append.mp ho with hglobal | harea
  · obtain ⟨g, -, rfl⟩ := List.mem_map.mp hglobal
    exact (length_bytes_global g).trans_lt g.size.toNat_lt
  · obtain ⟨function, size, -, rfl⟩ := hareas o harea
    exact (List.length_replicate).trans_lt size.toNat_lt

/-! ### Outputs -/

/-- What every output of an emission needs: no function is open, and a layout whose cursors are
words and in which every symbol is defined. -/
structure Laid (e : Emission) (l : Layout) : Prop where
  closed : e.checkClosed = .ok ()
  made : Layout.ofFlat e = .ok l
  counted : l.checkCounted = .ok ()
  resolved : l.table.checkResolved = .ok ()

theorem flatOutput_eq_ok {produce : SymbolTable → Compile Artifact} :
    (do
      e.checkClosed
      flatOutput target e produce) = .ok out ↔ ∃ l artifact, Laid e l ∧
        produce l.table = .ok artifact ∧
        out = ⟨target, artifact, l.table.relocations, .ofEmission e⟩ := by
  constructor
  · intro h
    obtain ⟨⟨⟩, hclosed, h⟩ := bind_eq_ok.mp h
    obtain ⟨l, hmade, h⟩ := bind_eq_ok.mp h
    obtain ⟨⟨⟩, hcounted, h⟩ := bind_eq_ok.mp h
    obtain ⟨⟨⟩, hresolved, h⟩ := bind_eq_ok.mp h
    obtain ⟨artifact, hproduce, h⟩ := bind_eq_ok.mp h
    cases h
    exact ⟨l, artifact, ⟨hclosed, hmade, hcounted, hresolved⟩, hproduce, rfl⟩
  · rintro ⟨l, artifact, hlaid, hproduce, rfl⟩
    refine bind_eq_ok.mpr ⟨_, hlaid.closed, bind_eq_ok.mpr ⟨l, hlaid.made, ?_⟩⟩
    refine bind_eq_ok.mpr ⟨_, hlaid.counted, bind_eq_ok.mpr ⟨_, hlaid.resolved, ?_⟩⟩
    exact bind_eq_ok.mpr ⟨artifact, hproduce, rfl⟩

/-- The artifact of a target that does not switch banks. -/
def produced (target : Target) (e : Emission) (table : SymbolTable) : Compile Artifact :=
  match target with
  | .listing => .ok (.listing (Listing.render e table))
  | .container => (Container.bytes e).map .container
  | _ => .ok .nothing

theorem output_eq_ok {map : MemoryMap} (h : target.switchesBanks = false) :
    e.output target map = .ok out ↔ ∃ l artifact, Laid e l ∧
      produced target e l.table = .ok artifact ∧
      out = ⟨target, artifact, l.table.relocations, .ofEmission e⟩ := by
  cases target with
  | listing | container | nothing => exact flatOutput_eq_ok
  | image => cases h

theorem compile_eq_ok : compile target.name options p = .ok out ↔ options.validate = .ok () ∧
    ∃ e, emitProgram target options p = .ok e ∧ e.output target options.map = .ok out := by
  have hname : Target.ofName target.name = .ok target := by cases target <;> rfl
  unfold compile
  rw [hname]
  simp only [bind_eq_ok]
  constructor
  · rintro ⟨⟨⟩, hvalid, target', htarget, e, he, hout⟩
    cases htarget
    exact ⟨hvalid, e, he, hout⟩
  · rintro ⟨hvalid, e, he, hout⟩
    exact ⟨(), hvalid, target, rfl, e, he, hout⟩

/-! ### Compilations -/

/-- Compiling for a target succeeds, with the relocations and the statistics of an output. -/
def Agrees (name : String) (options : Options) (p : Program) (out : Output) : Prop :=
  ∃ out', compile name options p = .ok out' ∧ out'.relocations = out.relocations ∧
    out'.statistics = out.statistics

/-- Compiling for another target that does not switch banks comes down to making the artifact. -/
theorem agrees_iff (target target' : Target) (h : target.switchesBanks = false)
    (h' : target'.switchesBanks = false) (hout : compile target.name options p = .ok out) :
    ∃ e l, emitProgram target options p = .ok e ∧ Laid e l ∧
      (Agrees target'.name options p out ↔ Succeeds (produced target' e l.table)) := by
  obtain ⟨hvalid, e, he, houtput⟩ := compile_eq_ok.mp hout
  obtain ⟨l, artifact, hlaid, -, rfl⟩ := (output_eq_ok h).mp houtput
  refine ⟨e, l, he, hlaid, ?_, ?_⟩
  · rintro ⟨out', hout', -, -⟩
    obtain ⟨-, e', he', houtput'⟩ := compile_eq_ok.mp hout'
    obtain rfl := Except.ok.inj ((emitProgram_flat h h' he).symm.trans he')
    obtain ⟨l', artifact', hlaid', hproduced, -⟩ := (output_eq_ok h').mp houtput'
    obtain rfl := Except.ok.inj (hlaid.made.symm.trans hlaid'.made)
    exact ⟨artifact', hproduced⟩
  · rintro ⟨artifact', hproduced⟩
    refine ⟨⟨target', artifact', l.table.relocations, .ofEmission e⟩, ?_, rfl, rfl⟩
    refine compile_eq_ok.mpr ⟨hvalid, e, emitProgram_flat h h' he, (output_eq_ok h').mpr ?_⟩
    exact ⟨l, artifact', hlaid, hproduced, rfl⟩

/-- **The targets that do not switch banks accept the same programs**, except that a container holds
addends of words only.  What compiles for statistics compiles for a listing.  If its emission names
fewer than 65536 symbols, none longer than 255 bytes, it compiles for a container exactly if its
addends are small.  Relocations and statistics are the same. -/
theorem flat_targets_agree (h : compile "null" options p = .ok out) :
    Agrees "symbolic" options p out ∧
    ∃ e, emitProgram .nothing options p = .ok e ∧
      ((mentions e).toFinset.card < 0x10000 →
        (∀ name ∈ mentions e, name.utf8ByteSize ≤ 0xFF) →
        (Agrees "bytecode" options p out ↔ AddendsFit e)) := by
  obtain ⟨e, l, -, -, hlisting⟩ := agrees_iff .nothing .listing rfl rfl h
  refine ⟨hlisting.mpr (succeeds_ok _), ?_⟩
  obtain ⟨e, l, he, -, hcontainer⟩ := agrees_iff .nothing .container rfl rfl h
  obtain ⟨s, hs, rfl⟩ := emitProgram_eq_ok.mp he
  have hencodable := Encoding.encodable_emitted (passed hs)
  refine ⟨s.emission, he, fun hcount hshort => hcontainer.trans ?_⟩
  have hmap : Succeeds ((Container.bytes s.emission).map Artifact.container) ↔
      Succeeds (Container.bytes s.emission) := by
    cases Container.bytes s.emission with
    | ok bytes => exact iff_of_true (succeeds_ok _) (succeeds_ok _)
    | error e => exact iff_of_false (not_succeeds_error _) (not_succeeds_error _)
  rw [produced, hmap, succeeds_bytes hencodable]
  constructor
  · exact Fits.addends
  · intro haddends
    refine ⟨hcount.le, fun name hname => ?_, haddends, sizes_emitted hs⟩
    have := hshort name hname
    omega

/-! ### A far reference -/

/-- A function that reads the byte 32768 bytes behind the start of a global. -/
def farFunction : FunctionDef where
  signature := { name := "f", params := [], returnType := .void }
  body := [.copy 0 (.memory (.global "g" 0x8000)) .u8, .ret none]

/-- The program of this function and a global variable. -/
def farProgram : Program :=
  { name := "m", functions := [farFunction], globals := [{ name := "g", size := 1 }] }

/-- The emission of this program names few symbols, but its addend is too large for a word. -/
def isFar (e : Emission) : Bool :=
  decide ((mentions e).toFinset.card < 0x10000) &&
    (mentions e).all (fun name => decide (name.utf8ByteSize ≤ 0xFF)) &&
    e.functions.any fun f => f.code.any fun line =>
      (lineAddend? line).any fun addend => decide (0x7FFF < addend.toInt)

/-- **A far reference has no container**, although the program compiles for statistics and for a
listing. -/
theorem far_reference_refused : ∃ out, compile "null" {} farProgram = .ok out ∧
    Agrees "symbolic" {} farProgram out ∧ ¬Agrees "bytecode" {} farProgram out := by
  have hany : (compile "null" {} farProgram).toOption.any (fun _ => true) = true := by
    decide +kernel
  have hfar : (emitProgram .nothing {} farProgram).toOption.any isFar = true := by decide +kernel
  obtain ⟨out, hout, -⟩ := ok_of_any hany
  obtain ⟨e, he, hfar⟩ := ok_of_any hfar
  obtain ⟨hlisting, e', he', hcontainer⟩ := flat_targets_agree hout
  obtain rfl := Except.ok.inj (he.symm.trans he')
  simp only [isFar, Bool.and_eq_true, decide_eq_true_eq, List.all_eq_true, List.any_eq_true] at hfar
  obtain ⟨⟨hcount, hshort⟩, f, hf, line, hline, haddend⟩ := hfar
  refine ⟨out, hout, hlisting, fun hagrees => ?_⟩
  have hfits := (hcontainer hcount hshort).mp hagrees f hf line hline
  cases hsome : lineAddend? line with
  | none => rw [hsome] at haddend; cases haddend
  | some addend =>
    rw [hsome] at haddend
    have hlarge : 0x7FFF < addend.toInt := of_decide_eq_true haddend
    exact absurd (hfits addend hsome).2 (not_le.mpr hlarge)

end Codegen6502.Proofs.Emitting.FlatTargets
