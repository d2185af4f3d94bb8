import Codegen6502.Proofs.Calls.Emitted

/-!
# What an emission holds besides code

* `data_stages`: the objects are the globals in order and the save areas behind them, and no two
  have a name in common;
* `data_emitted`, `externals_emitted`: an emission has these objects and the addressed declarations;
* `closed_emitted`: no function has been left open;
* `header_bind`: what an emission knows of a bound function.
-/

namespace Codegen6502.Proofs.Emitting.Contents

open Compilation Computations Calls.Pipeline Calls.Emitted

variable {target : Target} {options : Options} {p : Program} {s : Stages}

/-! ### Objects -/

/-- Objects with names of their own that begin with some and go on with save areas. -/
structure Saves (front : List DataObject) (d : DataObjects) : Prop where
  nodup : (d.objects.map (·.name)).Nodup
  areas : ∃ areas, d.objects = front ++ areas ∧
    ∀ o ∈ areas, ∃ function size, size ≠ 0 ∧ o = DataObject.saveArea function size

theorem objects_add {d d' : DataObjects} {object : DataObject} (h : d.add object = .ok d')
    (hnodup : (d.objects.map (·.name)).Nodup) :
    d'.objects = d.objects ++ [object] ∧ (d'.objects.map (·.name)).Nodup := by
  unfold DataObjects.add at h
  split at h
  · cases h
  · rename_i hnew
    cases h
    refine ⟨rfl, ?_⟩
    rw [List.map_append, List.nodup_append]
    refine ⟨hnodup, List.nodup_singleton _, fun n hn m hm hnm => hnew ?_⟩
    obtain ⟨o, ho, rfl⟩ := List.mem_map.mp hn
    rw [List.map_singleton, List.mem_singleton] at hm
    exact List.any_eq_true.mpr ⟨o, ho, decide_eq_true (hnm.trans hm)⟩

theorem objects_globals {globals : List GlobalVar} {d : DataObjects}
    (h : globals.foldlM DataObjects.addGlobal {} = .ok d) :
    d.objects = globals.map .ofGlobal ∧ (d.objects.map (·.name)).Nodup := by
  refine foldlM_invariant h (fun done d => d.objects = done.map .ofGlobal ∧
    (d.objects.map (·.name)).Nodup) ⟨rfl, .nil⟩ fun done g rest d d' _ ⟨hobjects, hnodup⟩ hstep => ?_
  unfold DataObjects.addGlobal at hstep
  split at hstep
  · cases hstep
  · obtain ⟨hadd, hnodup'⟩ := objects_add hstep hnodup
    exact ⟨by rw [hadd, hobjects, List.map_append, List.map_singleton], hnodup'⟩

theorem Saves.saveHandler {x : Compilation} {clobbers : ClobberTable} {front : List DataObject}
    {t t' : Saving} {entry : String × AllocatedCode} (h : x.saveHandler clobbers t entry = .ok t')
    (hsaves : Saves front t.data) : Saves front t'.data := by
  obtain ⟨name, a⟩ := entry
  unfold Compilation.saveHandler at h
  dsimp only at h
  split at h
  · obtain ⟨d, hd, h⟩ := bind_eq_ok.mp h
    cases h
    unfold DataObjects.addSaveArea at hd
    split at hd
    · cases hd
      exact hsaves
    · rename_i hsize
      obtain ⟨hadd, hnodup⟩ := objects_add hd hsaves.nodup
      obtain ⟨areas, hobjects, hareas⟩ := hsaves.areas
      refine ⟨hnodup, areas ++ [_], by rw [hadd, hobjects, List.append_assoc], fun o ho => ?_⟩
      rcases List.mem_append.mp ho with ho | ho
      · exact hareas o ho
      · exact ⟨_, _, hsize, List.mem_singleton.mp ho⟩
  · cases h
    exact hsaves

/-- **The objects of a compilation**: the globals, and the save areas of the handlers. -/
theorem data_stages (h : stages target options p = .ok s) :
    Saves (p.globals.map .ofGlobal) s.saving.data := by
  unfold stages at h
  obtain ⟨data, hdata, h⟩ := bind_eq_ok.mp h
  obtain ⟨x, -, h⟩ := bind_eq_ok.mp h
  obtain ⟨progress, -, h⟩ := bind_eq_ok.mp h
  obtain ⟨saving, hsaving, h⟩ := bind_eq_ok.mp h
  obtain ⟨⟨_, e⟩, -, h⟩ := bind_eq_ok.mp h
  cases h
  obtain ⟨hobjects, hnodup⟩ := objects_globals hdata
  exact foldlM_invariant hsaving (fun _ t => Saves (p.globals.map .ofGlobal) t.data)
    ⟨hnodup, [], by rw [hobjects, List.append_nil], by simp⟩
    fun _ _ _ _ _ _ hsaves hstep => hsaves.saveHandler hstep

/-! ### Emissions -/

theorem data_foldl_addData (objects : List DataObject) (e : Emission) :
    (objects.foldl Emission.addData e).data = e.data ++ objects := by
  induction objects generalizing e with
  | nil => simp
  | cons object rest ih => rw [List.foldl_cons, ih]; simp [Emission.addData]

/-- What objects have and every addressed declaration keeps. -/
theorem withData_invariant {Q : Emission → Prop} {data : DataObjects}
    (start : Q (data.objects.foldl Emission.addData {}))
    (step : ∀ e, ∀ f ∈ declared p, ∀ address, f.address = some address → Q e →
      Q (e.addExternal f.name address)) : Q (withData p data) := by
  refine List.foldlRecOn (declared p) _ start fun e hq f hf => ?_
  split
  · rename_i address haddress
    exact step e f hf address haddress hq
  · exact hq

theorem current_foldl_addData (objects : List DataObject) (e : Emission) :
    (objects.foldl Emission.addData e).current = e.current := by
  induction objects generalizing e with
  | nil => rfl
  | cons object rest ih => exact ih _

theorem externals_foldl_addData (objects : List DataObject) (e : Emission) :
    (objects.foldl Emission.addData e).externals = e.externals := by
  induction objects generalizing e with
  | nil => rfl
  | cons object rest ih => exact ih _

/-- Emitting code keeps what writing a function keeps. -/
theorem emitAll_invariant {Q : Emission → Prop} {x : Compilation}
    {allocated : Std.TreeMap String AllocatedCode} {saves : Std.TreeMap String Clobbers}
    {e e' : Emission} {u : Unit} (h : (x.emitAll p allocated saves).outcome e = .ok (u, e'))
    (start : Q e) (step : ∀ e f, Q e → Q { e with functions := e.functions ++ [f], current := none }) :
    Q e' := by
  have hforM : ∀ {α : Type} {action : α → Emit Unit},
      (∀ a u e e', (action a).run e = .ok u e' →
        ∃ f, e' = { e with functions := e.functions ++ [f], current := none }) →
      ∀ (elements : List α) {u : Unit} {e e' : Emission}, (elements.forM action).run e = .ok u e' →
        Q e → Q e' := by
    intro α action haction elements
    induction elements with
    | nil =>
      intro u e e' h hq
      cases h
      exact hq
    | cons a rest ih =>
      intro u e e' h hq
      obtain ⟨_, e₁, ha, h⟩ := run_bind_eq_ok h
      obtain ⟨f, rfl⟩ := haction a _ e e₁ ha
      exact ih h (step e f hq)
  unfold Emit.outcome at h
  split at h
  · rename_i hrun
    cases h
    unfold emitAll at hrun
    obtain ⟨_, e₁, hroutines, hrun⟩ := run_bind_eq_ok hrun
    refine hforM (fun f u e e' hf => ?_) (defined p) hrun
      (hforM (fun r _ _ _ hr => ⟨_, emitRoutine_run hr⟩) x.routines hroutines start)
    unfold emitFunction at hf
    split at hf
    · exact ⟨_, writeFunction_run hf⟩
    · cases hf
  · cases h

/-- An emission has the objects of its compilation. -/
theorem data_emitted (h : Passed target options p s) : s.emission.data = s.saving.data.objects :=
  emitAll_invariant (Q := fun e => e.data = s.saving.data.objects) h.emitted
    (withData_invariant (Q := fun e => e.data = s.saving.data.objects)
      (data_foldl_addData _ _) fun _ _ _ _ _ hq => hq) fun _ _ hq => hq

/-- No function is left open. -/
theorem closed_emitted (h : Passed target options p s) : s.emission.checkClosed = .ok () := by
  have hcurrent : s.emission.current = none :=
    emitAll_invariant (Q := fun e => e.current = none) h.emitted
      (withData_invariant (Q := fun e => e.current = none) (current_foldl_addData _ _)
        fun _ _ _ _ _ hq => hq) fun _ _ _ => rfl
  rw [Emission.checkClosed, hcurrent]

/-- The external symbols of an emission are addressed declarations. -/
theorem externals_emitted (h : Passed target options p s) {name : String} {address : UInt16}
    (hname : s.emission.externals[name]? = some address) :
    ∃ f ∈ declared p, f.name = name ∧ f.address = some address := by
  let Declared (e : Emission) : Prop := ∀ name address, e.externals[name]? = some address →
    ∃ f ∈ declared p, f.name = name ∧ f.address = some address
  have hwith : Declared (withData p s.saving.data) := by
    refine withData_invariant ?_ fun e f hf address haddress hq name address' hget => ?_
    · intro name address hget
      rw [externals_foldl_addData] at hget
      simp at hget
    · rw [Emission.addExternal, Std.TreeMap.getElem?_insert] at hget
      split at hget
      · rename_i heq
        cases hget
        exact ⟨f, hf, Std.LawfulEqCmp.eq_of_compare heq, haddress⟩
      · exact hq name address' hget
  exact emitAll_invariant (Q := Declared) h.emitted hwith (fun _ _ hq => hq) name address hname

/-- **The external symbols of an emission** are the addressed declarations. -/
theorem mem_externals (h : Passed target options p s) {name : String} :
    name ∈ s.emission.externals ↔ ∃ f ∈ declared p, f.name = name ∧ f.address.isSome = true := by
  constructor
  · intro hname
    obtain ⟨address, haddress⟩ :=
      Option.isSome_iff_exists.mp (Std.TreeMap.isSome_getElem?_iff_mem.mpr hname)
    obtain ⟨f, hf, hfname, hfaddress⟩ := externals_emitted h haddress
    exact ⟨f, hf, hfname, by rw [hfaddress]; rfl⟩
  · rintro ⟨f, hf, rfl, haddress⟩
    obtain ⟨address, haddress⟩ := Option.isSome_iff_exists.mp haddress
    refine emitAll_invariant (Q := fun e => f.name ∈ e.externals) h.emitted ?_ fun _ _ hq => hq
    -- The declaration adds its name, and those behind it keep it.
    obtain ⟨front, back, hsplit⟩ := List.append_of_mem hf
    unfold withData
    rw [hsplit, List.foldl_append, List.foldl_cons, haddress]
    refine List.foldlRecOn (motive := fun e : Emission => f.name ∈ e.externals) back _ ?_
      fun e he g _ => ?_
    · exact Std.TreeMap.mem_insert_self
    · split
      · exact Std.TreeMap.mem_insert.mpr (Or.inr he)
      · exact he

/-! ### Headers -/

/-- **What an emission knows of a bound function.** -/
theorem header_bind {c : Convention} {f : FunctionDef} {b : Binding} (h : c.bind f = .ok b) :
    b.header = { name := f.name, declaredBank := f.signature.bank
                 placement := if c.banking then f.signature.bank else .common
                 visible := f.signature.visible, entry := f.signature.entry } := by
  unfold Convention.bind at h
  obtain ⟨b', hb', h⟩ := bind_eq_ok.mp h
  have hheader : b'.header = { name := f.name, declaredBank := f.signature.bank
                               placement := if c.banking then f.signature.bank else .common
                               visible := f.signature.visible, entry := f.signature.entry } := by
    unfold Convention.bindSignature at hb'
    simp only [bind, Except.bind, pure, Except.pure, throw, throwThe, MonadExceptOf.throw] at hb'
    split at hb'
    · cases hb'
    · split at hb'
      · split at hb'
        · cases hb'
        · split_ifs at hb' <;> cases hb' <;> simp [Binding.header, FunctionDef.name, *]
      · cases hb'
  simp only [pure, Except.pure, throw, throwThe, MonadExceptOf.throw] at h
  split at h
  · cases h
  · cases h
    exact hheader

end Codegen6502.Proofs.Emitting.Contents
