import Codegen6502.Selection.Lowering
import Codegen6502.Proofs.Computations
import Mathlib.Algebra.Order.Ring.Nat
import Mathlib.Data.List.Nodup

/-!
# The registers of temporaries

`numberTemps` gives every temporary its own registers (`Numbered`), as many as its type has bytes,
and every temporary that a node of the body defines has registers (`numberTemps_spec`).  The numbers
are 32 bits wide: the statements are about functions for which they suffice (`demand`).
-/

namespace Codegen6502.Proofs.Selecting.Numbering

open Selection Computations

/-- The registers of distinct temporaries are distinct and have been numbered. -/
structure Numbered (temps : Std.TreeMap Temp TempInfo) (next : ℕ) : Prop where
  width : ∀ (t : Temp) (info : TempInfo), temps[t]? = some info →
    info.vregs.length = info.type.size.toNat
  below : ∀ (t : Temp) (info : TempInfo), temps[t]? = some info →
    ∀ v ∈ info.vregs, v.index.toNat < next
  nodup : ∀ (t : Temp) (info : TempInfo), temps[t]? = some info → info.vregs.Nodup
  apart : ∀ (t t' : Temp) (info info' : TempInfo), temps[t]? = some info →
    temps[t']? = some info' → t ≠ t' → ∀ v ∈ info.vregs, v ∉ info'.vregs

theorem Numbered.mono {temps : Std.TreeMap Temp TempInfo} {m n : ℕ} (h : Numbered temps m)
    (hle : m ≤ n) : Numbered temps n :=
  ⟨h.width, fun t info hinfo v hv => (h.below t info hinfo v hv).trans_le hle, h.nodup, h.apart⟩

/-- The registers that a new temporary gets. -/
def newRegisters (next : UInt32) (size : ℕ) : List VReg :=
  (List.range size).map fun k => ⟨next + UInt32.ofNat k⟩

theorem toNat_newRegister {next : UInt32} {size k : ℕ} (hroom : next.toNat + size < 2 ^ 32)
    (hk : k < size) : (next + UInt32.ofNat k).toNat = next.toNat + k := by
  rw [UInt32.toNat_add, UInt32.toNat_ofNat', Nat.mod_eq_of_lt (show k < 2 ^ 32 by omega),
    Nat.mod_eq_of_lt (by omega)]

theorem mem_newRegisters {next : UInt32} {size : ℕ} (hroom : next.toNat + size < 2 ^ 32) {v : VReg}
    (h : v ∈ newRegisters next size) :
    next.toNat ≤ v.index.toNat ∧ v.index.toNat < next.toNat + size := by
  obtain ⟨k, hk, rfl⟩ := List.mem_map.mp h
  have hk := List.mem_range.mp hk
  have := toNat_newRegister hroom hk
  simp only [this]
  omega

theorem nodup_newRegisters {next : UInt32} {size : ℕ} (hroom : next.toNat + size < 2 ^ 32) :
    (newRegisters next size).Nodup := by
  refine List.Nodup.map_on (fun i hi j hj heq => ?_) List.nodup_range
  have hi := toNat_newRegister hroom (List.mem_range.mp hi)
  have hj := toNat_newRegister hroom (List.mem_range.mp hj)
  have := congrArg (fun v : VReg => v.index.toNat) heq
  simp only [hi, hj] at this
  omega

/-- A table with one more temporary. -/
theorem Numbered.insert {temps : Std.TreeMap Temp TempInfo} {next : UInt32} {t : Temp}
    {type : ValueType} (h : Numbered temps next.toNat)
    (hroom : next.toNat + type.size.toNat < 2 ^ 32) :
    Numbered (temps.insert t ⟨newRegisters next type.size.toNat, type⟩)
      (next.toNat + type.size.toNat) := by
  -- An entry is the new one or was there before.
  have hcases : ∀ (x : Temp) (info : TempInfo),
      (temps.insert t ⟨newRegisters next type.size.toNat, type⟩)[x]? = some info →
      (x = t ∧ info = ⟨newRegisters next type.size.toNat, type⟩) ∨ temps[x]? = some info := by
    intro x info hx
    rw [Std.TreeMap.getElem?_insert] at hx
    split at hx
    · rename_i heq
      exact Or.inl ⟨(Std.LawfulEqOrd.eq_of_compare heq).symm, (Option.some.inj hx).symm⟩
    · exact Or.inr hx
  refine ⟨fun x info hx => ?_, fun x info hx v hv => ?_, fun x info hx => ?_,
    fun x y info info' hx hy hne v hv hv' => ?_⟩
  · rcases hcases x info hx with ⟨-, rfl⟩ | hx
    · simp [newRegisters]
    · exact h.width x info hx
  · rcases hcases x info hx with ⟨-, rfl⟩ | hx
    · exact (mem_newRegisters hroom hv).2
    · exact (h.below x info hx v hv).trans_le (by omega)
  · rcases hcases x info hx with ⟨-, rfl⟩ | hx
    · exact nodup_newRegisters hroom
    · exact h.nodup x info hx
  · rcases hcases x info hx with ⟨hxt, rfl⟩ | hx <;>
      rcases hcases y info' hy with ⟨hyt, rfl⟩ | hy
    · exact hne (hxt.trans hyt.symm)
    · have := (mem_newRegisters hroom hv).1
      have := h.below y info' hy v hv'
      omega
    · have := (mem_newRegisters hroom hv').1
      have := h.below x info hx v hv
      omega
    · exact h.apart x y info info' hx hy hne v hv hv'

/-! ### All temporaries of a function -/

/-- A temporary has registers of the right number. -/
def Defined (temps : Std.TreeMap Temp TempInfo) (t : Temp) (type : ValueType) : Prop :=
  ∃ info : TempInfo, temps[t]? = some info ∧ info.type.size = type.size

/-- A definition gives its temporary registers and leaves the others theirs. -/
theorem define_defined {n n' : Numbering} {f : FunctionDef} {t : Temp} {type : ValueType}
    (h : n.define f t type = .ok n') :
    Defined n'.temps t type ∧ ∀ x type', Defined n.temps x type' → Defined n'.temps x type' := by
  unfold Numbering.define at h
  split at h
  · rename_i info hinfo
    split at h
    · cases h
    · rename_i hsize
      cases h
      exact ⟨⟨info, hinfo, not_not.mp hsize⟩, fun _ _ hx => hx⟩
  · rename_i hnone
    cases h
    refine ⟨⟨_, Std.TreeMap.getElem?_insert_self, rfl⟩, ?_⟩
    rintro x type' ⟨info, hinfo, hsize⟩
    have hne : x ≠ t := fun hxt => by rw [hxt, hnone] at hinfo; cases hinfo
    refine ⟨info, ?_, hsize⟩
    rw [Std.TreeMap.getElem?_insert, if_neg (fun heq => hne (Std.LawfulEqOrd.eq_of_compare heq).symm)]
    exact hinfo

/-- What one definition does. -/
theorem define_spec {n n' : Numbering} {f : FunctionDef} {t : Temp} {type : ValueType}
    (h : n.define f t type = .ok n') (hn : Numbered n.temps n.nextVReg.toNat)
    (hroom : n.nextVReg.toNat + type.size.toNat < 2 ^ 32) :
    Numbered n'.temps n'.nextVReg.toNat ∧
      n'.nextVReg.toNat ≤ n.nextVReg.toNat + type.size.toNat ∧ Defined n'.temps t type ∧
      ∀ x type', Defined n.temps x type' → Defined n'.temps x type' := by
  obtain ⟨hdefined, hkept⟩ := define_defined h
  refine (fun hnumbered => ⟨hnumbered.1, hnumbered.2, hdefined, hkept⟩ : _ ∧ _ → _) ?_
  unfold Numbering.define at h
  split at h
  · split at h
    · cases h
    · cases h
      exact ⟨hn, by omega⟩
  · cases h
    have hnext : (n.nextVReg + type.size.toUInt32).toNat = n.nextVReg.toNat + type.size.toNat := by
      rw [UInt32.toNat_add, UInt16.toNat_toUInt32, Nat.mod_eq_of_lt hroom]
    simp only [hnext]
    exact ⟨hn.insert hroom, le_rfl⟩

/-- What the definition of a node does to temporaries that are defined. -/
theorem defineNode_defined {c : Convention} {f : FunctionDef} {n n' : Numbering} {node : Node}
    (h : n.defineNode c f node = .ok n') :
    ∀ x type, Defined n.temps x type → Defined n'.temps x type := by
  unfold Numbering.defineNode at h
  split at h
  · split at h
    · exact (define_defined h).2
    · cases h
  · cases h
    exact fun _ _ hx => hx

/-- **Every parameter has registers of its own.** -/
theorem numberTemps_params {c : Convention} {f : FunctionDef} {b : Binding} {n : Numbering}
    (h : numberTemps c f b = .ok n) :
    ∀ pair ∈ f.params.zip (b.params.map (·.type)), Defined n.temps pair.1 pair.2 := by
  obtain ⟨m, hparams, hbody⟩ := bind_eq_ok.mp h
  have hfirst := foldlM_invariant hparams
    (fun done n => ∀ pair ∈ done, Defined n.temps pair.1 pair.2) (by simp) ?_
  · refine foldlM_invariant hbody
      (fun _ n => ∀ pair ∈ f.params.zip (b.params.map (·.type)), Defined n.temps pair.1 pair.2) hfirst ?_
    exact fun _ node _ u v _ hu hv pair hpair => defineNode_defined hv _ _ (hu pair hpair)
  · rintro done ⟨t, type⟩ rest u v - hu hv pair hpair
    rcases List.mem_append.mp hpair with hpair | hpair
    · exact (define_defined hv).2 _ _ (hu pair hpair)
    · obtain rfl := List.mem_singleton.mp hpair
      exact (define_defined hv).1

/-- The number of registers that the parameters and the nodes of a function can take. -/
def demand (f : FunctionDef) (b : Binding) : ℕ :=
  (b.params.map fun p => p.type.size.toNat).sum + 2 * f.body.length

theorem size_le_two {type : ValueType} (h : type.isScalar = true) : type.size.toNat ≤ 2 := by
  cases type <;> first | decide | cases h

/-- **Every temporary that a node defines has registers of its own.** -/
theorem numberTemps_spec {c : Convention} {f : FunctionDef} {b : Binding} {n : Numbering}
    (h : numberTemps c f b = .ok n) (hroom : demand f b < 2 ^ 32) :
    Numbered n.temps n.nextVReg.toNat ∧ n.nextVReg.toNat ≤ demand f b ∧
      ∀ node ∈ f.body, ∀ t type, defines? node = some (t, type) → Defined n.temps t type := by
  obtain ⟨m, hparams, hbody⟩ := bind_eq_ok.mp h
  have hzip : ∀ (ts : List Temp) (ps : List ParamSlot),
      ((ts.zip (ps.map (·.type))).map fun p => p.2.size.toNat).sum ≤
        (ps.map fun p => p.type.size.toNat).sum := by
    intro ts
    induction ts with
    | nil => intro ps; simp
    | cons t ts ih =>
      intro ps
      cases ps with
      | nil => simp
      | cons p ps => simpa using ih ps
  unfold demand at hroom ⊢
  have hfirst : Numbered m.temps m.nextVReg.toNat ∧
      m.nextVReg.toNat ≤ (b.params.map fun p => p.type.size.toNat).sum := by
    have key := foldlM_invariant hparams (fun done n => Numbered n.temps n.nextVReg.toNat ∧
      n.nextVReg.toNat ≤ (done.map fun p : Temp × ValueType => p.2.size.toNat).sum) ?_ ?_
    · exact ⟨key.1, key.2.trans (hzip f.params b.params)⟩
    · exact ⟨⟨fun t info hx => by simp at hx, fun t info hx => by simp at hx,
        fun t info hx => by simp at hx, fun t _ info _ hx => by simp at hx⟩, le_rfl⟩
    · rintro done ⟨t, type⟩ rest u v hall ⟨hu, hle⟩ hv
      have htotal := hzip f.params b.params
      rw [hall] at htotal
      simp only [List.map_append, List.map_cons, List.sum_append, List.sum_cons] at htotal ⊢
      obtain ⟨hv1, hv2, -⟩ := define_spec hv hu (by omega)
      exact ⟨hv1, by simp; omega⟩
  have key := foldlM_invariant hbody (fun done n => Numbered n.temps n.nextVReg.toNat ∧
    n.nextVReg.toNat ≤ (b.params.map fun p => p.type.size.toNat).sum + 2 * done.length ∧
    ∀ node ∈ done, ∀ t type, defines? node = some (t, type) → Defined n.temps t type) ?_ ?_
  · exact key
  · exact ⟨hfirst.1, by simpa using hfirst.2, by simp⟩
  · rintro done node rest u v hall ⟨hu, hle, hdone⟩ hv
    have hlength : done.length + 1 ≤ f.body.length := by rw [hall]; simp
    unfold Numbering.defineNode at hv
    split at hv
    · rename_i t type hdefines
      split at hv
      · rename_i hscalar
        have hsize := size_le_two hscalar
        obtain ⟨hv1, hv2, hv3, hv4⟩ := define_spec hv hu (by omega)
        refine ⟨hv1, by simp; omega, fun node' hnode' x type' hx => ?_⟩
        rcases List.mem_append.mp hnode' with hmem | hmem
        · exact hv4 x type' (hdone node' hmem x type' hx)
        · obtain rfl := List.mem_singleton.mp hmem
          rw [hdefines] at hx
          cases hx
          exact hv3
      · cases hv
    · rename_i hdefines
      cases hv
      refine ⟨hu, by simp; omega, fun node' hnode' x type' hx => ?_⟩
      rcases List.mem_append.mp hnode' with hmem | hmem
      · exact hdone node' hmem x type' hx
      · obtain rfl := List.mem_singleton.mp hmem
        rw [hdefines] at hx
        cases hx

end Codegen6502.Proofs.Selecting.Numbering
