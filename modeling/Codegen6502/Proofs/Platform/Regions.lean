import Codegen6502.ZeroPage
import Mathlib.Data.List.Basic
import Mathlib.Order.Nat
import Mathlib.Tactic.SplitIfs

/-!
# The regions of the zero page

A layout sets aside four regions: the argument slots, the two cells of the scratch pointer, the copy
of the bank register and the pool.  They are meant to lie in the page without wrapping around and to
be disjoint (`Separate`).

`ZeroPage.fault?` asks for less, and `separate_iff` says by how much.  Of two intervals it asks only
whether the arguments begin in the pool, so a pool that begins among the arguments passes
(`PoolInArgs`); and it takes the pointer's second cell as the number after the first, so that a
pointer at `$FF` passes, whose second cell is `$00`.  Everything else is as it should be.
-/

namespace Codegen6502.Proofs.Platform.Regions

variable {z : ZeroPage}

/-! ### Cells and regions -/

/-- The cells of the four regions, each region as the other modules walk through it. -/
def regions (z : ZeroPage) : List (List UInt8) :=
  [z.argCells, [z.pointerLo, z.pointerHi], [z.bankShadow], z.pool]

/-- The regions lie in the page, none of them wraps around, and no two of them share a cell. -/
structure Separate (z : ZeroPage) : Prop where
  args : z.argBase.toNat + z.argSlots.toNat ≤ 0x100
  pointer : z.pointer.toNat + 2 ≤ 0x100
  pool : z.poolBase.toNat + z.poolSize.toNat ≤ 0x100
  disjoint : (regions z).Pairwise List.Disjoint

/-- The pool begins among the argument slots, behind the first of them. -/
def PoolInArgs (z : ZeroPage) : Prop :=
  z.argBase < z.poolBase ∧ z.poolBase.toNat < z.argBase.toNat + z.argSlots.toNat ∧ 0 < z.poolSize

instance : DecidablePred PoolInArgs := fun z => by unfold PoolInArgs; infer_instance

theorem mem_args_iff (h : z.argBase.toNat + z.argSlots.toNat ≤ 0x100) {cell : UInt8} :
    cell ∈ z.argCells ↔ z.argBase.toNat ≤ cell.toNat ∧
      cell.toNat < z.argBase.toNat + z.argSlots.toNat := by
  simp only [ZeroPage.argCells, List.mem_map, List.mem_range]
  constructor
  · rintro ⟨i, hi, rfl⟩
    have hnat : (z.arg (UInt8.ofNat i)).toNat = z.argBase.toNat + i := by
      rw [ZeroPage.arg, UInt8.toNat_add, UInt8.toNat_ofNat']
      omega
    omega
  · intro hcell
    refine ⟨cell.toNat - z.argBase.toNat, by omega, UInt8.toNat_inj.mp ?_⟩
    have hlt := cell.toNat_lt
    rw [ZeroPage.arg, UInt8.toNat_add, UInt8.toNat_ofNat']
    omega

theorem mem_pool_iff {cell : UInt8} :
    cell ∈ z.pool ↔ z.poolBase.toNat ≤ cell.toNat ∧
      cell.toNat < z.poolBase.toNat + z.poolSize.toNat := by
  have hlt := cell.toNat_lt
  simp only [ZeroPage.pool, List.mem_map, List.mem_filter, List.mem_range, decide_eq_true_eq]
  constructor
  · rintro ⟨_, ⟨⟨i, hi, rfl⟩, hpage⟩, rfl⟩
    rw [UInt8.toNat_ofNat']
    omega
  · intro hcell
    exact ⟨cell.toNat, ⟨⟨cell.toNat - z.poolBase.toNat, by omega, by omega⟩, by omega⟩,
      UInt8.ofNat_toNat⟩

theorem pointerHi_toNat : z.pointerHi.toNat = (z.pointer.toNat + 1) % 256 := by
  rw [ZeroPage.pointerHi, UInt8.toNat_add]
  rfl

/-! ### What is asked of a layout -/

/-- What a layout without a fault satisfies, and nothing else is asked of it. -/
structure Checked (z : ZeroPage) : Prop where
  args : z.argBase.toNat + z.argSlots.toNat ≤ 0x100
  pool : z.poolBase.toNat + z.poolSize.toNat ≤ 0x100
  outsideArgs : ∀ cell ∈ [z.pointer.toNat, z.pointer.toNat + 1, z.bankShadow.toNat],
    ¬ (z.argBase.toNat ≤ cell ∧ cell < z.argBase.toNat + z.argSlots.toNat)
  outsidePool : ∀ cell ∈ [z.pointer.toNat, z.pointer.toNat + 1, z.bankShadow.toNat,
      z.argBase.toNat],
    ¬ (z.poolBase.toNat ≤ cell ∧ cell < z.poolBase.toNat + z.poolSize.toNat)
  shadow : z.bankShadow.toNat ≠ z.pointer.toNat ∧ z.bankShadow.toNat ≠ z.pointer.toNat + 1

theorem fault_none_iff : z.fault? = none ↔ Checked z := by
  constructor
  · intro h
    simp only [ZeroPage.fault?] at h
    split_ifs at h with hpage hargs hpool hinside hshadow
    simp only [Bool.or_eq_true, Bool.and_eq_true, decide_eq_true_eq, not_or]
      at hpage hargs hpool hinside
    refine ⟨by omega, by omega, ?_, ?_, by omega⟩
    all_goals
      simp only [List.forall_mem_cons, List.not_mem_nil, IsEmpty.forall_iff, implies_true, and_true]
      omega
  · intro h
    obtain ⟨hargs, hpool, houtside, hinside, hshadow⟩ := h
    simp only [List.forall_mem_cons, List.not_mem_nil, IsEmpty.forall_iff, implies_true, and_true]
      at houtside hinside
    simp only [ZeroPage.fault?, Bool.or_eq_true, Bool.and_eq_true, decide_eq_true_eq]
    rw [if_neg (by omega), if_neg (by omega), if_neg (by omega), if_neg (by omega),
      if_neg (by omega)]

/-! ### What it comes to -/

/-- The copy of the bank register and the pointer's first cell lie in no other region. -/
theorem Checked.clear (h : Checked z) :
    (∀ cell ∈ [z.pointerLo, z.bankShadow], cell ∉ z.argCells ∧ cell ∉ z.pool) ∧
      z.pointerLo ≠ z.bankShadow := by
  have hargs := h.outsideArgs
  have hpool := h.outsidePool
  simp only [List.forall_mem_cons, List.not_mem_nil, IsEmpty.forall_iff, implies_true, and_true]
    at hargs hpool ⊢
  simp only [mem_args_iff h.args, mem_pool_iff, ZeroPage.pointerLo, ne_eq, ← UInt8.toNat_inj]
  have := h.shadow
  omega

/-- The pointer's second cell lies in no other region unless the pointer is the last cell of the
page. -/
theorem Checked.clear_pointerHi (h : Checked z) (hlast : z.pointer ≠ 0xFF) :
    z.pointerHi ∉ z.argCells ∧ z.pointerHi ∉ z.pool ∧ z.pointerHi ≠ z.bankShadow := by
  have hargs := h.outsideArgs
  have hpool := h.outsidePool
  have hlt := z.pointer.toNat_lt
  have hne : z.pointer.toNat ≠ 0xFF := fun he => hlast (UInt8.toNat_inj.mp he)
  have hshadow := h.shadow
  simp only [List.forall_mem_cons, List.not_mem_nil, IsEmpty.forall_iff, implies_true, and_true]
    at hargs hpool
  simp only [mem_args_iff h.args, mem_pool_iff, ne_eq, ← UInt8.toNat_inj, pointerHi_toNat]
  rw [Nat.mod_eq_of_lt (by omega)]
  omega

/-- The pool and the arguments share a cell exactly where the pool begins among the arguments. -/
theorem Checked.disjoint_iff (h : Checked z) :
    List.Disjoint z.argCells z.pool ↔ ¬ PoolInArgs z := by
  constructor
  · rintro hdisjoint ⟨hfirst, hlast, hsome⟩
    have hfirst' := UInt8.lt_iff_toNat_lt.mp hfirst
    have hsome' := UInt8.lt_iff_toNat_lt.mp hsome
    have hzero : (0 : UInt8).toNat = 0 := rfl
    exact hdisjoint (a := z.poolBase) ((mem_args_iff h.args).mpr ⟨by omega, hlast⟩)
      (mem_pool_iff.mpr ⟨le_rfl, by omega⟩)
  · intro houtside cell harg hpool
    have harg' := (mem_args_iff h.args).mp harg
    have hpool' := mem_pool_iff.mp hpool
    have hbegin := h.outsidePool z.argBase.toNat (by simp)
    have hzero : (0 : UInt8).toNat = 0 := rfl
    exact houtside ⟨UInt8.lt_iff_toNat_lt.mpr (by omega), by omega,
      UInt8.lt_iff_toNat_lt.mpr (by omega)⟩

/-- **An accepted layout is separate exactly where its pointer is not the last cell of the page and
its pool does not begin among the argument slots.** -/
theorem separate_iff (h : z.fault? = none) :
    Separate z ↔ z.pointer ≠ 0xFF ∧ ¬ PoolInArgs z := by
  have hchecked := fault_none_iff.mp h
  constructor
  · intro hseparate
    have hdisjoint := hseparate.disjoint
    simp only [regions, List.pairwise_cons, List.forall_mem_cons] at hdisjoint
    refine ⟨fun hlast => ?_, hchecked.disjoint_iff.mp hdisjoint.1.2.2.1⟩
    have hroom := hseparate.pointer
    rw [hlast] at hroom
    exact absurd hroom (by decide)
  · rintro ⟨hlast, houtside⟩
    obtain ⟨hclear, hlo⟩ := hchecked.clear
    obtain ⟨hhiArgs, hhiPool, hhi⟩ := hchecked.clear_pointerHi hlast
    have hloArgs := hclear _ (List.mem_cons_self ..)
    have hshadow := hclear z.bankShadow (by simp)
    have hne : z.pointer.toNat ≠ 0xFF := fun he => hlast (UInt8.toNat_inj.mp he)
    have hlt := z.pointer.toNat_lt
    refine ⟨hchecked.args, by omega, hchecked.pool, ?_⟩
    have hargsPool := hchecked.disjoint_iff.mpr houtside
    simp only [regions, List.pairwise_cons, List.forall_mem_cons, List.not_mem_nil,
      IsEmpty.forall_iff, implies_true, forall_eq, and_true, List.Pairwise.nil, List.disjoint_cons_right,
      List.disjoint_cons_left, List.disjoint_nil_right, List.disjoint_nil_left, List.mem_singleton]
    exact ⟨⟨⟨hloArgs.1, hhiArgs⟩, hshadow.1, hargsPool⟩, ⟨⟨hlo, hhi⟩, hloArgs.2, hhiPool⟩,
      hshadow.2⟩

/-- A layout whose pool begins in the middle of the argument slots. -/
def overlapping : ZeroPage := { pointer := 0x70, bankShadow := 0x72, poolBase := 0x88 }

/-- A layout whose pointer is the last cell of the page and whose pool begins with the first. -/
def wrapping : ZeroPage := { pointer := 0xFF, poolBase := 0x00 }

/-- Both are accepted and neither is separate, while the layout that is used by default is. -/
theorem accepted_overlap : (overlapping.fault? = none ∧ ¬ Separate overlapping) ∧
    (wrapping.fault? = none ∧ ¬ Separate wrapping ∧ wrapping.pointerHi ∈ wrapping.pool) ∧
    Separate {} := by
  refine ⟨⟨by decide, fun h => ?_⟩, ⟨by decide, fun h => ?_, by decide⟩, ?_⟩
  · exact ((separate_iff (by decide)).mp h).2 (by decide)
  · exact ((separate_iff (by decide)).mp h).1 rfl
  · exact (separate_iff (by decide)).mpr ⟨by decide, by decide⟩

end Codegen6502.Proofs.Platform.Regions
