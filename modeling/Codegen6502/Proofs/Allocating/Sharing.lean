import Codegen6502.Proofs.Allocating.Assignment
import Codegen6502.Proofs.Allocating.Preservation

/-!
# Values do not share locations

`allocated_unshared`: in allocated code every virtual register has a location of its own for as long
as its interval lasts, and no call can touch what is kept there.  Overlap, slots and registers are
from `Assigned`; added to them is that every virtual register of the code has a location, or placing
would have failed, and that intervals are as long as lives.

A register is no place for a value that lives through a call, because a call overwrites all of them
(`defs_jsr`) and is itself no load or store.
-/

namespace Codegen6502.Proofs.Allocating.Sharing

open Allocation Computations Liveness.Flow Liveness.Intervals Scan Blocks Assignment Preservation

variable {z : ZeroPage} {selected : SelectedCode} {binding : Binding}
  {callClobbers : Std.TreeMap ℕ Clobbers} {live : Liveness} {a : AllocatedCode}

/-- **Every value has its own location** while it is needed. -/
structure Unshared (selected : SelectedCode) (callClobbers : Std.TreeMap ℕ Clobbers)
    (live : Liveness) (a : AllocatedCode) : Prop where
  /-- A virtual register that occurs in the code has a location. -/
  located : ∀ (k : ℕ) (op : Opcode) (v : VReg), selected.code[k]? = some (.op op (.virtual v)) →
    ∃ location, a.locations[v.index]? = some location
  /-- Intervals contain the lines that use, define or live through the virtual register. -/
  covered : ∀ (k : ℕ) (line : Line) (v : VReg), selected.code[k]? = some line →
    Concerns live line selected.calls[k]? k v → Covers live.intervals[v.index]? k
  /-- Values whose intervals overlap have different locations. -/
  apart : ∀ (v w : VReg) (iv iw : Interval), live.intervals[v.index]? = some iv →
    live.intervals[w.index]? = some iw → v ≠ w → iv.overlaps iw = true →
    ∀ location, a.locations[v.index]? = some location → a.locations[w.index]? ≠ some location
  /-- Slots are inside the frame, after the locals. -/
  framed : ∀ (v : VReg) (o : UInt8), a.locations[v.index]? = some (.stack o) →
    selected.locals.toNat ≤ o.toNat ∧ o.toNat < a.frameBytes.toNat
  /-- No register holds a value through a call. -/
  unregistered : ∀ (k : ℕ) (operand : Operand) (v : VReg) (r : Register),
    selected.code[k]? = some (.op .jsr operand) → live.isLiveOut k (.vreg v) = true →
    a.locations[v.index]? ≠ some (.reg r)
  /-- No cell that a call overwrites holds a value through it. -/
  spared : ∀ (k : ℕ) (set : Clobbers) (v : VReg) (cell : UInt8), callClobbers[k]? = some set →
    live.isLiveOut k (.vreg v) = true → a.locations[v.index]? = some (.zeroPage cell) →
    set.containsCell cell = false
  /-- X is free in a function with a frame. -/
  indexFree : 0 < a.frameBytes → ∀ v : VReg, a.locations[v.index]? ≠ some (.reg .x)

/-- Placing fails on a virtual register without location. -/
theorem located_of_allocate (h : allocate z selected binding callClobbers = .ok a) {k : ℕ}
    {op : Opcode} {v : VReg} (hk : selected.code[k]? = some (.op op (.virtual v))) :
    ∃ location, a.locations[v.index]? = some location := by
  obtain ⟨live, moved, -, -, hplace, -, hlocations, -⟩ := (allocate_spec h).out
  obtain ⟨block, views, -, hplaced, -⟩ := place_blocks _ hplace
  have haccess : ∃ placed?, Placement.access ⟨selected.name, live,
      (assign (problemOf z selected binding callClobbers live)).1.locations⟩ op v = .ok placed? := by
    have hline := hplaced k _ hk
    generalize block k = lines, views (k + 1) = view' at hline
    cases hline with
    | gone hline | frame hline _ | kept hline _ => exact ⟨_, hline⟩
  obtain ⟨placed?, haccess⟩ := haccess
  obtain ⟨location, hlocation, -⟩ := accessed_of_access haccess
  exact ⟨location, hlocations ▸ hlocation⟩

/-- A call overwrites every register, and is no access to a value. -/
theorem unregistered_of_assigned (hassigned : Assigned selected callClobbers live a)
    (hsolves : Solves selected.code selected.calls binding.returnKind.registers live) {k : ℕ}
    {operand : Operand} {v : VReg} {r : Register} (hk : selected.code[k]? = some (.op .jsr operand))
    (hlive : live.isLiveOut k (.vreg v) = true) : a.locations[v.index]? ≠ some (.reg r) := by
  intro hlocation
  rcases (hassigned.undisturbed v r hlocation k _ hk hlive).1 with ⟨op, hop⟩ | hwrites
  · cases hop
    rcases hassigned.plain v r hlocation k .jsr hk with hjsr | hjsr
    · cases hjsr
    · cases hjsr
  · rw [hsolves.writes hk, defs_jsr, itemsOf_reg] at hwrites
    cases r <;> cases hwrites

/-- **Values that overlap never share a location.** -/
theorem allocated_unshared (h : allocate z selected binding callClobbers = .ok a) :
    ∃ live, Liveness.compute selected.code selected.calls binding.returnKind.registers = .ok live ∧
      Unshared selected callClobbers live a := by
  obtain ⟨live, -, hlive, -⟩ := (allocate_spec h).out
  have hassigned := assigned_of_allocate h hlive
  have hsolves := solves_of_compute hlive
  exact ⟨live, hlive,
    { located := fun _ _ _ hk => located_of_allocate h hk
      covered := fun _ _ _ hk hconcerns => intervals_cover hsolves hk hconcerns
      apart := hassigned.apart
      framed := hassigned.stack
      unregistered := fun _ _ _ _ hk hout => unregistered_of_assigned hassigned hsolves hk hout
      spared := fun k set v cell hset hout hcell => hassigned.spared v cell hcell k set hset hout
      indexFree := fun hframe v hx => by
        rw [hassigned.indexFree v hx] at hframe
        exact absurd hframe (by decide) }⟩

/-- The value that lives through a call is in the second cell of the pool, the first being
overwritten, and the frame has the byte of the local alone. -/
theorem keeping_unshared : ∃ a live, allocate {} keeping byteBinding keepingClobbers = .ok a ∧
    a.locations[(0 : UInt32)]? = some (.zeroPage 0x94) ∧ a.frameBytes = 1 ∧
    Unshared keeping keepingClobbers live a := by
  have hcheck : (allocate {} keeping byteBinding keepingClobbers).toOption.any (fun a =>
      a.frameBytes = 1 && a.locations[(0 : UInt32)]? = some (.zeroPage 0x94)) = true := by
    decide +kernel
  obtain ⟨a, ha, htest⟩ := ok_of_any hcheck
  simp only [Bool.and_eq_true, decide_eq_true_eq] at htest
  obtain ⟨live, -, hunshared⟩ := allocated_unshared ha
  exact ⟨a, live, ha, htest.2, htest.1, hunshared⟩

end Codegen6502.Proofs.Allocating.Sharing
