import Codegen6502.Allocation.Basic
import Codegen6502.Proofs.Calls.ClobberSets
import Codegen6502.Proofs.Computations
import Mathlib.Tactic.SplitIfs

/-!
# Assigned locations

The scan visits virtual registers one after the other and gives each the first location that can
hold it.

* `place_eq`: one step, with the chosen location (`located`) and the slots (`slotted`) named;
* `cell_spared`: a cell of the pool is never given to a value that is live after a call which
  overwrites the cell.
-/

namespace Codegen6502.Proofs.Allocating.Scan

open Allocation Computations Calls.ClobberSets

variable {p : Problem}

/-! ### One step -/

/-- The values that are still live when an interval starts. -/
def stillActive (s : Scan) (interval : Interval) : List Placed :=
  s.active.filter fun a => interval.first ≤ a.interval.last

/-- The location that a value gets. -/
def located (p : Problem) (s : Scan) (index : UInt32) (interval : Interval) : Location :=
  match p.register? ⟨index⟩ interval (stillActive s interval) with
  | some r => .reg r
  | none =>
    match p.cell? ⟨index⟩ (stillActive s interval) with
    | some cell => .zeroPage cell
    | none => .stack (p.frameByte (Problem.slot s.slotEnds interval).1)

/-- The slots after a value has been placed. -/
def slotted (p : Problem) (s : Scan) (index : UInt32) (interval : Interval) : List ℕ :=
  match located p s index interval with
  | .stack _ => (Problem.slot s.slotEnds interval).2
  | _ => s.slotEnds

theorem place_eq (s : Scan) (index : UInt32) (interval : Interval) :
    Scan.place p s (index, interval) =
      { locations := s.locations.insert index (located p s index interval)
        active := stillActive s interval ++ [⟨interval, located p s index interval⟩]
        slotEnds := slotted p s index interval } := by
  unfold Scan.place slotted located stillActive
  dsimp only
  cases p.register? ⟨index⟩ interval (s.active.filter fun a => interval.first ≤ a.interval.last) with
  | some r => rfl
  | none =>
    cases p.cell? ⟨index⟩ (s.active.filter fun a => interval.first ≤ a.interval.last) with
    | some cell => rfl
    | none => rfl

/-- **A property of locations** that every chosen one has holds of all locations of a scan. -/
theorem scan_locations {P : UInt32 → Location → Prop}
    (hchosen : ∀ s index interval, P index (located p s index interval)) (index : UInt32)
    (location : Location) (h : p.scan.locations[index]? = some location) : P index location := by
  have key : ∀ (order : List (UInt32 × Interval)) (s : Scan),
      (∀ (i : UInt32) l, s.locations[i]? = some l → P i l) →
      ∀ (i : UInt32) l, (order.foldl (Scan.place p) s).locations[i]? = some l → P i l := by
    intro order
    induction order with
    | nil => exact fun s hs => hs
    | cons entry rest ih =>
      intro s hs
      obtain ⟨i, interval⟩ := entry
      refine ih _ fun j l hl => ?_
      rw [place_eq, Std.TreeMap.getElem?_insert] at hl
      split at hl
      · rename_i heq
        cases hl
        rw [← Std.LawfulEqCmp.eq_of_compare heq]
        exact hchosen s i interval
      · exact hs j l hl
  refine key p.order {} (fun i l hl => ?_) index location h
  simp at hl

/-! ### Cells -/

/-- A cell that a value gets is in the pool, and no call that the value lives through overwrites
it. -/
theorem located_cell {s : Scan} {index : UInt32} {interval : Interval} {z : UInt8}
    (h : located p s index interval = .zeroPage z) :
    z ∈ p.zeroPage.pool ∧ p.reserved.contains z = false ∧
      (∀ a ∈ stillActive s interval, a.location ≠ .zeroPage z) ∧
      ∀ i set, p.callClobbers[i]? = some set → p.live.isLiveOut i (.vreg ⟨index⟩) = true →
        set.containsCell z = false := by
  unfold located at h
  split at h
  · cases h
  · split at h
    · rename_i cell hcell
      cases h
      unfold Problem.cell? at hcell
      have hmem := List.mem_of_find?_eq_some hcell
      have hfree := List.find?_some hcell
      rw [Bool.not_eq_true', contains_union, contains_ofList, Bool.or_eq_false_iff] at hfree
      have hfold : ∀ (sets : List CellSet) (start : CellSet),
          (sets.foldl CellSet.union start).contains z = false →
          start.contains z = false ∧ ∀ set ∈ sets, set.contains z = false := by
        intro sets
        induction sets with
        | nil => exact fun start hz => ⟨hz, by simp⟩
        | cons set rest ih =>
          intro start hz
          obtain ⟨hstart, hrest⟩ := ih _ hz
          rw [contains_union, Bool.or_eq_false_iff] at hstart
          refine ⟨hstart.1, fun set' hset' => ?_⟩
          rcases List.mem_cons.mp hset' with rfl | hset'
          · exact hstart.2
          · exact hrest set' hset'
      obtain ⟨hreserved, hsets⟩ := hfold _ _ hfree.1
      refine ⟨hmem, hreserved, fun a ha hloc => ?_, fun i set hset hlive => ?_⟩
      · have htaken : z ∈ (stillActive s interval).filterMap fun a => a.location.cell? :=
          List.mem_filterMap.mpr ⟨a, ha, by rw [hloc]; rfl⟩
        have := hfree.2
        rw [← List.contains_iff_mem] at htaken
        rw [htaken] at this
        cases this
      · refine hsets set.cells (List.mem_filterMap.mpr ⟨(i, set), ?_, by simp [hlive]⟩)
        exact Std.TreeMap.mem_toList_iff_getElem?_eq_some.mpr hset
    · cases h

/-! ### Allocation -/

/-- The problem of allocating a function. -/
def problemOf (z : ZeroPage) (selected : SelectedCode) (binding : Binding)
    (callClobbers : Std.TreeMap ℕ Clobbers) (live : Liveness) : Problem :=
  { code := selected.code
    live
    zeroPage := z
    callClobbers
    reserved := if binding.isInterrupt then z.interruptReserved else .empty
    locals := selected.locals
    useX := selected.locals = 0 }

/-- What allocating a function comes up with. -/
structure AllocatedFrom (z : ZeroPage) (selected : SelectedCode) (binding : Binding)
    (callClobbers : Std.TreeMap ℕ Clobbers) (a : AllocatedCode) : Prop where
  out : ∃ live moved,
    Liveness.compute selected.code selected.calls binding.returnKind.registers = .ok live ∧
    selected.locals.toNat +
      (assign (problemOf z selected binding callClobbers live)).1.slotEnds.length ≤ 255 ∧
    Placement.place ⟨selected.name, live,
        (assign (problemOf z selected binding callClobbers live)).1.locations⟩
      selected.calls {} 0 0 selected.code = .ok (a.code, moved) ∧
    a.calls = .ofList moved ∧
    a.locations = (assign (problemOf z selected binding callClobbers live)).1.locations ∧
    a.slots = (assign (problemOf z selected binding callClobbers live)).1.slotEnds.length ∧
    a.frameBytes = UInt8.ofNat (selected.locals.toNat + a.slots)

theorem allocate_spec {z : ZeroPage} {selected : SelectedCode} {binding : Binding}
    {callClobbers : Std.TreeMap ℕ Clobbers} {a : AllocatedCode}
    (h : allocate z selected binding callClobbers = .ok a) :
    AllocatedFrom z selected binding callClobbers a := by
  unfold allocate at h
  obtain ⟨live, hlive, h⟩ := bind_eq_ok.mp h
  dsimp only at h
  generalize hproblem : (Problem.mk selected.code live z callClobbers
    (if binding.isInterrupt then z.interruptReserved else .empty) selected.locals
    (selected.locals = 0)) = problem at h
  replace hproblem : problemOf z selected binding callClobbers live = problem := hproblem
  subst hproblem
  split at h
  · cases h
  · rename_i hframe
    obtain ⟨⟨code, moved⟩, hplace, h⟩ := bind_eq_ok.mp h
    cases h
    exact ⟨live, moved, hlive, Nat.le_of_not_gt hframe, hplace, rfl, rfl, rfl, rfl⟩

/-- **A cell is spared by the calls that its value lives through.** -/
theorem cell_spared {z : ZeroPage} {selected : SelectedCode} {binding : Binding}
    {callClobbers : Std.TreeMap ℕ Clobbers} {a : AllocatedCode}
    (h : allocate z selected binding callClobbers = .ok a) {live : Liveness}
    (hlive : Liveness.compute selected.code selected.calls binding.returnKind.registers = .ok live)
    {v : VReg} {cell : UInt8} (hloc : a.locations[v.index]? = some (.zeroPage cell)) :
    cell ∈ z.pool ∧ ∀ (i : ℕ) set, callClobbers[i]? = some set →
      live.isLiveOut i (.vreg v) = true → set.containsCell cell = false := by
  obtain ⟨live', moved, hlive', -, -, -, hlocations, -, -⟩ := (allocate_spec h).out
  rw [hlive] at hlive'
  cases hlive'
  rw [hlocations] at hloc
  have key : ∀ p : Problem, p.zeroPage = z → p.callClobbers = callClobbers → p.live = live →
      p.scan.locations[v.index]? = some (.zeroPage cell) →
      cell ∈ z.pool ∧ ∀ (i : ℕ) set, callClobbers[i]? = some set →
        live.isLiveOut i (.vreg v) = true → set.containsCell cell = false := by
    rintro p rfl rfl rfl hp
    refine scan_locations (P := fun index location => ∀ cell, location = .zeroPage cell →
      cell ∈ p.zeroPage.pool ∧ ∀ (i : ℕ) set, p.callClobbers[i]? = some set →
        p.live.isLiveOut i (.vreg ⟨index⟩) = true → set.containsCell cell = false)
      (fun s index interval cell hcell => ?_) v.index _ hp cell rfl
    obtain ⟨hpool, -, -, hcalls⟩ := located_cell hcell
    exact ⟨hpool, hcalls⟩
  unfold assign at hloc
  dsimp only at hloc
  split at hloc
  · exact key _ rfl rfl rfl hloc
  · exact key _ rfl rfl rfl hloc

end Codegen6502.Proofs.Allocating.Scan
