import Codegen6502.Proofs.Emitting.Assembling
import Mathlib.Logic.Function.Basic
import Mathlib.Order.Nat

/-!
# Extents of functions and objects

The lines of a function stand one behind the other in one segment, so a function has an extent as an
object has: a stretch from its first to its last byte.

* `Stacked`: extents that stand one behind the other, each segment counting for itself; they do not
  overlap (`Stacked.pairwise`), and one of them crosses every bound that a segment crosses
  (`Stacked.exists_past`);
* `extents`, `stacked_extents`: the extents of a layout, functions first;
* `overflowing_eq`: the name that an overflow is reported under.
-/

namespace Codegen6502.Proofs.Emitting.Extents

open Placing

/-- A stretch of a segment with the name of what stands there. -/
structure Extent where
  name : String
  segment : Segment
  start : ℕ
  /-- The offset just past the last byte. -/
  stop : ℕ
  deriving DecidableEq

/-! ### Stacks -/

/-- Extents stand one behind the other, each segment counting for itself, from some offsets to
others. -/
inductive Stacked : (Segment → ℕ) → List Extent → (Segment → ℕ) → Prop
  | nil (c : Segment → ℕ) : Stacked c [] c
  | cons {c c' : Segment → ℕ} {x : Extent} {rest : List Extent} (start : x.start = c x.segment)
      (le : x.start ≤ x.stop) (tail : Stacked (Function.update c x.segment x.stop) rest c') :
      Stacked c (x :: rest) c'

namespace Stacked

variable {c c' m : Segment → ℕ} {xs ys : List Extent} {x : Extent}

theorem append (h : Stacked c xs m) (h' : Stacked m ys c') : Stacked c (xs ++ ys) c' := by
  induction h with
  | nil => exact h'
  | cons start le _ ih => exact .cons start le (ih h')

theorem split : ∀ {xs : List Extent} {c : Segment → ℕ}, Stacked c (xs ++ ys) c' →
    ∃ m, Stacked c xs m ∧ Stacked m ys c'
  | [], c, h => ⟨c, .nil c, h⟩
  | _ :: _, _, .cons start le tail => by
    obtain ⟨m, hfront, hback⟩ := split tail
    exact ⟨m, .cons start le hfront, hback⟩

/-- Segments only grow. -/
theorem mono (h : Stacked c xs c') (s : Segment) : c s ≤ c' s := by
  induction h with
  | nil => exact le_rfl
  | @cons c c' x rest start le _ ih =>
    refine le_trans ?_ ih
    by_cases hs : s = x.segment
    · rw [hs, Function.update_self, ← start]
      exact le
    · rw [Function.update_of_ne hs]

/-- Extents lie between the offsets. -/
theorem bounds (h : Stacked c xs c') (hx : x ∈ xs) :
    c x.segment ≤ x.start ∧ x.start ≤ x.stop ∧ x.stop ≤ c' x.segment := by
  induction h with
  | nil => cases hx
  | @cons c c' y rest start le tail ih =>
    rcases List.mem_cons.mp hx with rfl | hx
    · have hstop := tail.mono x.segment
      rw [Function.update_self] at hstop
      exact ⟨start.ge, le, hstop⟩
    · obtain ⟨hstart, hle, hstop⟩ := ih hx
      refine ⟨le_trans ?_ hstart, hle, hstop⟩
      by_cases hs : x.segment = y.segment
      · rw [hs, Function.update_self, ← start]
        exact le
      · rw [Function.update_of_ne hs]

/-- **Extents of one segment do not overlap**: each ends before the next one starts. -/
theorem pairwise (h : Stacked c xs c') :
    xs.Pairwise fun x y => x.segment = y.segment → x.stop ≤ y.start := by
  induction h with
  | nil => exact .nil
  | @cons c c' x rest start le tail ih =>
    refine .cons (fun y hy hs => ?_) ih
    have hstart := (tail.bounds hy).1
    rwa [← hs, Function.update_self] at hstart

/-- **A segment that crosses a bound** has an extent that crosses it. -/
theorem exists_past (h : Stacked c xs c') {s : Segment} {bound : ℕ} (hc : c s ≤ bound)
    (hc' : bound < c' s) : ∃ x ∈ xs, x.segment = s ∧ bound < x.stop := by
  induction h with
  | nil => omega
  | @cons c c' x rest start le _ ih =>
    by_cases hx : x.segment = s ∧ bound < x.stop
    · exact ⟨x, List.mem_cons_self .., hx⟩
    · obtain ⟨y, hy, hpast⟩ := ih (by
        by_cases hs : s = x.segment
        · rw [hs, Function.update_self]
          exact not_lt.mp fun hlt => hx ⟨hs.symm, hlt⟩
        · rwa [Function.update_of_ne hs]) hc'
      exact ⟨y, List.mem_cons_of_mem _ hy, hpast⟩

/-- Extents of one segment merge to one, from the start of the first to the end of the last. -/
theorem merge {s : Segment} (h : Stacked c (x :: xs) c')
    (hs : ∀ y ∈ x :: xs, y.segment = s) :
    x.start = c s ∧ x.start ≤ ((x :: xs).getLast (List.cons_ne_nil _ _)).stop ∧
      c' = Function.update c s ((x :: xs).getLast (List.cons_ne_nil _ _)).stop := by
  induction xs generalizing c x with
  | nil =>
    cases h with
    | cons start le tail =>
      cases tail
      rw [← hs x (List.mem_cons_self ..)]
      exact ⟨start, le, rfl⟩
  | cons y rest ih =>
    cases h with
    | cons start le tail =>
      obtain ⟨hstart, hle, hlast⟩ := ih tail fun z hz => hs z (List.mem_cons_of_mem _ hz)
      have hx := hs x (List.mem_cons_self ..)
      rw [List.getLast_cons (List.cons_ne_nil _ _)]
      refine ⟨hx ▸ start, ?_, ?_⟩
      · rw [hx, Function.update_self] at hstart
        omega
      · rw [hlast, hx, Function.update_idem]

/-- A single extent is what its segment grows by. -/
theorem single (h : Stacked c [x] c') : x.start = c x.segment ∧ x.stop = c' x.segment := by
  cases h with
  | cons start le tail =>
    cases tail
    exact ⟨start, (Function.update_self x.segment x.stop c).symm⟩

end Stacked

/-! ### Extents of a layout -/

/-- The extent of a line. -/
def lineExtent (p : PlacedLine) : Extent := ⟨p.owner.name, p.segment, p.offset, p.stop⟩

/-- The extent of an object. -/
def dataExtent (p : PlacedData) : Extent := ⟨p.object.name, p.segment, p.offset, p.stop⟩

/-- The extent of lines of a function, from the first to the last. -/
def extentOf (header : FunctionHeader) (own : List PlacedLine) : Extent where
  name := header.name
  segment := .ofCode header.placement
  start := (own.head?.map (·.offset)).getD 0
  stop := (own.getLast?.map (·.stop)).getD 0

/-- The extents of functions whose lines have been placed. -/
def functionExtents : List EmittedFunction → List PlacedLine → List Extent
  | [], _ => []
  | f :: rest, lines =>
    extentOf f.header (lines.take f.code.length) :: functionExtents rest (lines.drop f.code.length)

/-- The extents of all functions and then of all objects. -/
def extents (e : Emission) (l : Layout) : List Extent :=
  functionExtents e.functions l.lines ++ l.data.map dataExtent

variable {e : Emission} {l : Layout}

theorem room_append (s : Segment) (front : List PlacedLine) (p : PlacedLine) :
    lineRoom s (front ++ [p]) = lineRoom s front + if p.segment = s then p.size else 0 := by
  rw [lineRoom, totalOf_append, totalOf_cons, totalOf_nil]
  rfl

/-- Lines are stacked. -/
theorem stacked_lines (h : Placed Layout.banked e l) :
    Stacked (fun _ => 0) (l.lines.map lineExtent) fun s => lineRoom s l.lines := by
  suffices key : ∀ rest front, l.lines = front ++ rest →
      Stacked (fun s => lineRoom s front) (rest.map lineExtent) fun s => lineRoom s l.lines from
    key l.lines [] rfl
  intro rest
  induction rest with
  | nil =>
    intro front hsplit
    rw [hsplit, List.append_nil]
    exact .nil _
  | cons p rest ih =>
    intro front hsplit
    have hoffset := (h.line front p rest hsplit).2
    refine .cons hoffset (Nat.le_add_right ..) ?_
    have hnext : Function.update (fun s => lineRoom s front) (lineExtent p).segment (lineExtent p).stop =
        fun s => lineRoom s (front ++ [p]) := by
      funext s
      rw [room_append]
      by_cases hs : s = p.segment
      · subst hs
        rw [if_pos rfl, ← hoffset]
        exact Function.update_self ..
      · rw [if_neg (Ne.symm hs), Nat.add_zero]
        exact Function.update_of_ne hs ..
    rw [hnext]
    exact ih (front ++ [p]) (by rw [hsplit, List.append_assoc, List.singleton_append])

/-- Objects are stacked behind the lines. -/
theorem stacked_data (h : Placed Layout.banked e l) :
    Stacked (fun s => lineRoom s l.lines) (l.data.map dataExtent) l.ends.offset := by
  suffices key : ∀ rest front, l.data = front ++ rest →
      Stacked (fun s => lineRoom s l.lines + dataRoom s front) (rest.map dataExtent) l.ends.offset from
    key l.data [] rfl
  intro rest
  induction rest with
  | nil =>
    intro front hsplit
    have hends : l.ends.offset = fun s => lineRoom s l.lines + dataRoom s front := by
      funext s
      rw [h.ends, hsplit, List.append_nil]
    rw [hends]
    exact .nil _
  | cons p rest ih =>
    intro front hsplit
    have hoffset := (h.object front p rest hsplit).2
    refine .cons hoffset (Nat.le_add_right ..) ?_
    have hnext : Function.update (fun s => lineRoom s l.lines + dataRoom s front)
        (dataExtent p).segment (dataExtent p).stop =
        fun s => lineRoom s l.lines + dataRoom s (front ++ [p]) := by
      funext s
      rw [dataRoom, totalOf_append, totalOf_cons, totalOf_nil, ← dataRoom]
      by_cases hs : s = p.segment
      · subst hs
        rw [if_pos rfl, Nat.add_zero, ← Nat.add_assoc, ← hoffset]
        exact Function.update_self ..
      · rw [if_neg (Ne.symm hs)]
        exact Function.update_of_ne hs ..
    rw [hnext]
    exact ih (front ++ [p]) (by rw [hsplit, List.append_assoc, List.singleton_append])

/-! ### The lines of functions -/

/-- Lines of a layout are those of a function. -/
structure Run (f : EmittedFunction) (own : List PlacedLine) : Prop where
  lines : own.map (fun p => (p.owner, p.line)) = f.code.map fun line => (f.header, line)
  segment : ∀ p ∈ own, p.segment = .ofCode f.header.placement

theorem Run.owner {f : EmittedFunction} {own : List PlacedLine} (h : Run f own) :
    ∀ p ∈ own, p.owner = f.header := by
  intro p hp
  have hmem : (p.owner, p.line) ∈ f.code.map fun line => (f.header, line) :=
    h.lines ▸ List.mem_map.mpr ⟨p, hp, rfl⟩
  obtain ⟨line, -, heq⟩ := List.mem_map.mp hmem
  exact (Prod.mk.inj heq).1.symm

theorem Run.length {f : EmittedFunction} {own : List PlacedLine} (h : Run f own) :
    own.length = f.code.length := by
  simpa using congrArg List.length h.lines

/-- Lines fall apart into those of the functions. -/
def Grouped : List EmittedFunction → List PlacedLine → Prop
  | [], lines => lines = []
  | f :: rest, lines =>
    f.code ≠ [] ∧ Run f (lines.take f.code.length) ∧ Grouped rest (lines.drop f.code.length)

theorem grouped (h : Placed Layout.banked e l) (hcode : ∀ f ∈ e.functions, f.code ≠ []) :
    Grouped e.functions l.lines := by
  have hsegment : ∀ p ∈ l.lines, p.segment = .ofCode p.owner.placement := by
    intro p hp
    obtain ⟨front, back, hsplit⟩ := List.append_of_mem hp
    exact (h.line front p back hsplit).1
  have howners := h.owners
  unfold Emission.lines at howners
  revert hcode hsegment howners
  generalize e.functions = functions
  generalize l.lines = lines
  intro hcode
  induction functions generalizing lines with
  | nil =>
    intro _ howners
    simpa [Grouped] using howners
  | cons f rest ih =>
    intro hsegment howners
    rw [List.flatMap_cons] at howners
    have htake := congrArg (List.take f.code.length) howners
    have hdrop := congrArg (List.drop f.code.length) howners
    rw [← List.map_take, List.take_left' (by simp)] at htake
    rw [← List.map_drop, List.drop_left' (by simp)] at hdrop
    have hrun : ∀ p ∈ lines.take f.code.length, p.owner = f.header := fun p hp => by
      have hmem : (p.owner, p.line) ∈ f.code.map fun line => (f.header, line) :=
        htake ▸ List.mem_map.mpr ⟨p, hp, rfl⟩
      obtain ⟨line, -, heq⟩ := List.mem_map.mp hmem
      exact (Prod.mk.inj heq).1.symm
    refine ⟨hcode f (List.mem_cons_self ..), ⟨htake, fun p hp => ?_⟩, ih _
      (fun g hg => hcode g (List.mem_cons_of_mem _ hg))
      (fun p hp => hsegment p (List.mem_of_mem_drop hp)) hdrop⟩
    rw [hsegment p (List.mem_of_mem_take hp), hrun p hp]

/-- The extent of a function takes the place of those of its lines. -/
theorem stacked_run {f : EmittedFunction} {own : List PlacedLine} {c c' : Segment → ℕ}
    (hrun : Run f own) (hne : own ≠ []) (h : Stacked c (own.map lineExtent) c') :
    Stacked c [extentOf f.header own] c' := by
  cases own with
  | nil => exact absurd rfl hne
  | cons p rest =>
    have hsegment : ∀ x ∈ lineExtent p :: rest.map lineExtent,
        x.segment = .ofCode f.header.placement := by
      intro x hx
      obtain ⟨q, hq, rfl⟩ := List.mem_map.mp (List.map_cons ▸ hx)
      exact hrun.segment q hq
    obtain ⟨hstart, hle, hlast⟩ := h.merge hsegment
    have hstop : (extentOf f.header (p :: rest)).stop =
        ((lineExtent p :: rest.map lineExtent).getLast (List.cons_ne_nil _ _)).stop := by
      rw [extentOf, List.getLast?_eq_some_getLast (List.cons_ne_nil _ _)]
      simp only [Option.map_some, Option.getD_some, ← List.map_cons, List.getLast_map]
      rfl
    refine .cons hstart (hstop ▸ hle) ?_
    rw [hlast, hstop]
    exact .nil _

theorem stacked_functions : ∀ {functions : List EmittedFunction} {lines : List PlacedLine}
    {c c' : Segment → ℕ}, Grouped functions lines → Stacked c (lines.map lineExtent) c' →
    Stacked c (functionExtents functions lines) c'
  | [], lines, c, c', hgrouped, h => by
    rw [show lines = [] from hgrouped] at h
    exact h
  | f :: rest, lines, c, c', ⟨hcode, hrun, hrest⟩, h => by
    rw [← List.take_append_drop f.code.length lines, List.map_append] at h
    obtain ⟨m, hfront, hback⟩ := h.split
    have hne : lines.take f.code.length ≠ [] := fun hnil =>
      hcode (List.length_eq_zero_iff.mp (by rw [← hrun.length, hnil, List.length_nil]))
    exact (stacked_run hrun hne hfront).append (stacked_functions hrest hback)

/-- **The extents of a layout fill its segments**, one behind the other. -/
theorem stacked_extents (h : Placed Layout.banked e l) (hcode : ∀ f ∈ e.functions, f.code ≠ []) :
    Stacked (fun _ => 0) (extents e l) l.ends.offset :=
  (stacked_functions (grouped h hcode) (stacked_lines h)).append (stacked_data h)

/-- What an extent of a function has to do with the function's lines. -/
structure Covers (lines : List PlacedLine) (f : EmittedFunction) (x : Extent) : Prop where
  name : x.name = f.header.name
  segment : x.segment = .ofCode f.header.placement
  /-- The first line stands at the start. -/
  first : ∀ line rest, f.code = line :: rest →
    ∃ p ∈ lines, p.owner = f.header ∧ p.line = line ∧ p.segment = x.segment ∧ p.offset = x.start
  inside : ∀ line ∈ f.code, ∃ p ∈ lines, p.line = line ∧ x.start ≤ p.offset ∧ p.stop ≤ x.stop

theorem covers_run {f : EmittedFunction} {own : List PlacedLine} {c c' : Segment → ℕ}
    (hrun : Run f own) (hne : own ≠ []) (h : Stacked c (own.map lineExtent) c') :
    Covers own f (extentOf f.header own) where
  name := rfl
  segment := rfl
  first := by
    intro line rest hcode
    cases own with
    | nil => exact absurd rfl hne
    | cons p others =>
      have hlines := hrun.lines
      rw [hcode, List.map_cons, List.map_cons] at hlines
      obtain ⟨howner, hline⟩ := Prod.mk.inj (List.cons.inj hlines).1
      exact ⟨p, List.mem_cons_self .., howner, hline, hrun.segment p (List.mem_cons_self ..), rfl⟩
  inside := by
    intro line hline
    have hmem : (f.header, line) ∈ own.map fun p => (p.owner, p.line) :=
      hrun.lines ▸ List.mem_map_of_mem hline
    obtain ⟨p, hp, heq⟩ := List.mem_map.mp hmem
    obtain ⟨hlo, -, hhi⟩ := h.bounds (List.mem_map_of_mem hp)
    obtain ⟨hstart, hstop⟩ := (stacked_run hrun hne h).single
    change c p.segment ≤ p.offset at hlo
    change p.stop ≤ c' p.segment at hhi
    rw [hrun.segment p hp] at hlo hhi
    exact ⟨p, hp, (Prod.mk.inj heq).2, hstart ▸ hlo, hstop ▸ hhi⟩

theorem Covers.mono {lines lines' : List PlacedLine} {f : EmittedFunction} {x : Extent}
    (h : Covers lines f x) (hsub : ∀ p ∈ lines, p ∈ lines') : Covers lines' f x where
  name := h.name
  segment := h.segment
  first line rest hcode :=
    let ⟨p, hp, hfirst⟩ := h.first line rest hcode
    ⟨p, hsub p hp, hfirst⟩
  inside line hline :=
    let ⟨p, hp, hinside⟩ := h.inside line hline
    ⟨p, hsub p hp, hinside⟩

/-- Every function has an extent that covers its lines, in order. -/
theorem covers_functions : ∀ {functions : List EmittedFunction} {lines : List PlacedLine}
    {c c' : Segment → ℕ}, Grouped functions lines → Stacked c (lines.map lineExtent) c' →
    List.Forall₂ (Covers lines) functions (functionExtents functions lines)
  | [], _, _, _, _, _ => .nil
  | f :: rest, lines, c, c', ⟨hcode, hrun, hrest⟩, h => by
    rw [← List.take_append_drop f.code.length lines, List.map_append] at h
    obtain ⟨m, hfront, hback⟩ := h.split
    have hne : lines.take f.code.length ≠ [] := fun hnil =>
      hcode (List.length_eq_zero_iff.mp (by rw [← hrun.length, hnil, List.length_nil]))
    refine .cons ((covers_run hrun hne hfront).mono fun p hp => List.mem_of_mem_take hp) ?_
    exact (covers_functions hrest hback).imp fun g x hx =>
      hx.mono fun p hp => List.mem_of_mem_drop hp

/-! ### The extent that is reported -/

/-- Whether an extent of a segment ends past a bound. -/
def past (s : Segment) (bound : ℕ) (x : Extent) : Bool := x.segment = s && bound < x.stop

/-- Whether a line of a segment ends past a bound. -/
def linePast (s : Segment) (bound : ℕ) (p : PlacedLine) : Bool := p.segment = s && p.stop > bound

/-- A function has a line past a bound if and only if its extent ends past it. -/
theorem find?_run {f : EmittedFunction} {own : List PlacedLine} {c c' : Segment → ℕ}
    (hrun : Run f own) (hne : own ≠ []) (h : Stacked c (own.map lineExtent) c') (s : Segment)
    (bound : ℕ) : (own.find? (linePast s bound)).map (·.owner.name) =
      ([extentOf f.header own].find? (past s bound)).map (·.name) := by
  cases hfind : own.find? (linePast s bound) with
  | some p =>
    have hp := List.mem_of_find?_eq_some hfind
    have htrue : linePast s bound p = true := List.find?_some hfind
    rw [linePast, Bool.and_eq_true, decide_eq_true_eq, decide_eq_true_eq] at htrue
    obtain ⟨hs, hpast⟩ := htrue
    have hstop : p.stop ≤ c' p.segment := (h.bounds (List.mem_map_of_mem hp)).2.2
    obtain ⟨-, hend⟩ := (stacked_run hrun hne h).single
    rw [hrun.segment p hp] at hs hstop
    have hcross : past s bound (extentOf f.header own) = true := by
      rw [past, Bool.and_eq_true, decide_eq_true_eq, decide_eq_true_eq, hend]
      exact ⟨hs, lt_of_lt_of_le hpast hstop⟩
    rw [List.find?_cons_of_pos hcross, Option.map_some, Option.map_some, hrun.owner p hp]
    rfl
  | none =>
    have hnone := List.find?_eq_none.mp hfind
    have hlast := hnone (own.getLast hne) (List.getLast_mem hne)
    have hcross : ¬ past s bound (extentOf f.header own) = true := by
      intro hcross
      refine hlast ?_
      rw [past, Bool.and_eq_true, decide_eq_true_eq, decide_eq_true_eq] at hcross
      rw [linePast, Bool.and_eq_true, decide_eq_true_eq, decide_eq_true_eq,
        hrun.segment _ (List.getLast_mem hne)]
      refine ⟨hcross.1, ?_⟩
      have hstop := hcross.2
      rw [extentOf, List.getLast?_eq_some_getLast hne] at hstop
      exact hstop
    rw [List.find?_cons_of_neg hcross]
    rfl

theorem find?_functions (s : Segment) (bound : ℕ) :
    ∀ {functions : List EmittedFunction} {lines : List PlacedLine} {c c' : Segment → ℕ},
      Grouped functions lines → Stacked c (lines.map lineExtent) c' →
      (lines.find? (linePast s bound)).map (·.owner.name) =
        ((functionExtents functions lines).find? (past s bound)).map (·.name)
  | [], lines, c, c', hgrouped, _ => by
    rw [show lines = [] from hgrouped]
    rfl
  | f :: rest, lines, c, c', ⟨hcode, hrun, hrest⟩, h => by
    have hlines := List.take_append_drop f.code.length lines
    rw [← hlines, List.map_append] at h
    obtain ⟨m, hfront, hback⟩ := h.split
    have hne : lines.take f.code.length ≠ [] := fun hnil =>
      hcode (List.length_eq_zero_iff.mp (by rw [← hrun.length, hnil, List.length_nil]))
    have hfirst := find?_run hrun hne hfront s bound
    have hothers := find?_functions s bound hrest hback
    have hsplit : functionExtents (f :: rest) lines =
        [extentOf f.header (lines.take f.code.length)] ++
          functionExtents rest (lines.drop f.code.length) := rfl
    rw [hsplit, List.find?_append, Option.map_or, ← hfirst, ← hothers, ← Option.map_or,
      ← List.find?_append, hlines]

/-- **The name that an overflow is reported under** is that of the first extent past the bound. -/
theorem overflowing_eq (h : Placed Layout.banked e l) (hcode : ∀ f ∈ e.functions, f.code ≠ [])
    (s : Segment) (bound : ℕ) : MachineCode.overflowing l s bound =
      (((extents e l).find? (past s bound)).map (·.name)).getD "" := by
  have hfunctions := find?_functions s bound (grouped h hcode) (stacked_lines h)
  rw [extents, List.find?_append, Option.map_or, ← hfunctions, List.find?_map, Option.map_map]
  rfl

end Codegen6502.Proofs.Emitting.Extents
